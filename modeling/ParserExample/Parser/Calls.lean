import ParserExample.Parser.Exchange

/-!
# The calls of a run

The points of a run of the parser: where one of its functions, or a turn of one
of their loops, is called. `Calls` leads from a call to each of the calls that
its body makes, in the state in which it makes them; the tree of all calls of
`parse_slice` hangs below `Call.program`.
-/

namespace ParserExample

open Library

-- ---------------------------------------------------------------------------
-- Calls
-- ---------------------------------------------------------------------------

/-- The two functions that parse a chain of operators. -/
inductive Level
  | addSub | mulDiv
  deriving DecidableEq, Repr

def Level.op : Level → TokenType → Option BinaryType
  | .addSub => addSubType
  | .mulDiv => mulDivType

/-- `loop` is the rest of the loop of a chain and `signs` that of the loop over
the signs, each from the top of a turn on. The fuel is that of the recursion
through `parse_paren`. -/
inductive Call
  | program
  | expr (fuel : Nat)
  | addSub (fuel : Nat)
  | mulDiv (fuel : Nat)
  | loop (level : Level) (fuel count : Nat) (node : AstNode)
  | signed (fuel : Nat)
  | signs (count : Nat) (inverse : Bool)
  | atom (fuel : Nat)
  | paren (fuel : Nat)
  | peekToken
  | consumeToken
  | token
  | appendNode (node : AstNode)
  deriving DecidableEq, Repr

def Level.parseOperand (fuel : Nat) : Level → Proc Parser AstNode
  | .addSub => parseMulDiv (parseAddSub fuel) (fuel + 1)
  | .mulDiv => parseSigned (parseAddSub fuel) (fuel + 1)

def Level.operand (fuel : Nat) : Level → Call
  | .addSub => .mulDiv fuel
  | .mulDiv => .signed fuel

def runs {α : Type} (x : Proc Parser α) : Proc Parser Unit := x >>= fun _ => return

def Call.exec : Call → Proc Parser Unit
  | .program => parseProgram
  | .expr fuel => parseExpr fuel
  | .addSub fuel => runs (parseAddSub fuel)
  | .mulDiv fuel => runs (parseMulDiv (parseAddSub fuel) (fuel + 1))
  | .loop .addSub fuel count node => runs (parseAddSubLoop (parseAddSub fuel) (fuel + 1) count node)
  | .loop .mulDiv fuel count node => runs (parseMulDivLoop (parseAddSub fuel) (fuel + 1) count node)
  | .signed fuel => runs (parseSigned (parseAddSub fuel) (fuel + 1))
  | .signs count inverse => runs (parseSigns count inverse)
  | .atom fuel => runs (parseAtom (parseAddSub fuel))
  | .paren fuel => runs (parseParen (parseAddSub fuel))
  | .peekToken => parserPeekToken
  | .consumeToken => parserConsumeToken
  | .token => parseToken
  | .appendNode node => parserAppendNode node

def AtOperator (level : Level) (s s₁ : Parser) (type : BinaryType) : Prop :=
  parserPeekToken s = .ok () s₁ ∧ level.op s₁.token.type = some type

def OperandAt (level : Level) (fuel : Nat) (node : AstNode) (s₁ s₂ s₃ : Parser) (right : AstNode)
    (s₄ : Parser) : Prop :=
  parserAppendNode node s₁ = .ok () s₂ ∧ parserConsumeToken s₂ = .ok () s₃ ∧
    level.parseOperand fuel s₃ = .ok right s₄

inductive Calls : Call × Parser → Call × Parser → Prop
  -- parse_slice
  | program_expr : Calls (.program, s) (.expr (s.code.length + 2), s)
  | program_peek (h : parseExpr (s.code.length + 2) s = .ok () s₁) :
      Calls (.program, s) (.peekToken, s₁)
  | program_consume (h : parseExpr (s.code.length + 2) s = .ok () s₁)
      (h₁ : parserPeekToken s₁ = .ok () s₂) (heof : s₂.token.type = .eof) :
      Calls (.program, s) (.consumeToken, s₂)
  -- parse_expr
  | expr_addSub : Calls (.expr fuel, s) (.addSub fuel, s)
  | expr_append (h : parseAddSub fuel s = .ok node s₁) :
      Calls (.expr fuel, s) (.appendNode node, s₁)
  -- parse_add_sub
  | addSub_mulDiv : Calls (.addSub (fuel + 1), s) (.mulDiv fuel, s)
  | addSub_loop (h : parseMulDiv (parseAddSub fuel) (fuel + 1) s = .ok node s₁) :
      Calls (.addSub (fuel + 1), s) (.loop .addSub fuel (fuel + 1) node, s₁)
  -- parse_mul_div
  | mulDiv_signed : Calls (.mulDiv fuel, s) (.signed fuel, s)
  | mulDiv_loop (h : parseSigned (parseAddSub fuel) (fuel + 1) s = .ok node s₁) :
      Calls (.mulDiv fuel, s) (.loop .mulDiv fuel (fuel + 1) node, s₁)
  -- the loops of both
  | loop_peek : Calls (.loop level fuel (count + 1) node, s) (.peekToken, s)
  | loop_left (h : AtOperator level s s₁ type) :
      Calls (.loop level fuel (count + 1) node, s) (.appendNode node, s₁)
  | loop_consume (h : AtOperator level s s₁ type) (h₁ : parserAppendNode node s₁ = .ok () s₂) :
      Calls (.loop level fuel (count + 1) node, s) (.consumeToken, s₂)
  | loop_operand (h : AtOperator level s s₁ type) (h₁ : parserAppendNode node s₁ = .ok () s₂)
      (h₂ : parserConsumeToken s₂ = .ok () s₃) :
      Calls (.loop level fuel (count + 1) node, s) (level.operand fuel, s₃)
  | loop_right (h : AtOperator level s s₁ type) (h₁ : OperandAt level fuel node s₁ s₂ s₃ right s₄)
      (hdiv : ¬ (type = .div ∧ right.data = .leaf (.int 0))) :
      Calls (.loop level fuel (count + 1) node, s) (.appendNode right, s₄)
  | loop_next (h : AtOperator level s s₁ type) (h₁ : OperandAt level fuel node s₁ s₂ s₃ right s₄)
      (hdiv : ¬ (type = .div ∧ right.data = .leaf (.int 0)))
      (h₄ : parserAppendNode right s₄ = .ok () s₅) :
      Calls (.loop level fuel (count + 1) node, s)
        (.loop level fuel count ⟨s₁.token.startIndex, s₁.token.endIndex,
          .bin type s₃.ast.rootNodeIndex s₅.ast.rootNodeIndex⟩, s₅)
  -- parse_signed
  | signed_peek : Calls (.signed fuel, s) (.peekToken, s)
  | signed_signs (h : parserPeekToken s = .ok () s₁) :
      Calls (.signed fuel, s) (.signs (fuel + 1) false, s₁)
  | signed_atom (h : parserPeekToken s = .ok () s₁)
      (h₁ : parseSigns (fuel + 1) false s₁ = .ok inverse s₂) :
      Calls (.signed fuel, s) (.atom fuel, s₂)
  | signed_append (h : parserPeekToken s = .ok () s₁)
      (h₁ : parseSigns (fuel + 1) false s₁ = .ok true s₂)
      (h₂ : parseAtom (parseAddSub fuel) s₂ = .ok child s₃)
      (hint : ∀ value, child.data ≠ .leaf (.int value)) :
      Calls (.signed fuel, s) (.appendNode child, s₃)
  -- the loop over the signs
  | signs_peek : Calls (.signs (count + 1) inverse, s) (.peekToken, s)
  | signs_consume (h : parserPeekToken s = .ok () s₁)
      (hsign : s₁.token.type = .minus ∨ s₁.token.type = .plus) :
      Calls (.signs (count + 1) inverse, s) (.consumeToken, s₁)
  | signs_next (h : parserPeekToken s = .ok () s₁)
      (hsign : s₁.token.type = .minus ∨ s₁.token.type = .plus)
      (h₁ : parserConsumeToken s₁ = .ok () s₂) :
      Calls (.signs (count + 1) inverse, s)
        (.signs count (if s₁.token.type = .minus then !inverse else inverse), s₂)
  -- parse_atom
  | atom_peek : Calls (.atom fuel, s) (.peekToken, s)
  | atom_consume (h : parserPeekToken s = .ok () s₁)
      (hleaf : s₁.token.type = .ident ∨ s₁.token.type = .int) :
      Calls (.atom fuel, s) (.consumeToken, s₁)
  | atom_paren (h : parserPeekToken s = .ok () s₁) (hopen : s₁.token.type = .parenOpen) :
      Calls (.atom fuel, s) (.paren fuel, s₁)
  -- parse_paren
  | paren_peek : Calls (.paren fuel, s) (.peekToken, s)
  | paren_consume (h : parserPeekToken s = .ok () s₁) (hopen : s₁.token.type = .parenOpen) :
      Calls (.paren fuel, s) (.consumeToken, s₁)
  | paren_addSub (h : parserPeekToken s = .ok () s₁) (hopen : s₁.token.type = .parenOpen)
      (h₁ : parserConsumeToken s₁ = .ok () s₂) : Calls (.paren fuel, s) (.addSub fuel, s₂)
  | paren_close (h : parserPeekToken s = .ok () s₁) (hopen : s₁.token.type = .parenOpen)
      (h₁ : parserConsumeToken s₁ = .ok () s₂) (h₂ : parseAddSub fuel s₂ = .ok node s₃)
      (hclose : s₃.token.type = .parenClose) : Calls (.paren fuel, s) (.consumeToken, s₃)
  -- parser_peek_token
  | peek_token (h : s.state = .tokenPending) : Calls (.peekToken, s) (.token, s)

/-- The calls of a run of `parse_slice`, which gets to the parser when nothing
is wrong with the arguments. -/
def Called (heap : Heap) (code : Bytes) (names : List Bytes) (point : Call × Parser) : Prop :=
  argsError names = none ∧
    Relation.ReflTransGen Calls (.program, Parser.init heap code names) point

-- ---------------------------------------------------------------------------
-- Reads
-- ---------------------------------------------------------------------------

/-- The reads of `while (index < code_size && p(code[index])) ++ index;`. The
second argument is the number of bytes left. -/
def scanReads (p : UInt8 → Bool) (code : Bytes) : Nat → Nat → List Nat
  | 0, _ => []
  | left + 1, index =>
    if index < code.length then
      index :: if p (code.getD index 0) then scanReads p code left (index + 1) else []
    else []

def skipReads (code : Bytes) : Nat → Nat → List Nat
  | 0, _ => []
  | left + 1, index =>
    if index < code.length then
      let sym := code.getD index 0
      index ::
        if sym = byte '#' then
          scanReads (· ≠ newline) code left (index + 1) ++
            skipReads code left (advanceWhile (· ≠ newline) code (index + 1))
        else if !isspace sym then []
        else skipReads code left (index + 1)
    else []

def digitReads (code : Bytes) : Nat → Nat → Long → List Nat
  | 0, _, _ => []
  | left + 1, index, value =>
    if index < code.length then
      let sym := code.getD index 0
      let digit : Long := Int64.ofNat (sym - byte '0').toNat
      index ::
        if !isDigit sym then []
        else if value > (longMax - digit) / 10 then []
        else digitReads code left (index + 1) (value * 10 + digit)
    else []

/-- The offsets at which `parse_token` reads the code: the loops, the character
that it switches on, and the name that it copies to the buffer. -/
def parseTokenReads (parser : Parser) : List Nat :=
  let code := parser.code
  let index := (parserSkipIgnoreable parser).index
  let left := code.length - index
  skipReads code (code.length - parser.index) parser.index ++
    if index ≥ code.length then []
    else
      let sym := code.getD index 0
      index ::
        if (charType sym).isSome then []
        else if isDigit sym then digitReads code left index 0
        else if isIdentHead sym then
          let endIndex := advanceWhile isIdentTail code index
          scanReads isIdentTail code left index ++ List.range' index (endIndex - index)
        else []

theorem scanReads_lt {p : UInt8 → Bool} {code : Bytes} {left index i : Nat}
    (h : i ∈ scanReads p code left index) : i < code.length := by
  induction left generalizing index with
  | zero => cases h
  | succ left ih =>
    rw [scanReads] at h
    split_ifs at h with hlt
    · rcases List.mem_cons.mp h with rfl | h
      · exact hlt
      · exact ih h
    · exact List.mem_singleton.mp h ▸ hlt
    · cases h

theorem skipReads_lt {code : Bytes} {left index i : Nat} (h : i ∈ skipReads code left index) :
    i < code.length := by
  induction left generalizing index with
  | zero => cases h
  | succ left ih =>
    rw [skipReads] at h
    split_ifs at h with hlt
    · rcases List.mem_cons.mp h with rfl | h
      · exact hlt
      · split_ifs at h
        · rcases List.mem_append.mp h with h | h
          · exact scanReads_lt h
          · exact ih h
        · cases h
        · exact ih h
    · cases h

theorem digitReads_lt {code : Bytes} {left index i : Nat} {value : Long}
    (h : i ∈ digitReads code left index value) : i < code.length := by
  induction left generalizing index value with
  | zero => cases h
  | succ left ih =>
    rw [digitReads] at h
    split_ifs at h with hlt
    · rcases List.mem_cons.mp h with rfl | h
      · exact hlt
      · split_ifs at h
        · cases h
        · cases h
        · exact ih h
    · cases h

theorem parseTokenReads_lt {s : Parser} {i : Nat} (h : i ∈ parseTokenReads s) :
    i < s.code.length := by
  unfold parseTokenReads at h
  rcases List.mem_append.mp h with h | h
  · exact skipReads_lt h
  generalize (parserSkipIgnoreable s).index = index at h
  dsimp only at h
  split_ifs at h with hge hc hd hh
  · cases h
  all_goals
    rcases List.mem_cons.mp h with rfl | h
    · exact Nat.lt_of_not_le hge
  · cases h
  · exact digitReads_lt h
  · rcases List.mem_append.mp h with h | h
    · exact scanReads_lt h
    · have hlen := (List.takeWhile_prefix (p := isIdentTail) (l := s.code.drop index)).length_le
      rw [List.length_drop] at hlen
      simp only [List.mem_range'_1, advanceWhile] at h
      omega
  · cases h

-- ---------------------------------------------------------------------------
-- What is not read makes no difference
-- ---------------------------------------------------------------------------

/-- From the state the procedure reads the code at these offsets only: with another
code that has the same bytes there, and as many of them, it ends in the same way. -/
def ReadsOnly {α : Type} (reads : List Nat) (x : Proc Parser α) (s : Parser) : Prop :=
  ∀ code : Bytes, code.length = s.code.length → (∀ i ∈ reads, code[i]? = s.code[i]?) →
    match x s with
    | .ok a s' => x { s with code } = .ok a { s' with code }
    | .error e s' => x { s with code } = .error e { s' with code }

section
variable {code code' : Bytes} {p : UInt8 → Bool} {left index : Nat} {sym : UInt8}

theorem getD_of_getElem? (h : code[index]? = some sym) : code.getD index 0 = sym := by
  rw [List.getD_eq_getElem?_getD, h, Option.getD_some]

theorem advanceWhile_eq (p : UInt8 → Bool) (code : Bytes) (index : Nat) :
    advanceWhile p code index = match code[index]? with
      | none => index
      | some sym => if p sym then advanceWhile p code (index + 1) else index := by
  unfold advanceWhile
  cases hsym : code[index]? with
  | none => rw [List.drop_eq_nil_of_le (List.getElem?_eq_none_iff.mp hsym)]; rfl
  | some sym =>
    obtain ⟨hlt, hget⟩ := List.getElem?_eq_some_iff.mp hsym
    rw [List.drop_eq_getElem_cons hlt, hget, List.takeWhile_cons]
    dsimp only
    split_ifs
    · rw [List.length_cons, Nat.add_assoc, Nat.add_comm 1]
    · rfl

variable (hlen : code'.length = code.length)
include hlen

theorem getElem?_of_length_le (hge : code.length ≤ index) :
    code'[index]? = none ∧ code[index]? = none :=
  ⟨List.getElem?_eq_none (hlen ▸ hge), List.getElem?_eq_none hge⟩

theorem advanceWhile_congr (hleft : code.length ≤ index + left)
    (h : ∀ i ∈ scanReads p code left index, code'[i]? = code[i]?) :
    advanceWhile p code' index = advanceWhile p code index := by
  induction left generalizing index with
  | zero =>
    obtain ⟨hnone', hnone⟩ := @getElem?_of_length_le _ _ index hlen hleft
    rw [advanceWhile_eq, advanceWhile_eq p code, hnone', hnone]
  | succ left ih =>
    rw [scanReads] at h
    rw [advanceWhile_eq, advanceWhile_eq p code]
    split_ifs at h with hlt hp
    · rw [h index List.mem_cons_self, List.getElem?_eq_getElem hlt]
      rw [ih (by omega) fun i hi => h i (.tail _ hi)]
    · rw [h index List.mem_cons_self, List.getElem?_eq_getElem hlt]
      rw [getD_of_getElem? (List.getElem?_eq_getElem hlt)] at hp
      dsimp only
      rw [if_neg hp, if_neg hp]
    · obtain ⟨hnone', hnone⟩ := getElem?_of_length_le hlen (Nat.le_of_not_lt hlt)
      rw [hnone', hnone]

theorem skipIgnoreable_congr (hleft : code.length ≤ index + left)
    (h : ∀ i ∈ skipReads code left index, code'[i]? = code[i]?) :
    skipIgnoreable code' left index = skipIgnoreable code left index := by
  induction left generalizing index with
  | zero => rfl
  | succ left ih =>
    rw [skipReads] at h
    rw [skipIgnoreable, skipIgnoreable]
    by_cases hlt : index < code.length
    · rw [if_pos hlt] at h
      have hsym := List.getElem?_eq_getElem hlt
      rw [h index List.mem_cons_self, hsym]
      simp only [getD_of_getElem? hsym, List.mem_cons] at h ⊢
      split_ifs at h ⊢ with hhash hspace
      · have hle : index + 1 ≤ advanceWhile (· ≠ newline) code (index + 1) := Nat.le_add_right _ _
        rw [advanceWhile_congr hlen (show code.length ≤ index + 1 + left by omega)
          fun i hi => h i (.inr (List.mem_append_left _ hi))]
        exact ih (by omega) fun i hi => h i (.inr (List.mem_append_right _ hi))
      · rfl
      · exact ih (by omega) fun i hi => h i (.inr hi)
    · obtain ⟨hnone', hnone⟩ := getElem?_of_length_le hlen (Nat.le_of_not_lt hlt)
      rw [hnone', hnone]

theorem readDigits_congr {value : Long} (hleft : code.length ≤ index + left)
    (h : ∀ i ∈ digitReads code left index value, code'[i]? = code[i]?) :
    readDigits (code'.drop index) index value = readDigits (code.drop index) index value := by
  have hend (hge : code.length ≤ index) : code'.drop index = code.drop index := by
    rw [List.drop_eq_nil_of_le hge, List.drop_eq_nil_of_le (hlen ▸ hge)]
  induction left generalizing index value with
  | zero => rw [hend hleft]
  | succ left ih =>
    rw [digitReads] at h
    by_cases hlt : index < code.length
    · rw [if_pos hlt] at h
      have hsym := List.getElem?_eq_getElem hlt
      have hsym' := (h index List.mem_cons_self).trans hsym
      obtain ⟨hlt', hget⟩ := List.getElem?_eq_some_iff.mp hsym'
      rw [List.drop_eq_getElem_cons hlt', List.drop_eq_getElem_cons hlt, hget]
      rw [readDigits, readDigits]
      simp only [getD_of_getElem? hsym, List.mem_cons] at h ⊢
      split_ifs at h ⊢
      · rfl
      · rfl
      · refine ih (by omega) (fun i hi => h i (.inr hi)) fun hge => ?_
        rw [List.drop_eq_nil_of_le hge, List.drop_eq_nil_of_le (hlen ▸ hge)]
    · rw [hend (Nat.le_of_not_lt hlt)]

end

section
variable {code : Bytes} {s : Parser}

def replacingCode (code : Bytes) : Exchange Halt Parser :=
  Exchange.replacing (fun s => { s with code }) fun _ _ => False

theorem readsOnly_of_allows {α : Type} {x : Proc Parser α} (h : (replacingCode code).Allows x x) :
    match x s with
    | .ok a s' => x { s with code } = .ok a { s' with code }
    | .error e s' => x { s with code } = .error e { s' with code } := by
  cases hx : x s with
  | ok a s' => exact ((h s).of_ok hx).2 trivial
  | error e s' => exact ((h s).of_error hx).2 id trivial

theorem replacingCode_fail {α : Type} (error : ParserError) (i j : Nat) :
    (replacingCode code).Allows (fail error i j : Proc Parser α) (fail error i j) :=
  fail_allows error i j (fun _ => rfl) fun _ => trivial

theorem replacingCode_keepsMemory : KeepsMemory (replacingCode code) :=
  ⟨fun _ => rfl, fun _ => rfl, fun _ => rfl, fun _ => rfl, fun _ _ _ => rfl, fun _ _ _ => rfl,
    fun _ _ _ => trivial, fun _ _ _ => trivial, replacingCode_fail⟩

theorem parseInt_congr : ReadsOnly (digitReads s.code (s.code.length - s.index) s.index 0)
    parseInt s := by
  intro code hlen h
  have hread := readDigits_congr hlen (show s.code.length ≤ s.index + (s.code.length - s.index) by
    omega) h
  unfold parseInt
  simp only [proc_modify_bind, proc_get_bind, hread]
  cases readDigits (s.code.drop s.index) s.index 0 with
  | error index => rfl
  | ok r => rfl

theorem parseIdent_congr : ReadsOnly
    (scanReads isIdentTail s.code (s.code.length - s.index) s.index ++
      List.range' s.index (advanceWhile isIdentTail s.code s.index - s.index)) parseIdent s := by
  intro code hlen h
  have hindex : advanceWhile isIdentTail code s.index = advanceWhile isIdentTail s.code s.index :=
    advanceWhile_congr hlen (by omega) fun i hi => h i (List.mem_append_left _ hi)
  generalize hend : advanceWhile isIdentTail s.code s.index = index at h hindex
  have hname : (code.drop s.index).take (index - s.index) =
      (s.code.drop s.index).take (index - s.index) := by
    refine List.ext_getElem? fun i => ?_
    simp only [List.getElem?_take, List.getElem?_drop]
    split_ifs with hi
    · exact h _ (List.mem_append_right _ (List.mem_range'_1.mpr (by omega)))
    · rfl
  unfold parseIdent
  simp only [proc_modify_bind, proc_get_bind, hindex, hend, hname]
  have happend := parserBufferAppend_allows (@replacingCode_keepsMemory code)
  exact readsOnly_of_allows ((happend _).bind fun _ => (happend _).bind fun _ =>
    Exchange.allows_modify (fun _ => rfl) fun _ => trivial)

/-- `parse_token` reads the code at no other offset. -/
theorem parseToken_congr : ReadsOnly (parseTokenReads s) parseToken s := by
  intro code hlen h
  have hskip : parserSkipIgnoreable { s with code } = { parserSkipIgnoreable s with code } := by
    have hindex := skipIgnoreable_congr hlen
      (show s.code.length ≤ s.index + (s.code.length - s.index) by omega)
      fun i hi => h i (List.mem_append_left _ hi)
    simp only [parserSkipIgnoreable, hlen, hindex]
  unfold parseTokenReads at h
  have h' := fun i hi => h i (List.mem_append_right _ hi)
  unfold parseToken
  simp only [proc_modify_bind, proc_get_bind, hskip]
  generalize hs₁ : parserSkipIgnoreable s = s₁ at h'
  have hcode : s.code = s₁.code := hs₁ ▸ rfl
  rw [hcode] at hlen h'
  by_cases hge : s₁.index ≥ s₁.code.length
  · obtain ⟨hnone', hnone⟩ := getElem?_of_length_le hlen hge
    simp only [hnone', hnone, proc_modify, hlen]
  · have hsym := List.getElem?_eq_getElem (Nat.lt_of_not_le hge)
    dsimp only at h'
    rw [if_neg hge, getD_of_getElem? hsym] at h'
    simp only [(h' _ List.mem_cons_self).trans hsym, hsym]
    generalize s₁.code[s₁.index] = sym at h'
    cases hchar : charType sym with
    | some type => simp only [proc_modify]
    | none =>
      simp only [hchar, Option.isSome_none, Bool.false_eq_true, if_false] at h'
      simp only
      split_ifs at h' ⊢
      · exact parseInt_congr code hlen fun i hi => h' i (.tail _ hi)
      · exact parseIdent_congr code hlen fun i hi => h' i (.tail _ hi)
      · exact @readsOnly_of_allows code s₁ _ (fail _ _ _) (replacingCode_fail _ _ _)

end

end ParserExample
