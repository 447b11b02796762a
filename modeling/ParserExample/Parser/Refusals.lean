import ParserExample.Parser.Digits
import ParserExample.Parser.Language

/-!
# What the lexer refuses

Where the parser on words runs out of lexemes, it is the lexer that fails: at the
one it does not get past, with an error that says what is wrong with it
(`parseProgram_refuses`).
-/

namespace ParserExample

open Library

/-- The error of the lexer at the lexeme that it does not get past. A number is
reported up to the digit with which it is too large. -/
inductive Refuses (l : Lexeme) : ParserError → Nat → Nat → Prop
  | illegalCharacter {sym : UInt8} (hl : l.word = .illegal sym) :
      Refuses l .illegalCharacter l.startIndex (l.startIndex + 1)
  | valueOutOfRange {digits : Bytes} {n : Nat} (hl : l.word = .int digits) (hn : n < digits.length)
      (hle : decimal (digits.take n) ≤ maxLiteral)
      (hlt : maxLiteral < decimal (digits.take (n + 1))) :
      Refuses l .valueOutOfRange l.startIndex (l.startIndex + n)

def Asked (names : List Bytes) (code : Bytes) (stop : Option Lexeme) (s' : Parser) : Prop :=
  ∃ s, Pending names code stop s [] ∧ parserPeekToken s = .error .returnFalse s'

/-- A function that fails where the parser on words runs out of lexemes has asked for
one more, or is out of memory. -/
def Asks {α β : Type} (names : List Bytes) (code : Bytes) (stop : Option Lexeme)
    (res : EStateM.Result Halt Parser α) (r : Except Failure β) : Prop :=
  ∀ s', res = .error .returnFalse s' → r = .error .stopped →
    s'.error = .outOfMemory ∨ Asked names code stop s'

section
variable {α α' β β' : Type} {names : List Bytes} {code : Bytes} {stop : Option Lexeme}
  {post : α → β → Parser → Prop} {x : Proc Parser α} {f : α → Proc Parser α'} {s : Parser}
  {r : Except Failure β} {g : β → Except Failure β'} {tokens rest : List Lexeme} {l : Lexeme}

theorem asks_ok {res : EStateM.Result Halt Parser α} (b : β) :
    Asks names code stop res (.ok b : Except Failure β) := fun _ _ h => by cases h

theorem asks_failed {res : EStateM.Result Halt Parser α} {error : ParserError} {i j : Nat} :
    Asks names code stop res (.error (.failed error i j) : Except Failure β) :=
  fun _ _ h => by cases h

theorem asks_fuel {res : EStateM.Result Halt Parser α} :
    Asks names code stop res (.error .fuel : Except Failure β) := fun _ _ h => by cases h

theorem Asks.bind (hx : Asks names code stop (x s) r) (h : Ends stop post (x s) r)
    (hf : ∀ a b s', post a b s' → Asks names code stop (f a s') (g b)) :
    Asks names code stop ((x >>= f) s) (r >>= g) := by
  intro s' hs' hr
  generalize hres : x s = res at hx h
  cases h with
  | ok hp =>
    rw [proc_bind_of_ok hres] at hs'
    exact hf _ _ _ hp s' hs' hr
  | outOfMemory hs he =>
    rw [proc_bind_of_error hres] at hs'
    cases hs'
    exact .inl he
  | failed => cases hr
  | stopped =>
    rw [proc_bind_of_error hres] at hs'
    exact hx s' (by cases hs'; rfl) rfl
  | overrun =>
    rw [proc_bind_of_error hres] at hs'
    cases hs'
  | fuel => cases hr

theorem asks_seq {b : β} {r' : Except Failure β'} (h : Ends stop post (x s) (.ok b))
    (hf : ∀ a s', post a b s' → Asks names code stop (f a s') r') :
    Asks names code stop ((x >>= f) s) r' := by
  intro s' hs' hr
  generalize hres : x s = res at h
  cases h with
  | ok hp =>
    rw [proc_bind_of_ok hres] at hs'
    exact hf _ _ hp s' hs' hr
  | outOfMemory hs he =>
    rw [proc_bind_of_error hres] at hs'
    cases hs'
    exact .inl he

theorem parserPeekToken_asks (h : Sees names code stop s tokens) :
    Asks names code stop (parserPeekToken s) (next tokens) := by
  intro s' hs' hr
  cases h with
  | ready h => cases hr
  | @pending tokens h =>
    cases tokens with
    | nil => exact .inr ⟨s, h, hs'⟩
    | cons l rest => cases hr

theorem parseSigns_asks {fuel : Nat} {inverse : Bool} (h : Sees names code stop s tokens) :
    Asks names code stop (parseSigns fuel inverse s) (readSigns fuel inverse tokens) := by
  induction fuel generalizing s tokens inverse with
  | zero => exact asks_fuel
  | succ fuel ih =>
    rw [parseSigns, readSigns]
    refine (parserPeekToken_asks h).bind (parserPeekToken_ends h)
      fun _ l s₁ hpeek => ?_
    obtain ⟨rest, rfl, hr, -⟩ := hpeek
    have htype := hr.shown.type
    simp only [proc_get_bind]
    have hnext (hl : l.word.isLast = false) {inverse' : Bool} :
        Asks names code stop ((parserConsumeToken >>= fun _ => parseSigns fuel inverse') s₁)
          (readSigns fuel inverse' rest) := by
      obtain ⟨s₂, hc, hp, -⟩ := hr.consume hl
      rw [proc_bind_of_ok hc]
      exact ih (.pending hp)
    cases hw : l.word <;> rw [hw] at htype <;> simp [Word.tokenType] at htype <;> rw [← htype]
    case plus => exact hnext (by rw [hw]; rfl)
    case minus => exact hnext (by rw [hw]; rfl)
    all_goals exact asks_ok _

section
variable {addSub : Proc Parser AstNode} {raddSub : List Lexeme → Read}
  (ih : Simulates names code stop (Looks names code stop) addSub raddSub)
  (asks : ∀ s tokens, Sees names code stop s tokens →
    Asks names code stop (addSub s) (raddSub tokens))
include ih asks

theorem parseParen_asks (h : Ready names code stop s l rest) (hl : l.word = .parenOpen) :
    Asks names code stop (parseParen addSub s) (readParen raddSub l.startIndex rest) := by
  have htype : s.token.type = .parenOpen := by
    simpa [hl, Word.tokenType, eq_comm] using h.shown.type
  unfold parseParen readParen
  rw [proc_bind_of_ok (parserPeekToken_eq h)]
  simp only [proc_get_bind, htype, ne_eq, not_true_eq_false, if_false]
  obtain ⟨s₂, hc, hp, -⟩ := h.consume (by rw [hl]; rfl)
  rw [proc_bind_of_ok hc]
  refine (asks _ _ (.pending hp)).bind (ih _ _ (.pending hp)) ?_
  rintro node ⟨t, _⟩ s₁ ⟨⟨close, rest', rfl, hr⟩, hb⟩
  simp only [next, ok_bind]
  split
  · exact asks_failed
  · exact asks_ok _

theorem parseAtom_asks (h : Sees names code stop s tokens) :
    Asks names code stop (parseAtom addSub s) (readAtom names raddSub tokens) := by
  unfold parseAtom readAtom
  refine (parserPeekToken_asks h).bind (parserPeekToken_ends h)
    fun _ l s₁ hpeek => ?_
  obtain ⟨rest, rfl, hr, -⟩ := hpeek
  have htype := hr.shown.type
  simp only [proc_get_bind, List.tail_cons]
  cases hw : l.word <;> rw [hw] at htype <;> simp [Word.tokenType] at htype <;> rw [← htype]
  case ident name =>
    dsimp only
    split
    · exact asks_failed
    · exact asks_ok _
  case int digits => exact asks_ok _
  case parenOpen => exact parseParen_asks ih asks hr hw
  all_goals exact asks_failed

theorem parseSigned_asks {fuel : Nat} (h : Sees names code stop s tokens) :
    Asks names code stop (parseSigned addSub fuel s) (readSigned names raddSub fuel tokens) := by
  unfold parseSigned readSigned
  refine (parserPeekToken_asks h).bind (parserPeekToken_ends h)
    fun _ l s₁ hpeek => ?_
  obtain ⟨rest, rfl, hr, -⟩ := hpeek
  simp only [proc_get_bind]
  refine (parseSigns_asks (.ready hr)).bind (parseSigns_ends (.ready hr)) ?_
  rintro inverse ⟨_, rest₂⟩ s₂ ⟨rfl, hs₂, hast₂⟩
  have hchild : ∀ node read s₃, Parsed (Sees names code stop) s₂.ast.nodes node read s₃ →
      ∀ inverse, ∀ res : EStateM.Result Halt Parser AstNode, Asks names code stop res (do
        let t ← applySigns l.startIndex inverse read.1
        return (t, read.2)) := by
    intro _ read _ _ inverse res
    rcases applySigns_cases l.startIndex inverse read.1 with ⟨-, -, j, happ⟩ | ⟨-, t', happ, -⟩
    · rw [happ]
      exact asks_failed
    · rw [happ]
      exact asks_ok _
  cases inverse with
  | false =>
    exact (parseAtom_asks ih asks hs₂).bind (parseAtom_simulates ih s₂ rest₂ hs₂)
      fun node read s₃ h => hchild node read s₃ h false _
  | true =>
    exact (parseAtom_asks ih asks hs₂).bind (parseAtom_simulates ih s₂ rest₂ hs₂)
      fun node read s₃ h => hchild node read s₃ h true _

end

theorem parseLoop_asks {op : TokenType → Option BinaryType} {wop : Word → Option BinaryType}
    {operand : Proc Parser AstNode} {roperand : List Lexeme → Read} {count : Nat}
    {node : AstNode} {left : RangedExpr} (hop : SameOps op wop)
    (ih : Simulates names code stop (Sees names code stop) operand roperand)
    (asks : ∀ s tokens, Sees names code stop s tokens →
      Asks names code stop (operand s) (roperand tokens))
    (h : Sees names code stop s tokens) :
    Asks names code stop (parseLoop op operand count node s)
      (readLoop wop roperand count left tokens) := by
  induction count generalizing s tokens node left with
  | zero => exact asks_fuel
  | succ count ihc =>
    rw [parseLoop, readLoop]
    refine (parserPeekToken_asks h).bind (parserPeekToken_ends h)
      fun _ l s₁ hpeek => ?_
    obtain ⟨rest, rfl, hr, -⟩ := hpeek
    obtain ⟨hwop, hlast⟩ := hop _ _ hr.shown.type
    simp only [proc_get_bind, hwop]
    cases htype : op s₁.token.type with
    | none => exact asks_ok _
    | some type =>
      dsimp only
      refine asks_seq (parserAppendNode_ends node s₁) fun _ s₂ happend => ?_
      obtain ⟨ast, heap, hs₂, -⟩ := happend
      obtain ⟨s₃, hc, hp, -⟩ := (hs₂ ▸ hr.withAst ast heap).consume (hlast (by simp [htype]))
      rw [proc_bind_of_ok hc, parserRootNodeIndex_bind]
      refine (asks s₃ rest (.pending hp)).bind (ih s₃ rest (.pending hp)) ?_
      rintro right ⟨t, rest'⟩ s₄ ⟨hs₄, hb'⟩
      have hzero : right.data = .leaf (.int 0) ↔ t.erase = Expr.int 0 := by
        rw [hb'.node, rootNode_data_int]
      simp only [hzero]
      split
      · exact asks_failed
      · refine asks_seq (parserAppendNode_ends right s₄) fun _ s₅ happend => ?_
        obtain ⟨ast', heap', rfl, -⟩ := happend
        rw [parserRootNodeIndex_bind]
        exact ihc (hs₄.withAst ast' heap')

theorem parseMulDiv_asks {addSub : Proc Parser AstNode} {raddSub : List Lexeme → Read} {fuel : Nat}
    (ih : Simulates names code stop (Looks names code stop) addSub raddSub)
    (asks : ∀ s tokens, Sees names code stop s tokens →
      Asks names code stop (addSub s) (raddSub tokens)) (h : Sees names code stop s tokens) :
    Asks names code stop (parseMulDiv addSub fuel s) (readMulDiv names raddSub fuel tokens) := by
  unfold parseMulDiv readMulDiv
  refine (parseSigned_asks ih asks h).bind (parseSigned_simulates ih s tokens h) ?_
  rintro node ⟨t, rest⟩ s₁ ⟨hs₁, -⟩
  rw [parseMulDivLoop_eq]
  exact parseLoop_asks sameOps_mulDiv (parseSigned_simulates ih)
    (fun s tokens => parseSigned_asks ih asks) hs₁

theorem parseAddSub_asks (fuel : Nat) (h : Sees names code stop s tokens) :
    Asks names code stop (parseAddSub fuel s) (readAddSub names fuel tokens) := by
  induction fuel generalizing s tokens with
  | zero => exact asks_fuel
  | succ fuel ih =>
    have hsim := parseAddSub_simulates names code stop fuel
    have hmulDiv := fun s tokens => @parseMulDiv_asks names code stop s tokens _ _ (fuel + 1) hsim
      fun s tokens => ih
    rw [parseAddSub, readAddSub]
    refine (hmulDiv s tokens h).bind (parseMulDiv_simulates hsim s tokens h) ?_
    rintro node ⟨t, rest⟩ s₁ ⟨hs₁, -⟩
    rw [parseAddSubLoop_eq]
    exact parseLoop_asks sameOps_addSub (parseMulDiv_simulates hsim).sees hmulDiv hs₁.sees

theorem parseProgram_asks (heap : Heap) (code : Bytes) (names : List Bytes) :
    Asks names code (obstacle code) (parseProgram (Parser.init heap code names))
      (readProgram names (code.length + 2) (legible code)) := by
  have hinit : Pending names code (obstacle code) (Parser.init heap code names) (legible code) :=
    ⟨⟨rfl, rfl, Buffer.inv_init, Nat.zero_le _⟩, rfl, rfl⟩
  unfold parseProgram parseExpr readProgram
  simp only [proc_get_bind, bind_assoc]
  refine (parseAddSub_asks _ (.pending hinit)).bind
    (parseAddSub_simulates names code _ _ _ _ (.pending hinit)) ?_
  rintro node ⟨t, rest⟩ s₁ ⟨⟨l, rest', rfl, hr⟩, -⟩
  simp only [next, ok_bind]
  split
  · exact asks_failed
  · exact asks_ok _

-- ---------------------------------------------------------------------------
-- The lexeme that is refused
-- ---------------------------------------------------------------------------

theorem parseToken_refuses {s' : Parser} {capacity : Nat}
    (hl : firstLexeme s.index (s.code.drop s.index) = l)
    (hr : l.word.isReadable capacity = false) (hname : ∀ name, l.word ≠ .ident name)
    (h : parseToken s = .error .returnFalse s') :
    ∃ i j, s'.errorInfo = .code i j ∧ Refuses l s'.error i j := by
  have hindex : (parserSkipIgnoreable s).index = s.index + ignorable false (s.code.drop s.index) :=
    skipIgnoreable_eq (Nat.le_refl _)
  rw [firstLexeme, List.drop_drop, ← hindex] at hl
  have hdigits := digitsExact s
  have htoken := h
  unfold parseToken at h
  simp only [proc_modify_bind, proc_get_bind] at h
  generalize hs₁ : parserSkipIgnoreable s = s₁ at hl h hdigits
  have hcode : s.code = s₁.code := hs₁ ▸ rfl
  rw [hcode] at hl hdigits
  cases hd : s₁.code.drop s₁.index with
  | nil =>
    rw [hd] at hl
    subst hl
    cases hr
  | cons sym rest =>
    have hsym : s₁.code[s₁.index]? = some sym := by
      rw [← List.head?_drop, hd, List.head?_cons]
    cases htype : charType sym with
    | some type =>
      obtain ⟨w, hw, -, -, hread, -⟩ := longestMatch_of_charType rest htype
      rw [hd, hw] at hl
      subst hl
      rw [(hread capacity).1] at hr
      cases hr
    | none =>
      rw [hd, longestMatch_of_charType_none htype, ← hd] at hl
      split_ifs at hl with hdigit hident
      · subst hl
        have hexceeds : maxLiteral < decimal ((s₁.code.drop s₁.index).takeWhile isDigit) :=
          Nat.lt_of_not_le (of_decide_eq_false hr)
        obtain ⟨n, hn, hle, hlt, s'', htoken', -, herror, hinfo⟩ := hdigits.exceeds hexceeds
        obtain rfl : s' = s'' := by
          rw [htoken] at htoken'
          cases htoken'
          rfl
        exact ⟨_, _, hinfo, herror ▸ .valueOutOfRange rfl hn hle hlt⟩
      · subst hl
        exact absurd rfl (hname _)
      · subst hl
        simp only [hsym, htype, Bool.false_eq_true, if_false, hdigit, hident] at h
        cases h
        exact ⟨_, _, rfl, .illegalCharacter rfl⟩

theorem Asked.refuses {s' : Parser} (h : Asked names code (some l) s')
    (hname : ∀ name, l.word ≠ .ident name) :
    ∃ i j, s'.errorInfo = .code i j ∧ Refuses l s'.error i j := by
  obtain ⟨s, hs, htoken⟩ := h
  simp only [parserPeekToken, proc_get_bind, hs.state] at htoken
  rcases ahead_cases hs.ahead with ⟨-, rest, hrest, -⟩ | ⟨hr, -, hstop⟩
  · cases hrest
  · obtain rfl := Option.some.inj hstop
    exact parseToken_refuses rfl hr hname htoken

end

end ParserExample
