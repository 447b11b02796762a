import ParserExample.Parser.Contract
import ParserExample.Parser.Exchange
import ParserExample.Parser.Language

/-!
# What the parser has not read

The lexer looks at one byte behind the bytes it has taken, and the parser at one
token behind the tokens it has consumed. So what `parse_slice` returns depends on
no byte behind that, whether it accepts the code or reports an error.
-/

namespace ParserExample

open Library

def unreadCode (code : Bytes) : Exchange Halt Parser where
  swap s := { s with code }
  unread s := code.take (s.index + 1) = s.code.take (s.index + 1)
  after s s' := s'.code = s.code ∧ s.index ≤ s'.index
  lost e _ := e = .fault .fuel
  refl s := ⟨rfl, le_rfl⟩
  trans h h' := ⟨h'.1.trans h.1, h.2.trans h'.2⟩
  unread_of_after {s s'} h hu := by
    have hle : s.index + 1 ≤ s'.index + 1 := Nat.succ_le_succ h.2
    have htake := congrArg (List.take (s.index + 1)) hu
    rwa [List.take_take, List.take_take, min_eq_left hle, h.1] at htake

theorem unread_iff {code : Bytes} {s : Parser} :
    (unreadCode code).unread s ↔ code.take (s.index + 1) = s.code.take (s.index + 1) := Iff.rfl

-- ---------------------------------------------------------------------------
-- Scans
-- ---------------------------------------------------------------------------

section
variable {code code' : Bytes} {n index : Nat} {sym : UInt8}

theorem exists_cons_of_take (h : code'.take (n + 1) = (sym :: code).take (n + 1)) :
    ∃ rest, code' = sym :: rest ∧ rest.take n = code.take n := by
  cases code' with
  | nil => simp at h
  | cons sym' rest =>
    obtain ⟨rfl, hrest⟩ := List.cons_eq_cons.mp (by simpa using h)
    exact ⟨rest, rfl, hrest⟩

theorem eq_nil_of_take (h : code'.take (n + 1) = ([] : Bytes).take (n + 1)) : code' = [] := by
  cases code' with
  | nil => rfl
  | cons sym rest => simp at h

theorem takeWhile_of_take {p : UInt8 → Bool} (hn : (code.takeWhile p).length ≤ n)
    (h : code'.take (n + 1) = code.take (n + 1)) : code'.takeWhile p = code.takeWhile p := by
  induction code generalizing code' n with
  | nil => rw [eq_nil_of_take h]
  | cons sym code ih =>
    obtain ⟨rest, rfl, hrest⟩ := exists_cons_of_take h
    by_cases hp : p sym = true
    · rw [List.takeWhile_cons_of_pos hp] at hn ⊢
      obtain ⟨n, rfl⟩ : ∃ m, n = m + 1 := ⟨n - 1, by rw [List.length_cons] at hn; omega⟩
      rw [List.takeWhile_cons_of_pos hp, ih (by simpa using hn) hrest]
    · rw [List.takeWhile_cons_of_neg hp, List.takeWhile_cons_of_neg hp]

theorem ignorable_of_take {comment : Bool} (hn : ignorable comment code ≤ n)
    (h : code'.take (n + 1) = code.take (n + 1)) :
    ignorable comment code' = ignorable comment code := by
  induction code generalizing code' n comment with
  | nil => rw [eq_nil_of_take h]
  | cons sym code ih =>
    obtain ⟨rest, rfl, hrest⟩ := exists_cons_of_take h
    have hnext {comment : Bool} (hn : ignorable comment code + 1 ≤ n) :
        ignorable comment rest = ignorable comment code := by
      obtain ⟨n, rfl⟩ : ∃ m, n = m + 1 := ⟨n - 1, by omega⟩
      exact ih (by omega) hrest
    cases comment with
    | true =>
      rw [ignorable] at hn ⊢
      rw [ignorable, hnext hn]
    | false =>
      rw [ignorable] at hn ⊢
      rw [ignorable]
      split_ifs at hn ⊢
      · rw [hnext hn]
      · rw [hnext hn]
      · rfl

def digitsEnd : Except Nat (Long × Nat) → Nat
  | .ok (_, index) => index
  | .error index => index

theorem le_digitsEnd (value : Long) : index ≤ digitsEnd (readDigits code index value) := by
  have h := @readDigits_index code index value
  generalize readDigits code index value = r at h
  rcases r with i | ⟨value, i⟩
  · exact h.1
  · rw [digitsEnd, h]
    exact Nat.le_add_right _ _

theorem readDigits_of_take {value : Long}
    (hn : digitsEnd (readDigits code index value) ≤ index + n)
    (h : code'.take (n + 1) = code.take (n + 1)) :
    readDigits code' index value = readDigits code index value := by
  induction code generalizing code' n index value with
  | nil => rw [eq_nil_of_take h]
  | cons sym code ih =>
    obtain ⟨rest, rfl, hrest⟩ := exists_cons_of_take h
    rw [readDigits] at hn ⊢
    rw [readDigits]
    split_ifs at hn ⊢ with hdigit
    · rfl
    · dsimp only at hn ⊢
      split_ifs at hn ⊢
      · rfl
      · have hle := @le_digitsEnd code (index + 1) (value * 10 + Int64.ofNat (sym - byte '0').toNat)
        obtain ⟨n, rfl⟩ : ∃ m, n = m + 1 := ⟨n - 1, by omega⟩
        exact ih (by omega) hrest

theorem drop_take_of_take {i : Nat} (hi : i ≤ n) (h : code'.take (n + 1) = code.take (n + 1)) :
    (code'.drop i).take (n - i + 1) = (code.drop i).take (n - i + 1) := by
  have hdrop := congrArg (List.drop i) h
  rwa [List.drop_take, List.drop_take, show n + 1 - i = n - i + 1 by omega] at hdrop

theorem getElem?_of_take {i : Nat} (hi : i ≤ n) (h : code'.take (n + 1) = code.take (n + 1)) :
    code'[i]? = code[i]? := by
  have hget := congrArg (·[i]?) h
  simpa [List.getElem?_take, Nat.lt_succ_of_le hi] using hget

end

-- ---------------------------------------------------------------------------
-- The lexer
-- ---------------------------------------------------------------------------

section
variable {α : Type} {code : Bytes} {s : Parser} {addSub addSub' : Proc Parser AstNode}

theorem unread_fail {α : Type} (error : ParserError) (i j : Nat) :
    (unreadCode code).Allows (fail error i j : Proc Parser α) (fail error i j) :=
  fail_allows error i j (fun _ => rfl) fun _ => ⟨rfl, le_rfl⟩

theorem unread_keepsMemory : KeepsMemory (unreadCode code) :=
  ⟨fun _ => rfl, fun _ => rfl, fun _ => rfl, fun _ => rfl, fun _ _ _ => rfl, fun _ _ _ => rfl,
    fun _ _ _ => ⟨rfl, le_rfl⟩, fun _ _ _ => ⟨rfl, le_rfl⟩, unread_fail⟩

/-- The lexer reads a number up to the first byte that is no digit, or to the
digit that there is no room for. -/
theorem unread_parseInt : (unreadCode code).Allows parseInt parseInt := by
  intro s
  unfold parseInt
  simp only [Exchange.AllowsAt, proc_modify_bind, proc_get_bind]
  have hle := @le_digitsEnd (s.code.drop s.index) s.index 0
  have hsame (hu : code.take (digitsEnd (readDigits (s.code.drop s.index) s.index 0) + 1) =
      s.code.take (digitsEnd (readDigits (s.code.drop s.index) s.index 0) + 1)) :
      readDigits (code.drop s.index) s.index 0 = readDigits (s.code.drop s.index) s.index 0 :=
    readDigits_of_take (by omega) (drop_take_of_take hle hu)
  generalize readDigits (s.code.drop s.index) s.index 0 = r at hle hsame
  rcases r with index | ⟨value, index⟩
  · refine ⟨⟨rfl, hle⟩, fun _ hu => ?_⟩
    have hr := hsame hu
    simp only [unreadCode, hr]
    rfl
  · refine ⟨⟨rfl, hle⟩, fun hu => ?_⟩
    have hr := hsame hu
    simp only [unreadCode, hr]
    rfl

theorem unread_parseIdent : (unreadCode code).Allows parseIdent parseIdent := by
  intro s
  let index := advanceWhile isIdentTail s.code s.index
  let s₁ : Parser :=
    { s with
      index
      token := { s.token with startIndex := s.index, endIndex := index }
      buffer := bufferClear s.buffer }
  let name := (s.code.drop s.index).take (index - s.index)
  have hle : s.index ≤ index := Nat.le_add_right _ _
  have hrest : (unreadCode code).Allows
      (do
        parserBufferAppend (bufferAppend · · name)
        parserBufferAppend (bufferAppendByte · · 0)
        modify fun p => { p with state := .tokenReady, token := { p.token with type := .ident } })
      (do
        parserBufferAppend (bufferAppend · · name)
        parserBufferAppend (bufferAppendByte · · 0)
        modify fun p => { p with state := .tokenReady, token := { p.token with type := .ident } }) :=
    (parserBufferAppend_allows unread_keepsMemory _).bind fun _ =>
      (parserBufferAppend_allows unread_keepsMemory _).bind fun _ =>
        Exchange.allows_modify (fun _ => rfl) fun _ => ⟨rfl, le_rfl⟩
  refine (hrest s₁).of_steps rfl ⟨rfl, hle⟩ fun hu => ?_
  have htail : (code.drop s.index).takeWhile isIdentTail =
      (s.code.drop s.index).takeWhile isIdentTail :=
    takeWhile_of_take (by simp [index, advanceWhile]) (drop_take_of_take hle hu)
  have hname : (code.drop s.index).take (index - s.index) = name := by
    have htake := congrArg (List.take (index - s.index)) (drop_take_of_take hle hu)
    rwa [List.take_take, List.take_take, min_eq_left (Nat.le_succ _)] at htake
  have hindex : advanceWhile isIdentTail code s.index = index := by
    simp only [index, advanceWhile, htail]
  simp only [parseIdent, proc_modify_bind, proc_get_bind, unreadCode, hindex, hname]
  rfl

/-- `parseToken` at the first byte behind the white space. -/
def tokenAt : Option UInt8 → Proc Parser Unit
  | none => modify fun p =>
    let size := p.code.length
    { p with
      state := .tokenReady
      token := { p.token with type := .eof, startIndex := size, endIndex := size } }
  | some sym =>
    match charType sym with
    | some type => modify fun p =>
      { p with
        state := .tokenReady
        index := p.index + 1
        token := { p.token with type, startIndex := p.index, endIndex := p.index + 1 } }
    | none =>
      if isDigit sym then parseInt
      else if isIdentHead sym then parseIdent
      else do
        let p ← get
        fail .illegalCharacter p.index (p.index + 1)

theorem parseToken_eq (s : Parser) :
    parseToken s = tokenAt (parserSkipIgnoreable s).code[(parserSkipIgnoreable s).index]?
      (parserSkipIgnoreable s) := by
  unfold parseToken tokenAt
  simp only [proc_modify_bind, proc_get_bind]
  cases (parserSkipIgnoreable s).code[(parserSkipIgnoreable s).index]? with
  | none => rfl
  | some sym =>
    dsimp only
    cases charType sym with
    | some type => rfl
    | none =>
      dsimp only
      split_ifs <;> rfl

theorem unread_tokenAt : (unreadCode code).AllowsAt (tokenAt s.code[s.index]?)
    (tokenAt s.code[s.index]?) s := by
  cases hsym : s.code[s.index]? with
  | none =>
    -- at its end the code is read up to its end
    have hlen : s.code.length ≤ s.index := by simpa using hsym
    refine ⟨⟨rfl, le_rfl⟩, fun hu => ?_⟩
    have htake : code.take (s.index + 1) = s.code := by
      rw [show code.take (s.index + 1) = s.code.take (s.index + 1) from hu,
        List.take_of_length_le (by omega)]
    have hcode : code = s.code := by
      rw [← htake, eq_comm, List.take_eq_self_iff]
      have := congrArg List.length htake
      rw [List.length_take] at this
      omega
    simp only [tokenAt, unreadCode, proc_modify, hcode]
  | some sym =>
    unfold tokenAt
    dsimp only
    cases charType sym with
    | some type => exact ⟨⟨rfl, Nat.le_succ _⟩, fun _ => rfl⟩
    | none =>
      dsimp only
      split_ifs
      · exact unread_parseInt s
      · exact unread_parseIdent s
      · exact Exchange.allows_get_bind (fun _ => rfl) (fun p => unread_fail _ _ _) s

/-- A token is read up to the byte that it ends in front of. -/
theorem unread_parseToken : (unreadCode code).Allows parseToken parseToken := by
  intro s
  have hskip := @skipIgnoreable_eq s.code _ s.index le_rfl
  have hle : s.index ≤ (parserSkipIgnoreable s).index := by
    show s.index ≤ skipIgnoreable _ _ _
    omega
  refine (unread_tokenAt (s := parserSkipIgnoreable s)).of_steps (parseToken_eq s) ⟨rfl, hle⟩
    fun hu => ?_
  have hgap : ignorable false (code.drop s.index) = ignorable false (s.code.drop s.index) := by
    refine ignorable_of_take ?_ (drop_take_of_take hle hu)
    show _ ≤ skipIgnoreable _ _ _ - _
    omega
  have hsame : parserSkipIgnoreable ((unreadCode code).swap s) =
      (unreadCode code).swap (parserSkipIgnoreable s) := by
    simp only [parserSkipIgnoreable, unreadCode, skipIgnoreable_eq le_rfl, hgap]
  have hsym : code[(parserSkipIgnoreable s).index]? = s.code[(parserSkipIgnoreable s).index]? :=
    getElem?_of_take le_rfl hu
  rw [parseToken_eq, hsame]
  exact congrArg (tokenAt · _) hsym

theorem unread_allowedBelow : AllowedBelow (unreadCode code) where
  state _ := rfl
  token _ := rfl
  ast _ := rfl
  setState _ _ := rfl
  afterState _ _ := ⟨rfl, le_rfl⟩
  fail := unread_fail
  parseToken := unread_parseToken
  appendNode := parserAppendNode_allows unread_keepsMemory
  findVariable token := by
    refine Exchange.allows_get_bind (fun _ => rfl) fun p => ?_
    dsimp only
    split_ifs
    · exact unread_fail _ _ _
    · exact Exchange.allows_pure _

theorem unread_parseWith {m n : Nat} (hmn : m ≤ n) :
    (unreadCode code).Allows (parseWith m) (parseWith n) :=
  parseWith_allows unread_allowedBelow (.inr ⟨hmn, fun _ => rfl⟩)

end

-- ---------------------------------------------------------------------------
-- The parser
-- ---------------------------------------------------------------------------

section
variable {heap : Heap} {code code' : Bytes} {names : List Bytes} {p : Parser}

theorem parseProgram_ne_fuel (hn : NamesValid names) (q : Parser) :
    parseProgram (Parser.init heap code names) ≠ .error (.fault .fuel) q := by
  intro h
  have hslice : parseSlice heap code names = .error .fuel := by
    rw [parseSlice_of_names_valid hn, h]
  rcases parseSlice_cases heap code hn with ⟨p, t, hp, -⟩ | ⟨p, hp, -⟩ | ⟨hp, -⟩ <;>
    rw [hslice] at hp <;> cases hp

theorem parseWith_eq (hn : NamesValid names) {n : Nat} (h : code.length + 2 ≤ n) :
    parseWith n (Parser.init heap code names) = parseProgram (Parser.init heap code names) := by
  have hallows : (unreadCode code).Allows (parseWith (code.length + 2)) (parseWith n) :=
    unread_parseWith h
  have hrun := hallows (Parser.init heap code names)
  have hself {q : Parser} (hq : q.code = code) : (unreadCode code).swap q = q := by
    subst hq
    rfl
  have hinit := hself (q := Parser.init heap code names) rfl
  cases hr : parseProgram (Parser.init heap code names) with
  | ok u q =>
    obtain ⟨⟨hcode, -⟩, hsame⟩ := hrun.of_ok hr
    have hq := hsame (by rw [unread_iff, hcode]; rfl)
    rwa [hinit, hself hcode] at hq
  | error e q =>
    obtain ⟨⟨hcode, -⟩, hsame⟩ := hrun.of_error hr
    have hlost : ¬ (unreadCode code).lost e q := by
      rintro rfl
      exact parseProgram_ne_fuel hn q hr
    have hq := hsame hlost (by rw [unread_iff, hcode]; rfl)
    rwa [hinit, hself hcode] at hq

/-- What `parse_slice` returns depends on no byte behind the one that the lexer
has stopped in front of: with anything else behind it the parser returns the same
error, or the same tree, at the same place. -/
theorem parseSlice_unread (h : parseSlice heap code names = .ok p)
    (hread : code'.take (p.index + 1) = code.take (p.index + 1)) :
    parseSlice heap code' names = .ok { p with code := code' } := by
  by_cases hn : NamesValid names
  · rw [parseSlice_of_names_valid hn] at h ⊢
    -- both runs with the fuel of the longer code
    have hallows : (unreadCode code').Allows (parseWith (code.length + 2))
        (parseWith (max (code.length + 2) (code'.length + 2))) :=
      unread_parseWith (le_max_left _ _)
    have hrun := hallows (Parser.init heap code names)
    have hsame : parseWith (max (code.length + 2) (code'.length + 2))
        (Parser.init heap code' names) = parseProgram (Parser.init heap code' names) :=
      parseWith_eq hn (le_max_right _ _)
    rw [← hsame]
    cases hr : parseProgram (Parser.init heap code names) with
    | ok u q =>
      obtain rfl : q = p := by simpa only [hr, Except.ok.injEq] using h
      obtain ⟨⟨hcode, -⟩, hswap⟩ := hrun.of_ok hr
      have hq := hswap (by rw [unread_iff, hcode]; exact hread)
      rw [show Parser.init heap code' names = (unreadCode code').swap
        (Parser.init heap code names) from rfl, hq]
      rfl
    | error e q =>
      cases e with
      | fault f => simp only [hr, reduceCtorEq] at h
      | returnFalse =>
        obtain rfl : q = p := by simpa only [hr, Except.ok.injEq] using h
        obtain ⟨⟨hcode, -⟩, hswap⟩ := hrun.of_error hr
        have hq := hswap nofun (by rw [unread_iff, hcode]; exact hread)
        rw [show Parser.init heap code' names = (unreadCode code').swap
          (Parser.init heap code names) from rfl, hq]
        rfl
  · rw [← argsError_eq_none_iff, ← ne_eq, Option.ne_none_iff_exists'] at hn
    obtain ⟨⟨error, argIndex⟩, hargs⟩ := hn
    simp only [parseSlice, hargs, Except.ok.injEq] at h ⊢
    rw [← h]
    rfl

/-- `1 + ) * 2` is rejected at the parenthesis, whatever follows. -/
theorem parseSlice_unread_sum :
    ∃ p, parseSlice Heap.unlimited (ascii "1 + ) * 2") [] = .ok p ∧ p.error = .illegalToken ∧
      ∀ rest, parseSlice Heap.unlimited (ascii "1 + ) " ++ rest) [] =
        .ok { p with code := ascii "1 + ) " ++ rest } := by
  obtain ⟨p, hp, herr⟩ := exists_of_map_eq_ok (b := (ParserError.illegalToken, 5))
    (show (parseSlice Heap.unlimited (ascii "1 + ) * 2") []).map (fun p => (p.error, p.index)) = _
      by decide +kernel)
  obtain ⟨herror, hindex⟩ := Prod.mk.inj herr
  refine ⟨p, hp, herror, fun rest => parseSlice_unread hp ?_⟩
  rw [hindex]
  rfl

end

end ParserExample
