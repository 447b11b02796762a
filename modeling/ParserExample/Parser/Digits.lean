import ParserExample.Library.Proc
import ParserExample.Tokens

/-!
# The digit loop

The digit loop of `parse_token` computes the number that the digits spell without
overflow, and stops in front of the first digit that the number has no room for.
-/

namespace ParserExample

open Library

-- ---------------------------------------------------------------------------
-- The digit loop
-- ---------------------------------------------------------------------------

theorem isDigit_iff {sym : UInt8} : isDigit sym = true ↔ 48 ≤ sym.toNat ∧ sym.toNat ≤ 57 := by
  simp [isDigit, byte, UInt8.le_iff_toNat_le]

theorem digitValue_lt {sym : UInt8} (h : isDigit sym = true) : digitValue sym < 10 := by
  have hd := isDigit_iff.mp h
  have hzero : (byte '0').toNat = 48 := by decide
  rw [digitValue, UInt8.toNat_sub_of_le _ _ (UInt8.le_iff_toNat_le.mpr (hzero ▸ hd.1)), hzero]
  omega

/-- The check before a digit is added: it holds exactly when there is no room. -/
theorem noRoom_iff {value digit : Nat} (hv : value ≤ maxLiteral) (hd : digit < 10) :
    Int64.ofNat value > (longMax - Int64.ofNat digit) / 10 ↔ maxLiteral < value * 10 + digit := by
  have hroom : ∀ digit < 10,
      ((longMax - Int64.ofNat digit) / 10).toInt = (2 ^ 63 - 1 - (digit : Int)) / 10 := by decide
  have hi : (Int64.ofNat value).toInt = value := by
    rw [Int64.toInt_ofNat_of_lt (by simp only [maxLiteral] at hv; omega)]
  rw [gt_iff_lt, Int64.lt_iff_toInt_lt, hroom digit hd, hi]
  unfold maxLiteral at *
  omega

theorem decimal_le_append (front back : Bytes) : decimal front ≤ decimal (front ++ back) := by
  rw [decimal, decimal, List.reverse_append, List.map_append, Nat.ofDigits_append]
  exact le_add_left (Nat.le_mul_of_pos_left _ (by positivity))

theorem readDigits_cons {done rest : Bytes} {sym : UInt8} {index : Nat}
    (hv : decimal done ≤ maxLiteral) (hs : isDigit sym = true) :
    readDigits (sym :: rest) index (Int64.ofNat (decimal done)) =
      if maxLiteral < decimal (done ++ [sym]) then .error index
      else readDigits rest (index + 1) (Int64.ofNat (decimal (done ++ [sym]))) := by
  have hroom := noRoom_iff hv (digitValue_lt hs)
  have hvalue : Int64.ofNat (decimal done) * 10 + Int64.ofNat (digitValue sym) =
      Int64.ofNat (decimal (done ++ [sym])) := by
    rw [decimal_concat, Int64.ofNat_add, Int64.ofNat_mul]
    rfl
  rw [← decimal_concat] at hroom
  rw [readDigits, ← digitValue]
  simp only [hs, hvalue, hroom, Bool.not_true, Bool.false_eq_true, if_false]

theorem readDigits_eq {rest done : Bytes} {index : Nat} (hv : decimal done ≤ maxLiteral) :
    let digits := rest.takeWhile isDigit
    if decimal (done ++ digits) ≤ maxLiteral then
      readDigits rest index (Int64.ofNat (decimal done)) =
        .ok (Int64.ofNat (decimal (done ++ digits)), index + digits.length)
    else ∃ n < digits.length, readDigits rest index (Int64.ofNat (decimal done)) =
        .error (index + n) ∧ decimal (done ++ digits.take n) ≤ maxLiteral ∧
      maxLiteral < decimal (done ++ digits.take (n + 1)) := by
  induction rest generalizing done index with
  | nil => simp [readDigits, hv]
  | cons sym rest ih =>
    cases hs : isDigit sym with
    | false => simp [readDigits, hs, hv]
    | true =>
      simp only [List.takeWhile_cons_of_pos hs, readDigits_cons hv hs]
      by_cases hfits : decimal (done ++ [sym]) ≤ maxLiteral
      · have hnext := @ih _ (index + 1) hfits
        rw [if_neg (Nat.not_lt.mpr hfits)]
        simp only [List.append_assoc, List.singleton_append] at hnext
        split_ifs at hnext ⊢ with hall
        · rw [hnext, List.length_cons, Nat.add_assoc, Nat.add_comm 1]
        · obtain ⟨n, hn, hread, hle, hlt⟩ := hnext
          refine ⟨n + 1, Nat.succ_lt_succ hn, ?_, hle, hlt⟩
          rw [hread, Nat.add_assoc, Nat.add_comm 1]
      · have hlong := decimal_le_append (done ++ [sym]) (rest.takeWhile isDigit)
        rw [List.append_assoc, List.singleton_append] at hlong
        rw [if_neg (by omega), if_pos (Nat.not_le.mp hfits)]
        refine ⟨0, Nat.succ_pos _, rfl, ?_, Nat.not_le.mp hfits⟩
        rwa [List.take_zero, List.append_nil]

/-- The values and the digits from which the loop computes
`value * 10 + digit`. -/
def digitTurns : Bytes → Long → List (Long × Long)
  | [], _ => []
  | sym :: rest, value =>
    if !isDigit sym then []
    else
      let digit : Long := Int64.ofNat (sym - byte '0').toNat
      if value > (longMax - digit) / 10 then []
      else (value, digit) :: digitTurns rest (value * 10 + digit)

structure TurnExact (value digit : Long) : Prop where
  product : 0 ≤ value.toInt * 10 ∧ value.toInt * 10 ≤ longMax.toInt
  sum : 0 ≤ value.toInt * 10 + digit.toInt ∧ value.toInt * 10 + digit.toInt ≤ longMax.toInt
  toInt_product : (value * 10).toInt = value.toInt * 10
  toInt_sum : (value * 10 + digit).toInt = value.toInt * 10 + digit.toInt

theorem toInt_ofNat {n : Nat} (h : n ≤ maxLiteral) : (Int64.ofNat n).toInt = n :=
  Int64.toInt_ofNat_of_lt (Nat.lt_of_le_of_lt h (by decide))

theorem readDigits_nonneg {rest : Bytes} {index i : Nat} {value : Long}
    (h : readDigits rest index 0 = .ok (value, i)) : 0 ≤ value.toInt := by
  have hread := @readDigits_eq rest [] index (Nat.zero_le _)
  have hzero : Int64.ofNat (decimal []) = 0 := rfl
  simp only [List.nil_append, hzero, h] at hread
  split_ifs at hread with hle
  · obtain ⟨rfl, -⟩ := Prod.mk.inj (Except.ok.inj hread)
    rw [toInt_ofNat hle]
    exact Int.natCast_nonneg _
  · obtain ⟨n, -, hread, -⟩ := hread
    cases hread

theorem turnExact {value digit : Nat} (h : value * 10 + digit ≤ maxLiteral) :
    TurnExact (Int64.ofNat value) (Int64.ofNat digit) := by
  have hmax : longMax.toInt = maxLiteral := by decide
  have hproduct : Int64.ofNat value * 10 = Int64.ofNat (value * 10) := (Int64.ofNat_mul _ _).symm
  have hvalue := toInt_ofNat (show value ≤ maxLiteral by omega)
  have hdigit := toInt_ofNat (show digit ≤ maxLiteral by omega)
  refine ⟨?_, ?_, ?_, ?_⟩
  · rw [hvalue, hmax]
    omega
  · rw [hvalue, hdigit, hmax]
    omega
  · rw [hproduct, hvalue, toInt_ofNat (by omega)]
    push_cast
    rfl
  · rw [hproduct, ← Int64.ofNat_add, hvalue, hdigit, toInt_ofNat h]
    push_cast
    rfl

theorem digitTurns_exact {rest done : Bytes} (hv : decimal done ≤ maxLiteral) :
    ∀ turn ∈ digitTurns rest (Int64.ofNat (decimal done)), TurnExact turn.1 turn.2 := by
  induction rest generalizing done with
  | nil => simp [digitTurns]
  | cons sym rest ih =>
    rw [digitTurns]
    cases hs : isDigit sym with
    | false => simp
    | true =>
      have hroom := noRoom_iff hv (digitValue_lt hs)
      have hnext : Int64.ofNat (decimal done) * 10 + Int64.ofNat (digitValue sym) =
          Int64.ofNat (decimal (done ++ [sym])) := by
        rw [decimal_concat, Int64.ofNat_add, Int64.ofNat_mul]
        rfl
      rw [← decimal_concat] at hroom
      rw [← digitValue]
      simp only [hroom, hnext, Bool.not_true, Bool.false_eq_true, if_false]
      split_ifs with hlt
      · simp
      · have hle := Nat.le_of_not_lt hlt
        refine List.forall_mem_cons.mpr ⟨turnExact ?_, ih hle⟩
        rwa [← decimal_concat]

/-- The turns lead from a value to the last one: each starts from what the one before
it has computed, and adds its digit. -/
structure TurnsLead (rest : Bytes) (value last : Long) (turns : List (Long × Long)) : Prop where
  values : value :: turns.map (fun turn => turn.1 * 10 + turn.2) = turns.map Prod.fst ++ [last]
  digits : turns.map Prod.snd =
    (rest.take turns.length).map fun sym => Int64.ofNat (digitValue sym)

theorem readDigits_turns (rest : Bytes) (index : Nat) (value : Long) :
    ∃ last, TurnsLead rest value last (digitTurns rest value) ∧
      (readDigits rest index value = .ok (last, index + (digitTurns rest value).length) ∨
        readDigits rest index value = .error (index + (digitTurns rest value).length)) := by
  induction rest generalizing index value with
  | nil => exact ⟨value, ⟨rfl, rfl⟩, .inl rfl⟩
  | cons sym rest ih =>
    rw [digitTurns, readDigits]
    split_ifs with hdigit
    · exact ⟨value, ⟨rfl, rfl⟩, .inl rfl⟩
    · dsimp only
      split_ifs with hroom
      · exact ⟨value, ⟨rfl, rfl⟩, .inr rfl⟩
      · obtain ⟨last, hlead, hread⟩ :=
          ih (index + 1) (value * 10 + Int64.ofNat (sym - byte '0').toNat)
        rw [List.length_cons, ← Nat.add_assoc, Nat.add_right_comm]
        refine ⟨last, ⟨?_, ?_⟩, hread⟩
        · rw [List.map_cons, List.map_cons, List.cons_append, ← hlead.values]
        · rw [List.map_cons, List.length_cons, List.take_succ_cons, List.map_cons, ← hlead.digits]
          rfl

-- ---------------------------------------------------------------------------
-- Number tokens
-- ---------------------------------------------------------------------------

/-- What `parse_token` makes of the digits in front of it: no turn of its loop
overflows, a number that a `long` has room for becomes a token, and a larger one
is reported, up to the first digit that does not fit. -/
structure DigitsExact (s : Parser) (index : Nat) (digits : Bytes) : Prop where
  turns : ∀ turn ∈ digitTurns (s.code.drop index) 0, TurnExact turn.1 turn.2
  fits : digits ≠ [] → decimal digits ≤ maxLiteral → ∃ s', parseToken s = .ok () s' ∧
    s'.token.type = .int ∧ s'.token.startIndex = index ∧
    s'.token.endIndex = index + digits.length ∧ s'.token.value.toInt = decimal digits
  exceeds : maxLiteral < decimal digits → ∃ n < digits.length,
    decimal (digits.take n) ≤ maxLiteral ∧ maxLiteral < decimal (digits.take (n + 1)) ∧
    ∃ s', parseToken s = .error .returnFalse s' ∧ s'.state = .error ∧
      s'.error = .valueOutOfRange ∧ s'.errorInfo = .code index (index + n)
  outOfRange : ∀ s', parseToken s = .error .returnFalse s' →
    (s'.error = .valueOutOfRange ↔ maxLiteral < decimal digits)
  loop : ∃ last, TurnsLead (s.code.drop index) 0 last (digitTurns (s.code.drop index) 0) ∧
    (digits ≠ [] → Meets parseToken s
      (fun _ s' => s'.token.value = last ∧
        s'.index = index + (digitTurns (s.code.drop index) 0).length)
      (fun _ s' => s'.errorInfo =
        .code index (index + (digitTurns (s.code.drop index) 0).length)))

section
variable {s s' : Parser} {sym : UInt8}

theorem charType_of_isDigit (h : isDigit sym = true) : charType sym = none := by
  unfold charType
  split_ifs
  case neg => rfl
  all_goals
    subst sym
    exact absurd h (by decide)

theorem charType_ne_eof {type : TokenType} (h : charType sym = some type) : type ≠ .eof := by
  rintro rfl
  unfold charType at h
  split_ifs at h <;> cases h

theorem parseToken_digit (hsym : s.code[(parserSkipIgnoreable s).index]? = some sym)
    (hd : isDigit sym = true) : parseToken s = parseInt (parserSkipIgnoreable s) := by
  have hsym' : (parserSkipIgnoreable s).code[(parserSkipIgnoreable s).index]? = some sym := hsym
  unfold parseToken
  simp only [proc_modify_bind, proc_get_bind, hsym', charType_of_isDigit hd, hd, if_true]

/-- A name is refused for want of memory only, and then it is reported. -/
theorem parseIdent_refused : Meets parseIdent s (fun _ _ => True)
    (fun e s' => e = .returnFalse → s'.state = .error ∧ s'.error = .outOfMemory ∧
      ∃ j, s'.errorInfo = .code s.index j) := by
  have happend {i : Nat} (s : Parser) (chunk : Bytes) (hi : s.token.startIndex = i) :
      Meets (parserBufferAppend (bufferAppend · · chunk)) s (fun _ s' => s'.token.startIndex = i)
        (fun e s' => e = .returnFalse → s'.state = .error ∧ s'.error = .outOfMemory ∧
          ∃ j, s'.errorInfo = .code i j) := by
    subst hi
    refine meets_get_bind ?_
    dsimp only
    cases bufferAppend s.heap s.buffer chunk with
    | error f =>
      refine meets_throw ?_
      rintro ⟨⟩
    | ok r =>
      obtain ⟨ok, buffer, heap⟩ := r
      refine meets_modify_bind ?_
      cases ok
      · exact meets_modify_bind (meets_throw fun _ => ⟨rfl, rfl, _, rfl⟩)
      · exact meets_pure rfl
  unfold parseIdent
  refine meets_modify_bind (meets_get_bind ?_)
  refine (happend _ _ rfl).bind fun _ s₁ _ h₁ => ?_
  exact (happend s₁ [0] h₁).bind fun _ s₂ _ _ => meets_modify trivial

theorem parseInt_fits {digits : Bytes} (hd : (s.code.drop s.index).takeWhile isDigit = digits)
    (h : decimal digits ≤ maxLiteral) : parseInt s = .ok ()
      { s with
        state := .tokenReady
        index := s.index + digits.length
        token := ⟨.int, s.index, s.index + digits.length, Int64.ofNat (decimal digits)⟩ } := by
  have hread := @readDigits_eq (s.code.drop s.index) [] s.index (Nat.zero_le _)
  have hzero : Int64.ofNat (decimal []) = 0 := rfl
  simp only [List.nil_append, hd, if_pos h, hzero] at hread
  unfold parseInt
  simp only [proc_modify_bind, proc_get_bind, hread]
  rfl

theorem parseInt_exceeds {digits : Bytes} (hd : (s.code.drop s.index).takeWhile isDigit = digits)
    (h : maxLiteral < decimal digits) : ∃ n < digits.length,
      decimal (digits.take n) ≤ maxLiteral ∧ maxLiteral < decimal (digits.take (n + 1)) ∧
      ∃ s', parseInt s = .error .returnFalse s' ∧ s'.state = .error ∧
        s'.error = .valueOutOfRange ∧ s'.errorInfo = .code s.index (s.index + n) := by
  have hread := @readDigits_eq (s.code.drop s.index) [] s.index (Nat.zero_le _)
  have hzero : Int64.ofNat (decimal []) = 0 := rfl
  simp only [List.nil_append, hd, if_neg (Nat.not_le.mpr h), hzero] at hread
  obtain ⟨n, hn, hread, hle, hlt⟩ := hread
  refine ⟨n, hn, hle, hlt, ?_⟩
  unfold parseInt
  simp only [proc_modify_bind, proc_get_bind, hread]
  exact ⟨_, rfl, rfl, rfl, rfl⟩

theorem parseInt_turns : ∃ last,
    TurnsLead (s.code.drop s.index) 0 last (digitTurns (s.code.drop s.index) 0) ∧
    Meets parseInt s
      (fun _ s' => s'.token.value = last ∧
        s'.index = s.index + (digitTurns (s.code.drop s.index) 0).length)
      (fun _ s' => s'.errorInfo =
        .code s.index (s.index + (digitTurns (s.code.drop s.index) 0).length)) := by
  obtain ⟨last, hlead, hread⟩ := readDigits_turns (s.code.drop s.index) s.index 0
  refine ⟨last, hlead, meets_modify_bind (meets_get_bind ?_)⟩
  dsimp only
  rcases hread with hread | hread
  · rw [hread]
    exact meets_modify ⟨rfl, rfl⟩
  · rw [hread]
    exact meets_modify_bind (meets_modify_bind (meets_throw rfl))

theorem parseToken_refused (hsym : ∀ sym, s.code[(parserSkipIgnoreable s).index]? = some sym →
      isDigit sym = false) :
    Meets parseToken s (fun _ _ => True)
      (fun e s' => e = .returnFalse → s'.error ≠ .valueOutOfRange) := by
  unfold parseToken
  refine meets_modify_bind (meets_get_bind ?_)
  generalize hs₁ : parserSkipIgnoreable s = s₁ at hsym
  have hcode : s.code = s₁.code := hs₁ ▸ rfl
  rw [hcode] at hsym
  cases hc : s₁.code[s₁.index]? with
  | none => exact meets_modify trivial
  | some sym =>
    simp only
    cases charType sym with
    | some type => exact meets_modify trivial
    | none =>
      simp only [hsym sym hc, Bool.false_eq_true, if_false]
      split_ifs
      · refine parseIdent_refused.mono (fun _ _ _ _ => trivial) fun e s' h he => ?_
        rw [(h he).2.1]
        rintro ⟨⟩
      · refine meets_modify_bind (meets_throw fun _ => ?_)
        rintro ⟨⟩

theorem digitsExact (s : Parser) :
    DigitsExact s (parserSkipIgnoreable s).index
      ((s.code.drop (parserSkipIgnoreable s).index).takeWhile isDigit) := by
  have hturns := @digitTurns_exact (s.code.drop (parserSkipIgnoreable s).index) [] (Nat.zero_le _)
  by_cases hdigit : ∃ sym, s.code[(parserSkipIgnoreable s).index]? = some sym ∧ isDigit sym = true
  · obtain ⟨sym, hsym, hd⟩ := hdigit
    obtain ⟨last, hlead, hmeets⟩ := @parseInt_turns (parserSkipIgnoreable s)
    rw [Meets, ← parseToken_digit hsym hd] at hmeets
    refine ⟨hturns, ?_, ?_, ?_, last, hlead, fun _ => hmeets⟩ <;> rw [parseToken_digit hsym hd]
    · rintro - hle
      exact ⟨_, @parseInt_fits (parserSkipIgnoreable s) _ rfl hle, rfl, rfl, rfl, toInt_ofNat hle⟩
    · exact @parseInt_exceeds (parserSkipIgnoreable s) _ rfl
    · rintro s' herr
      by_cases hle : decimal ((s.code.drop (parserSkipIgnoreable s).index).takeWhile isDigit) ≤
          maxLiteral
      · rw [@parseInt_fits (parserSkipIgnoreable s) _ rfl hle] at herr
        cases herr
      · obtain ⟨n, -, -, -, s'', hs'', -, he, -⟩ :=
          @parseInt_exceeds (parserSkipIgnoreable s) _ rfl (Nat.not_le.mp hle)
        rw [hs''] at herr
        cases herr
        exact iff_of_true he (Nat.not_le.mp hle)
  · have hsym : ∀ sym, s.code[(parserSkipIgnoreable s).index]? = some sym →
        isDigit sym = false :=
      fun sym hsym => Bool.eq_false_iff.mpr fun hd => hdigit ⟨sym, hsym, hd⟩
    have hnil : (s.code.drop (parserSkipIgnoreable s).index).takeWhile isDigit = [] := by
      rw [List.takeWhile_eq_nil_iff]
      rintro hlt hd
      rw [List.get_eq_getElem, List.getElem_drop] at hd
      exact hdigit ⟨_, List.getElem?_eq_getElem _, hd⟩
    rw [hnil]
    obtain ⟨last, hlead, -⟩ :=
      readDigits_turns (s.code.drop (parserSkipIgnoreable s).index) 0 0
    refine ⟨hturns, fun h => absurd rfl h, fun h => absurd h (by decide), fun s' herr => ?_,
      last, hlead, fun h => absurd rfl h⟩
    exact iff_of_false ((parseToken_refused hsym).of_error herr rfl) (by decide)

end

end ParserExample
