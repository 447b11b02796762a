import ParserExample.Reader.Expression

/-!
# What is read is derived

`Explains nt tokens` of a result says that the lexemes read have a valid
derivation from `nt`, whose expression is the one returned, and that running
out of lexemes means that some words complete them. The induction is on the
bound of the recursion, which the number of lexemes stays below.
-/

namespace ParserExample

open Library

def Explains (names : List Bytes) (nt : NonTerminal) (tokens : List Lexeme) : Read → Prop
  | .ok (t, rest) => ∃ (used : List Lexeme) (e : Derivation nt), tokens = used ++ rest ∧
      used.map Lexeme.word = e.yield ∧ e.Valid names ∧ t.erase = e.expr names
  | .error .stopped => ∃ (back : List Word) (e : Derivation nt),
      e.yield = tokens.map Lexeme.word ++ back ∧ e.Valid names ∧ e.literal = none
  | .error .fuel => False
  | .error (.failed ..) => True

-- ---------------------------------------------------------------------------
-- Signs
-- ---------------------------------------------------------------------------

@[simp] theorem negates_nil : negates [] = false := rfl

@[simp] theorem negates_cons (sign : AddSubOp) (signs : List AddSubOp) :
    negates (sign :: signs) = (negates signs != decide (sign = .minus)) := by
  cases sign with
  | plus => simp [negates]
  | minus =>
    simp only [negates, List.count_cons_self]
    rcases Nat.mod_two_eq_zero_or_one (signs.count .minus) with h | h <;> simp [h, Nat.add_mod]

/-- The signs read are a run of sign words, or every lexeme is a sign. -/
theorem readSigns_explains {fuel : Nat} (inverse : Bool) {tokens : List Lexeme}
    (hf : tokens.length < fuel) :
    (∃ (used rest : List Lexeme) (signs : List AddSubOp), tokens = used ++ rest ∧
      used.map Lexeme.word = signs.map AddSubOp.word ∧
      readSigns fuel inverse tokens = .ok (inverse != negates signs, rest)) ∨
    (readSigns fuel inverse tokens = .error .stopped ∧
      ∃ signs : List AddSubOp, tokens.map Lexeme.word = signs.map AddSubOp.word) := by
  induction fuel generalizing tokens inverse with
  | zero => omega
  | succ fuel ih =>
    cases tokens with
    | nil => exact .inr ⟨rfl, [], rfl⟩
    | cons l tokens =>
      have hsign (sign : AddSubOp) (hl : l.word = sign.word) :
          (∃ (used rest : List Lexeme) (signs : List AddSubOp), l :: tokens = used ++ rest ∧
            used.map Lexeme.word = signs.map AddSubOp.word ∧
            readSigns fuel (inverse != decide (sign = .minus)) tokens =
              .ok (inverse != negates signs, rest)) ∨
          (readSigns fuel (inverse != decide (sign = .minus)) tokens = .error .stopped ∧
            ∃ signs : List AddSubOp, (l :: tokens).map Lexeme.word = signs.map AddSubOp.word) := by
        rcases @ih (inverse != decide (sign = .minus)) tokens (by simpa using hf) with
          ⟨used, rest, signs, rfl, hu, hr⟩ | ⟨hr, signs, hs⟩
        · refine .inl ⟨l :: used, rest, sign :: signs, rfl, by simp [hu, hl], ?_⟩
          rw [hr, negates_cons]
          simp [bne_comm, Bool.bne_assoc]
        · exact .inr ⟨hr, sign :: signs, by simp [hs, hl]⟩
      rw [readSigns]
      simp only [next, ok_bind, List.tail_cons]
      cases hw : l.word
      case plus => simpa using hsign .plus hw
      case minus => simpa using hsign .minus hw
      all_goals exact .inl ⟨[], l :: tokens, [], rfl, rfl, by simp⟩

-- ---------------------------------------------------------------------------
-- Atoms and operands
-- ---------------------------------------------------------------------------

/-- `(1 + 1)`, an atom that completes a program wherever one may stand. -/
def fillerAtom : Derivation .atom :=
  let one : Derivation .signed := .signed [] (.int [byte '1'])
  .paren (.addSub .plus (.ofMulDiv (.ofSigned one)) (.ofSigned one))

theorem valid_fillerAtom (names : List Bytes) : fillerAtom.Valid names := by
  have h : decimal [byte '1'] ≤ maxLiteral := by decide
  simp [fillerAtom, h]

/-- Fewer lexemes than `n`, and no number among them that is out of range. -/
structure Bounded (n : Nat) (tokens : List Lexeme) : Prop where
  length_lt : tokens.length < n
  in_range : ∀ l ∈ tokens, ∀ digits, l.word = .int digits → decimal digits ≤ maxLiteral

theorem Bounded.suffix {n : Nat} {used rest : List Lexeme} (h : Bounded n (used ++ rest)) :
    Bounded n rest := by
  have hlen := h.length_lt
  rw [List.length_append] at hlen
  exact ⟨by omega, fun l hl => h.in_range l (List.mem_append_right _ hl)⟩

theorem Bounded.tail {n : Nat} {l : Lexeme} {rest : List Lexeme} (h : Bounded (n + 1) (l :: rest)) :
    Bounded n rest :=
  ⟨by simpa using h.length_lt, fun a ha => h.in_range a (List.mem_cons_of_mem _ ha)⟩

section
variable {names : List Bytes} {fuel : Nat} {readAddSub : List Lexeme → Read}
  (ih : ∀ tokens, Bounded fuel tokens → Explains names .addSub tokens (readAddSub tokens))
include ih

theorem explains_readAtom {tokens : List Lexeme} (hb : Bounded (fuel + 1) tokens) :
    Explains names .atom tokens (readAtom names readAddSub tokens) := by
  cases tokens with
  | nil => exact ⟨fillerAtom.yield, fillerAtom, rfl, valid_fillerAtom names, rfl⟩
  | cons l tokens =>
    rw [readAtom]
    simp only [next, ok_bind, List.tail_cons]
    cases hw : l.word
    case ident name =>
      dsimp only
      split
      · trivial
      · rename_i hne
        refine ⟨[l], .ident name, rfl, by simp [hw], ?_, rfl⟩
        exact List.idxOf_lt_length_iff.mp (lt_of_le_of_ne List.idxOf_le_length hne)
    case int digits =>
      exact ⟨[l], .int digits, rfl, by simp [hw], hb.in_range l (by simp) digits hw, rfl⟩
    case parenOpen =>
      have h := ih tokens hb.tail
      simp only [readParen]
      generalize readAddSub tokens = res at h ⊢
      match res, h with
      | .ok (t, rest), h =>
        obtain ⟨used, e, rfl, hu, hv, ht⟩ := h
        cases rest with
        | nil =>
          exact ⟨_, .paren (.addSub .plus e (.ofSigned (.signed [] fillerAtom))),
            by simp [hw, hu]; rfl, by simp [hv, valid_fillerAtom], rfl⟩
        | cons close rest =>
          simp only [next, ok_bind]
          split
          · trivial
          · rename_i hc
            exact ⟨l :: used ++ [close], .paren e, by simp, by simp_all, hv, ht⟩
      | .error .stopped, h =>
        obtain ⟨back, e, he, hv, hl⟩ := h
        exact ⟨back ++ [.parenClose], .paren e, by simp [he, hw], hv, hl⟩
      | .error (.failed ..), _ => trivial
    all_goals trivial

theorem explains_readSigned {tokens : List Lexeme} (hb : Bounded (fuel + 1) tokens) :
    Explains names .signed tokens (readSigned names readAddSub (fuel + 1) tokens) := by
  rw [readSigned]
  cases tokens with
  | nil => exact ⟨_, .signed [] fillerAtom, rfl, by simp [valid_fillerAtom], rfl⟩
  | cons l tokens =>
    simp only [next, ok_bind]
    rcases readSigns_explains false hb.length_lt with
      ⟨used, rest, signs, htokens, hu, hr⟩ | ⟨hr, signs, hs⟩
    · have hatom := explains_readAtom ih (htokens ▸ hb).suffix
      rw [hr, htokens]
      simp only [ok_bind, Bool.false_bne]
      generalize readAtom names readAddSub rest = res at hatom ⊢
      match res, hatom with
      | .ok (t, rest'), ⟨used', e, hrest, hu', hv, ht⟩ =>
        have hmax := max_check_iff hv ht
        rcases applySigns_cases l.startIndex (negates signs) t with
          ⟨-, -, j, happ⟩ | ⟨hnot, t', happ, ht'⟩
        · simp only [ok_bind, happ]
          trivial
        · simp only [ok_bind, happ]
          refine ⟨used ++ used', .signed signs e, by simp [hrest], by simp [hu, hu'],
            ⟨hv, fun hn hl => hnot ⟨hn, hmax.mpr hl⟩⟩, ?_⟩
          rw [ht', ht]
          rfl
      | .error .stopped, ⟨back, e, he, hv, hl⟩ =>
        exact ⟨back, .signed signs e, by simp [he, hu], by simp [hv, hl], by simp [hl]⟩
      | .error (.failed ..), _ => trivial
    · rw [hr]
      exact ⟨fillerAtom.yield, .signed signs fillerAtom, by simp only [hs]; rfl,
        ⟨valid_fillerAtom names, by simp [fillerAtom]⟩, rfl⟩

end

-- ---------------------------------------------------------------------------
-- Chains
-- ---------------------------------------------------------------------------

theorem explains_readLoop {names : List Bytes} {nt nt' : NonTerminal} (c : Chain names nt nt')
    {operand : List Lexeme → Read} {n count : Nat} {left : RangedExpr} {used tokens : List Lexeme}
    {e : Derivation nt}
    (ih : ∀ tokens, Bounded n tokens → Explains names nt' tokens (operand tokens))
    (hcomplete : ∃ r : Derivation nt', r.Valid names ∧ r.literal = none)
    (hb : Bounded n tokens) (hcount : tokens.length < count)
    (hu : used.map Lexeme.word = e.yield) (hv : e.Valid names) (ht : left.erase = e.expr names) :
    Explains names nt (used ++ tokens) (readLoop c.pick operand count left tokens) := by
  induction count generalizing left used tokens e with
  | zero => omega
  | succ count ihc =>
    rw [readLoop]
    cases tokens with
    | nil =>
      obtain ⟨r, hr, hl⟩ := hcomplete
      obtain ⟨op, hop⟩ := c.exists_not_div
      exact ⟨c.word op :: r.yield, c.node op e r, by simp [c.yield_node, hu],
        (c.valid_node op e r).mpr ⟨hv, hr, by simp [hl]⟩, c.literal_node op e r⟩
    | cons l tokens =>
      simp only [next, ok_bind, List.tail_cons]
      cases hpick : c.pick l.word with
      | none => exact ⟨used, e, rfl, hu, hv, ht⟩
      | some type =>
        obtain ⟨op, hword, rfl⟩ := c.exists_op _ _ hpick
        have hop := ih tokens ⟨by have := hb.length_lt; simp at this; omega, fun a ha =>
          hb.in_range a (List.mem_cons_of_mem _ ha)⟩
        dsimp only
        generalize operand tokens = res at hop ⊢
        match res, hop with
        | .ok (right, rest), ⟨used', r, htokens, hu', hv', ht'⟩ =>
          simp only [ok_bind]
          split
          · trivial
          · rename_i hdiv
            have hlen : tokens.length = used'.length + rest.length := by simp [htokens]
            have hrest : Bounded n rest := by
              refine @Bounded.suffix n (l :: used') rest ?_
              rw [List.cons_append, ← htokens]
              exact hb
            have := @ihc (.bin l.range (c.type op) left right) (used ++ l :: used') rest
              (c.node op e r) hrest (by simp at hcount; omega)
              (by simp [c.yield_node, hu, hu', hword])
              ((c.valid_node op e r).mpr ⟨hv, hv', fun hd hz =>
                hdiv ⟨hd, (div_check_iff hv' ht').mpr hz⟩⟩)
              (by rw [c.expr_node, Tree.erase, ht, ht'])
            rw [htokens]
            simpa using this
        | .error .stopped, ⟨back, r, hr, hv', hl⟩ =>
          exact ⟨back, c.node op e r, by simp [c.yield_node, hu, hr, hword],
            (c.valid_node op e r).mpr ⟨hv, hv', by simp [hl]⟩, c.literal_node op e r⟩
        | .error (.failed ..), _ => trivial

theorem explains_readMulDiv {names : List Bytes} {fuel : Nat} {raddSub : List Lexeme → Read}
    {tokens : List Lexeme}
    (ih : ∀ tokens, Bounded fuel tokens → Explains names .addSub tokens (raddSub tokens))
    (hb : Bounded (fuel + 1) tokens) :
    Explains names .mulDiv tokens (readMulDiv names raddSub (fuel + 1) tokens) := by
  rw [readMulDiv]
  have h := explains_readSigned ih hb
  generalize readSigned names raddSub (fuel + 1) tokens = res at h ⊢
  match res, h with
  | .ok (t, rest), ⟨used, e, htokens, hu, hv, ht⟩ =>
    subst htokens
    exact explains_readLoop (mulDivChain names) (e := .ofSigned e)
      (fun _ => explains_readSigned ih)
      ⟨.signed [] fillerAtom, by simp [valid_fillerAtom], rfl⟩ hb.suffix hb.suffix.length_lt
      hu hv ht
  | .error .stopped, ⟨back, e, he, hv, hl⟩ => exact ⟨back, .ofSigned e, he, hv, hl⟩
  | .error (.failed ..), _ => trivial

theorem explains_readAddSub (names : List Bytes) (fuel : Nat) {tokens : List Lexeme}
    (hb : Bounded fuel tokens) : Explains names .addSub tokens (readAddSub names fuel tokens) := by
  induction fuel generalizing tokens with
  | zero => exact absurd hb.length_lt (by omega)
  | succ fuel ih =>
    rw [readAddSub]
    have h := explains_readMulDiv (fun _ => ih) hb
    generalize readMulDiv names (readAddSub names fuel) (fuel + 1) tokens = res at h ⊢
    match res, h with
    | .ok (t, rest), ⟨used, e, htokens, hu, hv, ht⟩ =>
      subst htokens
      exact explains_readLoop (addSubChain names) (e := .ofMulDiv e)
        (fun _ => explains_readMulDiv fun _ => ih)
        ⟨.ofSigned (.signed [] fillerAtom), by simp [valid_fillerAtom], rfl⟩
        hb.suffix hb.suffix.length_lt hu hv ht
    | .error .stopped, ⟨back, e, he, hv, hl⟩ => exact ⟨back, .ofMulDiv e, he, hv, hl⟩
    | .error (.failed ..), _ => trivial

/-- The expression of a program has a valid derivation of the lexemes before
the end of the code; a program that stops early can be completed. -/
theorem readProgram_sound {names : List Bytes} {fuel : Nat} {tokens : List Lexeme}
    (hb : Bounded fuel tokens) :
    (∀ t, readProgram names fuel tokens = .ok t → ∃ (used : List Lexeme) (l : Lexeme)
      (rest : List Lexeme) (e : Derivation .addSub), tokens = used ++ l :: rest ∧ l.word = .eof ∧
        used.map Lexeme.word = e.yield ∧ e.Valid names ∧ t.erase = e.expr names) ∧
    (readProgram names fuel tokens = .error .stopped → Viable names (tokens.map Lexeme.word)) ∧
    readProgram names fuel tokens ≠ .error .fuel := by
  rw [readProgram]
  have h := explains_readAddSub names fuel hb
  generalize readAddSub names fuel tokens = res at h ⊢
  match res, h with
  | .ok (t, []), ⟨used, e, htokens, hu, hv, ht⟩ =>
    refine ⟨by simp [next], fun _ => ⟨e, [.eof], ?_, hv⟩, by simp [next]⟩
    rw [htokens, List.append_nil, hu]
  | .ok (t, l :: rest), ⟨used, e, htokens, hu, hv, ht⟩ =>
    simp only [next, ok_bind]
    split
    · exact ⟨by simp, by simp, by simp⟩
    · rename_i heof
      refine ⟨?_, by simp, by simp⟩
      rintro _ ⟨⟩
      exact ⟨used, l, rest, e, htokens, by simpa using heof, hu, hv, ht⟩
  | .error .stopped, ⟨back, e, he, hv, hl⟩ =>
    exact ⟨by simp, fun _ => ⟨e, back ++ [.eof], by simp [he], hv⟩, by simp⟩
  | .error (.failed ..), _ => exact ⟨by simp, by simp, by simp⟩

end ParserExample
