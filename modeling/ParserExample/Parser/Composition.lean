import ParserExample.Library.Doubling
import ParserExample.Printer.Reparse

/-!
# Programs put together

Two programs in parentheses and an operator between them are a program, whose
value is computed from theirs. A program is closed off with a newline, since it
can end in a comment.
-/

namespace ParserExample

open Library

-- ---------------------------------------------------------------------------
-- Words on two lines
-- ---------------------------------------------------------------------------

section
variable {code rest more : Bytes} {comment : Bool} {ws : List Word}

theorem ignorable_append (h : ignorable comment code < code.length) :
    ignorable comment (code ++ more) = ignorable comment code := by
  induction code generalizing comment with
  | nil => cases h
  | cons sym code ih =>
    cases comment with
    | true =>
      simp only [ignorable, List.length_cons, Nat.add_lt_add_iff_right] at h
      simp only [List.cons_append, ignorable, ih h]
    | false =>
      simp only [ignorable, List.length_cons] at h
      simp only [List.cons_append, ignorable]
      split_ifs at h ⊢ with hhash hspace
      · rw [ih (Nat.lt_of_succ_lt_succ h)]
      · rw [ih (Nat.lt_of_succ_lt_succ h)]
      · rfl

theorem ignorable_newline (h : ignorable comment code = code.length) :
    ignorable comment (code ++ newline :: rest) = code.length + 1 + ignorable false rest := by
  induction code generalizing comment with
  | nil =>
    have hspace : isspace newline = true := by decide
    cases comment with
    | true =>
      simp only [List.nil_append, ignorable, ne_eq, not_true_eq_false, decide_false]
      exact Nat.add_comm _ _
    | false =>
      simp only [List.nil_append, ignorable, if_neg (show newline ≠ byte '#' by decide),
        if_pos hspace]
      exact Nat.add_comm _ _
  | cons sym code ih =>
    cases comment with
    | true =>
      simp only [ignorable, List.length_cons, Nat.add_right_cancel_iff] at h
      simp only [List.cons_append, ignorable, ih h, List.length_cons]
      omega
    | false =>
      simp only [ignorable, List.length_cons] at h
      simp only [List.cons_append, ignorable, List.length_cons]
      split_ifs at h ⊢ with hhash hspace
      · rw [ih (Nat.succ.inj h)]
        omega
      · rw [ih (Nat.succ.inj h)]
        omega

theorem takeWhile_append_separated {p : UInt8 → Bool} (hp : ∀ sym, p sym = true →
    isIdentTail sym = true) (hmore : Separated more) :
    (code ++ more).takeWhile p = code.takeWhile p := by
  induction code with
  | nil => exact @takeWhile_append_of_separated p [] more hp nofun hmore
  | cons sym code ih =>
    by_cases hsym : p sym = true
    · rw [List.cons_append, List.takeWhile_cons_of_pos hsym, List.takeWhile_cons_of_pos hsym, ih]
    · rw [List.cons_append, List.takeWhile_cons_of_neg hsym, List.takeWhile_cons_of_neg hsym]

/-- A word goes no further than to a byte that no word goes on with. -/
theorem longestMatch_append (hne : code ≠ []) (hmore : Separated more) :
    longestMatch (code ++ more) = longestMatch code := by
  obtain ⟨sym, code, rfl⟩ := List.exists_cons_of_ne_nil hne
  have hdigits : (code ++ more).takeWhile isDigit = code.takeWhile isDigit :=
    takeWhile_append_separated (fun sym h => by simp [isIdentTail, h]) hmore
  have htails : (code ++ more).takeWhile isIdentTail = code.takeWhile isIdentTail :=
    takeWhile_append_separated (fun _ h => h) hmore
  rw [List.cons_append, longestMatch, longestMatch, hdigits, htails]

theorem longestMatch_ne_eof (hne : code ≠ []) : longestMatch code ≠ .eof := by
  obtain ⟨sym, code, rfl⟩ := List.exists_cons_of_ne_nil hne
  rw [longestMatch]
  split_ifs <;> simp

theorem words_skip {k : Nat} (hgap : ignorable false code = k + ignorable false (code.drop k)) :
    words code = words (code.drop k) := by
  rw [words_eq, words_eq (code.drop k)]
  simp only [afterFirst, hgap, List.drop_drop, Nat.add_assoc]

theorem words_newline (h : words code = ws ++ [.eof]) :
    words (code ++ newline :: rest) = ws ++ words rest := by
  induction hn : code.length using Nat.strong_induction_on generalizing code ws with
  | _ n ih =>
    have hdrop : (code ++ newline :: rest).drop (code.length + 1) = rest := by
      rw [List.drop_append, List.drop_of_length_le (Nat.le_succ _), Nat.add_sub_cancel_left]
      rfl
    rw [words_eq] at h
    dsimp only at h
    rcases (ignorable_le false code).lt_or_eq with hlt | hall
    · have hne : code.drop (ignorable false code) ≠ [] := by
        rwa [ne_eq, List.drop_eq_nil_iff, not_le]
      have hsep : Separated (newline :: rest) := by
        rintro _ ⟨⟩
        decide
      have hlen := length_longestMatch_le (code.drop (ignorable false code))
      have hmatch : longestMatch ((code ++ newline :: rest).drop (ignorable false code)) =
          longestMatch (code.drop (ignorable false code)) := by
        rw [List.drop_append_of_le_length hlt.le, longestMatch_append hne hsep]
      by_cases hlast : (longestMatch (code.drop (ignorable false code))).isLast = true
      · rw [if_pos hlast] at h
        have heof := congrArg List.getLast? h
        rw [List.getLast?_concat, List.getLast?_singleton, Option.some.injEq] at heof
        exact absurd heof (longestMatch_ne_eof hne)
      · rw [if_neg hlast] at h
        cases ws with
        | nil =>
          obtain ⟨heof, -⟩ := List.cons.inj h
          exact absurd heof (longestMatch_ne_eof hne)
        | cons w ws =>
          obtain ⟨rfl, hrest⟩ := List.cons.inj h
          have hafter : afterFirst (code ++ newline :: rest) =
              afterFirst code ++ newline :: rest := by
            rw [List.length_drop] at hlen
            simp only [afterFirst, ignorable_append hlt, hmatch]
            exact List.drop_append_of_le_length (by omega)
          have hshort := @length_afterFirst 0 code hlast
          rw [words_eq]
          simp only [ignorable_append hlt, hmatch, if_neg hlast, hafter]
          rw [ih _ (hn ▸ hshort) hrest rfl, List.cons_append]
    · rw [hall, List.drop_length] at h
      obtain rfl : ws = [] := by
        have hlen := congrArg List.length h
        simpa [longestMatch, Word.isLast] using hlen
      have hgap : ignorable false (code ++ newline :: rest) = code.length + 1 +
          ignorable false ((code ++ newline :: rest).drop (code.length + 1)) := by
        rw [hdrop, ignorable_newline hall]
      rw [words_skip hgap, hdrop, List.nil_append]

end

-- ---------------------------------------------------------------------------
-- Names behind others
-- ---------------------------------------------------------------------------

/-- The second buffer has been enlarged at least as often as the first. -/
def Outgrown (capacity capacity' : Nat) : Prop :=
  ∃ count count', count ≤ count' ∧ capacity = doubled bufsiz count ∧
    capacity' = doubled bufsiz count'

section
variable {capacity capacity' : Nat} {names names' : List Bytes} {w : Word}

theorem newCapacity_doubled (count : Nat) :
    newCapacity (doubled bufsiz count) = doubled bufsiz (count + 1) :=
  (doubled_succ (by decide) count).symm

theorem Outgrown.le (h : Outgrown capacity capacity') : capacity ≤ capacity' := by
  obtain ⟨count, count', hle, rfl, rfl⟩ := h
  exact doubled_mono (by decide) hle

theorem Outgrown.newCapacity (h : Outgrown capacity capacity') :
    Outgrown (newCapacity capacity) (newCapacity capacity') := by
  obtain ⟨count, count', hle, rfl, rfl⟩ := h
  exact ⟨count + 1, count' + 1, Nat.succ_le_succ hle, newCapacity_doubled _, newCapacity_doubled _⟩

theorem Outgrown.capacityFor (h : Outgrown capacity capacity') (size : Nat) :
    Outgrown (capacityFor capacity size) (capacityFor capacity' size) := by
  unfold ParserExample.capacityFor
  split_ifs with hfits hfits' hroom
  · exact h
  · exact absurd (hfits.trans h.le) hfits'
  · -- the larger buffer has room, so it has been enlarged more often
    obtain ⟨count, count', hle, rfl, rfl⟩ := h
    obtain rfl | hlt := hle.eq_or_lt
    · exact absurd hroom hfits
    · exact ⟨count + 1, count', hlt, newCapacity_doubled count, rfl⟩
  · exact h.newCapacity

theorem Outgrown.capacityAfter (h : Outgrown capacity capacity') (w : Word) :
    Outgrown (w.capacityAfter capacity) (w.capacityAfter capacity') := by
  cases w with
  | ident name => exact (h.capacityFor _).capacityFor _
  | _ => exact h

theorem Outgrown.isReadable (h : Outgrown capacity capacity')
    (hr : w.isReadable capacity = true) : w.isReadable capacity' = true := by
  cases w with
  | ident name =>
    simp only [Word.isReadable, Bool.or_eq_true, decide_eq_true_eq] at hr ⊢
    exact hr.imp h.le.trans' h.newCapacity.le.trans'
  | _ => exact hr

/-- A buffer that has been enlarged more often has room for the same names. -/
theorem NamesFit.mono (h : Outgrown capacity capacity') (hfit : NamesFit capacity names) :
    NamesFit capacity' names := by
  induction names generalizing capacity capacity' with
  | nil => trivial
  | cons name names ih => exact ⟨h.isReadable hfit.1, ih (h.capacityAfter _) hfit.2⟩

/-- Names that fit a new buffer fit behind others. -/
theorem NamesFit.append (h : Outgrown 0 capacity) (hfit : NamesFit capacity names)
    (hfit' : NamesFit 0 names') : NamesFit capacity (names ++ names') := by
  induction names generalizing capacity with
  | nil => exact hfit'.mono h
  | cons name names ih =>
    refine ⟨hfit.1, ih ?_ hfit.2⟩
    obtain ⟨-, count, -, -, hcount⟩ := h.capacityAfter (.ident name)
    exact ⟨0, count, Nat.zero_le _, rfl, hcount⟩

end

-- ---------------------------------------------------------------------------
-- Two programs
-- ---------------------------------------------------------------------------

def composed (type : BinaryType) (code₁ code₂ : Bytes) : Bytes :=
  byte '(' :: (code₁ ++ newline :: (byte ')' :: (type.text ++
    byte '(' :: (code₂ ++ newline :: [byte ')']))))

def composedDerivation (type : BinaryType) (d₁ d₂ : Derivation .addSub) : Derivation .addSub :=
  type.derivation (.signed [] (.paren d₁)) (.signed [] (.paren d₂))

section
variable {heap heap₁ heap₂ : Heap} {code₁ code₂ : Bytes} {names : List Bytes} {p₁ p₂ : Parser}
  {type : BinaryType} {d₁ d₂ : Derivation .addSub} {ast : Ast} {e : Expr}

theorem words_composed (h₁ : words code₁ = d₁.yield ++ [.eof])
    (h₂ : words code₂ = d₂.yield ++ [.eof]) :
    words (composed type code₁ code₂) = (composedDerivation type d₁ d₂).yield ++ [.eof] := by
  have hend : words [byte ')'] = [.parenClose, .eof] := by rw [words_parenClose, words_nil]
  rw [composed, words_parenOpen, words_newline h₁, words_parenClose, words_binaryType,
    words_parenOpen, words_newline h₂, hend]
  simp [composedDerivation]

theorem valid_composed (h₁ : d₁.Valid names) (h₂ : d₂.Valid names) :
    (composedDerivation type d₁ d₂).Valid names ↔ ¬ (type = .div ∧ d₂.literal = some 0) := by
  have hsigns : negates [] = false := rfl
  have hid (d : Derivation .addSub) :
      (Derivation.signed [] (.paren d)).literal = d.literal := by
    simp [hsigns]
  cases type <;> simp [composedDerivation, BinaryType.derivation, h₁, h₂, hsigns]

theorem expr_composed : (composedDerivation type d₁ d₂).expr names =
    .bin type (d₁.expr names) (d₂.expr names) := by
  rw [composedDerivation, expr_derivation]
  rfl

theorem legible_composed (h₁ : words code₁ = d₁.yield ++ [.eof])
    (h₂ : words code₂ = d₂.yield ++ [.eof]) (hv₁ : d₁.Valid names) (hv₂ : d₂.Valid names)
    (hl₁ : obstacle code₁ = none) (hl₂ : obstacle code₂ = none) :
    obstacle (composed type code₁ code₂) = none := by
  have hfit₁ := (legible_iff h₁ fun w => isReadable_of_valid hv₁).mp hl₁
  have hfit₂ := (legible_iff h₂ fun w => isReadable_of_valid hv₂).mp hl₂
  rw [legible_iff (words_composed h₁ h₂)]
  · have hnames : (composedDerivation type d₁ d₂).yield.filterMap Word.name? =
        d₁.yield.filterMap Word.name? ++ d₂.yield.filterMap Word.name? := by
      cases type <;>
        simp [composedDerivation, BinaryType.word, List.filterMap_cons, Word.name?]
    rw [hnames]
    exact hfit₁.append ⟨0, 0, le_rfl, rfl, rfl⟩ hfit₂
  · intro w hw
    rw [composedDerivation, yield_derivation, List.mem_append, List.mem_cons] at hw
    have hparen {d : Derivation .addSub} (hv : d.Valid names) :
        (Derivation.signed [] (.paren d)).Valid names := ⟨hv, fun h => by cases h⟩
    rcases hw with hw | rfl | hw
    · exact isReadable_of_valid (hparen hv₁) hw
    · exact .inr fun _ => by cases type <;> rfl
    · exact isReadable_of_valid (hparen hv₂) hw

theorem root_eq_int_iff {value : Long} (h : ast.ListsPostOrder (e.number 0))
    (hlen : ast.nodesUsed = e.size) :
    ast.view ast.rootNodeIndex = some (.leaf (.int value)) ↔ e = Expr.int value := by
  rw [← Ast.slot_number h hlen]
  constructor
  · intro hv
    simpa using h.holds.erase_leaf hv
  · rintro rfl
    exact h.holds.root

/-- The parser accepts two programs that are put together, unless the second is the
literal 0 and a divisor, and the value is computed from theirs. -/
theorem astEval_composed (h₁ : parseSlice heap₁ code₁ names = .ok p₁) (hd₁ : p₁.state = .done)
    (h₂ : parseSlice heap₂ code₂ names = .ok p₂) (hd₂ : p₂.state = .done)
    (hmem : AllocationsSucceed heap (composed type code₁ code₂) names) :
    ∃ p, parseSlice heap (composed type code₁ code₂) names = .ok p ∧
      if type = .div ∧ p₂.ast.view p₂.ast.rootNodeIndex = some (.leaf (.int 0)) then
        p.state = .error
      else p.state = .done ∧ ∀ args, astEval p.ast args = (do
        let left ← astEval p₁.ast args
        let right ← astEval p₂.ast args
        type.apply left right) := by
  obtain ⟨hn, u₁, -, hread₁⟩ := parseSlice_done h₁ hd₁
  obtain ⟨-, u₂, -, hread₂⟩ := parseSlice_done h₂ hd₂
  obtain ⟨hlegible₁, d₁, hwords₁, hvalid₁, -⟩ := exists_derivation hread₁
  obtain ⟨hlegible₂, d₂, hwords₂, hvalid₂, -⟩ := exists_derivation hread₂
  obtain ⟨e₁, ht₁, hlen₁, -, hexpr₁⟩ := parseSlice_tree h₁ hd₁
  obtain ⟨e₂, ht₂, hlen₂, -, hexpr₂⟩ := parseSlice_tree h₂ hd₂
  have hwords := @words_composed code₁ code₂ type d₁ d₂ hwords₁ hwords₂
  have hvalid := @valid_composed names type d₁ d₂ hvalid₁ hvalid₂
  have hzero : d₂.literal = some 0 ↔ p₂.ast.view p₂.ast.rootNodeIndex = some (.leaf (.int 0)) := by
    have hrep : Representable 0 := by
      unfold Representable maxLiteral
      omega
    rw [literal_eq_iff hvalid₂ hrep, root_eq_int_iff ht₂ hlen₂, hexpr₂ d₂ hwords₂]
    rfl
  rw [hzero] at hvalid
  have hfit : IdentifiersFit names (composed type code₁ code₂) := by
    intro l name hl
    rw [legible_composed hwords₁ hwords₂ hvalid₁ hvalid₂ hlegible₁ hlegible₂] at hl
    cases hl
  obtain ⟨p, hp, hdone, herror⟩ := parsesExactly_of_fit hmem hfit
  refine ⟨p, hp, ?_⟩
  split_ifs with hdiv
  · refine herror fun ha => ?_
    obtain ⟨-, u, -, hread⟩ := parseSlice_done hp (hdone ha)
    exact hvalid.mp (expr_of_derivation hread hwords).1 hdiv
  · have hd := hdone ⟨hn, _, hwords, hvalid.mpr hdiv⟩
    obtain ⟨e, ht, hlen, -, hexpr⟩ := parseSlice_tree hp hd
    refine ⟨hd, fun args => ?_⟩
    rw [astEval_number ht hlen, hexpr _ hwords, expr_composed, astEval_number ht₁ hlen₁,
      astEval_number ht₂ hlen₂, hexpr₁ d₁ hwords₁, hexpr₂ d₂ hwords₂]
    simp only [Term.eval, meaning_bin]

theorem astEval_composed_quotient :
    ∃ p p₁ p₂, parseSlice Heap.unlimited (ascii "6 # six") [ascii "a"] = .ok p₁ ∧
      parseSlice Heap.unlimited (ascii "a") [ascii "a"] = .ok p₂ ∧
      parseSlice Heap.unlimited (composed .div (ascii "6 # six") (ascii "a")) [ascii "a"] = .ok p ∧
      (p.state = .done ∧ ∀ args, astEval p.ast args = (do
        let left ← astEval p₁.ast args
        let right ← astEval p₂.ast args
        BinaryType.div.apply left right)) := by
  obtain ⟨p₁, hp₁, hd₁⟩ := exists_of_map_eq_ok (b := ParserState.done)
    (show (parseSlice Heap.unlimited (ascii "6 # six") [ascii "a"]).map Parser.state = _ by
      decide +kernel)
  obtain ⟨p₂, hp₂, hdata⟩ := exists_of_map_eq_ok
    (b := (ParserState.done, false))
    (show (parseSlice Heap.unlimited (ascii "a") [ascii "a"]).map (fun p => (p.state,
      decide (p.ast.view p.ast.rootNodeIndex = some (.leaf (.int 0))))) = _ by decide +kernel)
  obtain ⟨hd₂, hroot⟩ := Prod.mk.inj hdata
  have hmem : AllocationsSucceed Heap.unlimited (composed .div (ascii "6 # six") (ascii "a"))
      [ascii "a"] := allocationsSucceed_of_error (by decide +kernel)
  obtain ⟨p, hp, hcase⟩ := astEval_composed hp₁ hd₁ hp₂ hd₂ hmem
  have hne : ¬ p₂.ast.view p₂.ast.rootNodeIndex = some (.leaf (.int 0)) := by simpa using hroot
  rw [if_neg (fun h => hne h.2)] at hcase
  exact ⟨p, p₁, p₂, hp₁, hp₂, hp, hcase⟩

end

end ParserExample
