import ParserExample.Library.Series
import ParserExample.Parser.PostOrder

/-!
# The grammar is unambiguous

A sentence has one derivation. The chains of the grammar are read from the left,
each element up to a word that cannot continue it. So the value of a program does
not depend on how it is derived, and the parser has no choice.
-/

namespace ParserExample

open Library Library.Series

def NonTerminal.continues : NonTerminal → Word → Prop
  | .addSub => fun w => (False ∨ ∃ op, MulDivOp.word op = w) ∨ ∃ op, AddSubOp.word op = w
  | .mulDiv => fun w => False ∨ ∃ op, MulDivOp.word op = w
  | .signed | .atom => fun _ => False

theorem AddSubOp.word_injective : Function.Injective AddSubOp.word := by
  rintro (_ | _) (_ | _) <;> simp

theorem MulDivOp.word_injective : Function.Injective MulDivOp.word := by
  rintro (_ | _) (_ | _) <;> simp

namespace Derivation

-- ---------------------------------------------------------------------------
-- The chains of a derivation
-- ---------------------------------------------------------------------------

def terms : Derivation .addSub → Series AddSubOp (Derivation .mulDiv)
  | .ofMulDiv e => ⟨e, []⟩
  | .addSub op left right => (terms left).snoc op right

def factors : Derivation .mulDiv → Series MulDivOp (Derivation .signed)
  | .ofSigned e => ⟨e, []⟩
  | .mulDiv op left right => (factors left).snoc op right

def ofTerms (c : Series AddSubOp (Derivation .mulDiv)) : Derivation .addSub :=
  c.rest.foldl (fun left p => .addSub p.1 left p.2) (.ofMulDiv c.first)

def ofFactors (c : Series MulDivOp (Derivation .signed)) : Derivation .mulDiv :=
  c.rest.foldl (fun left p => .mulDiv p.1 left p.2) (.ofSigned c.first)

theorem ofTerms_terms : (d : Derivation .addSub) → ofTerms d.terms = d
  | .ofMulDiv e => by rw [terms, ofTerms, List.foldl_nil]
  | .addSub op left right => by
    have h := ofTerms_terms left
    rw [ofTerms] at h ⊢
    simp only [terms, Series.snoc, List.foldl_append, List.foldl_cons, List.foldl_nil, h]

theorem ofFactors_factors : (d : Derivation .mulDiv) → ofFactors d.factors = d
  | .ofSigned e => by rw [factors, ofFactors, List.foldl_nil]
  | .mulDiv op left right => by
    have h := ofFactors_factors left
    rw [ofFactors] at h ⊢
    simp only [factors, Series.snoc, List.foldl_append, List.foldl_cons, List.foldl_nil, h]

theorem yield_terms : (d : Derivation .addSub) → d.yield = seriesYield AddSubOp.word yield d.terms
  | .ofMulDiv e => by rw [terms, seriesYield_single, yield]
  | .addSub op left right => by
    rw [terms, seriesYield_snoc, yield, yield_terms left]

theorem yield_factors : (d : Derivation .mulDiv) →
    d.yield = seriesYield MulDivOp.word yield d.factors
  | .ofSigned e => by rw [factors, seriesYield_single, yield]
  | .mulDiv op left right => by
    rw [factors, seriesYield_snoc, yield, yield_factors left]

-- ---------------------------------------------------------------------------
-- Signs and atoms
-- ---------------------------------------------------------------------------

theorem head_atom : (e : Derivation .atom) → ∃ w ws, e.yield = w :: ws ∧ ∀ op, AddSubOp.word op ≠ w
  | .ident name => ⟨_, _, rfl, by rintro (_ | _) <;> simp⟩
  | .int digits => ⟨_, _, rfl, by rintro (_ | _) <;> simp⟩
  | .paren e => ⟨_, _, rfl, by rintro (_ | _) <;> simp⟩

theorem signs_determined {signs signs' : List AddSubOp} {w w' : Word} {ws ws' : List Word}
    (hw : ∀ op, AddSubOp.word op ≠ w) (hw' : ∀ op, AddSubOp.word op ≠ w')
    (h : signs.map AddSubOp.word ++ w :: ws = signs'.map AddSubOp.word ++ w' :: ws') :
    signs = signs' ∧ w :: ws = w' :: ws' := by
  induction signs generalizing signs' with
  | nil =>
    cases signs' with
    | nil => exact ⟨rfl, h⟩
    | cons op signs' => exact absurd (List.cons_eq_cons.mp h).1.symm (hw op)
  | cons op signs ih =>
    cases signs' with
    | nil => exact absurd (List.cons_eq_cons.mp h).1 (hw' op)
    | cons op' signs' =>
      obtain ⟨hop, hrest⟩ := List.cons_eq_cons.mp h
      obtain ⟨rfl, hatom⟩ := ih hrest
      exact ⟨by rw [AddSubOp.word_injective hop], hatom⟩

-- ---------------------------------------------------------------------------
-- Derivations
-- ---------------------------------------------------------------------------

def ElementsDetermined : {nt : NonTerminal} → Derivation nt → Prop
  | .addSub, d => ∀ a ∈ d.terms.elements, Determined (NonTerminal.continues .mulDiv) yield a
  | .mulDiv, d => ∀ a ∈ d.factors.elements, Determined (NonTerminal.continues .signed) yield a
  | _, _ => True

theorem determined_of_terms {d : Derivation .addSub} (h : d.ElementsDetermined) :
    Determined (NonTerminal.continues .addSub) yield d := by
  intro d' ws ws' hws hws' heq
  rw [yield_terms, yield_terms] at heq
  have hop : ∀ op : AddSubOp, ¬ NonTerminal.continues .mulDiv op.word := by
    rintro (_ | _) (⟨⟨⟩⟩ | ⟨(_ | _), ⟨⟩⟩)
  obtain ⟨hterms, hrest⟩ :=
    Series.determined AddSubOp.word_injective hop h d'.terms ws ws' hws hws' heq
  exact ⟨by rw [← ofTerms_terms d, hterms, ofTerms_terms], hrest⟩

theorem determined_of_factors {d : Derivation .mulDiv} (h : d.ElementsDetermined) :
    Determined (NonTerminal.continues .mulDiv) yield d := by
  intro d' ws ws' hws hws' heq
  rw [yield_factors, yield_factors] at heq
  obtain ⟨hfactors, hrest⟩ :=
    Series.determined MulDivOp.word_injective (fun _ => id) h d'.factors ws ws' hws hws' heq
  exact ⟨by rw [← ofFactors_factors d, hfactors, ofFactors_factors], hrest⟩

/-- What is derived from a nonterminal is determined by its words, up to one that
cannot continue it. -/
theorem determined {nt : NonTerminal} (d : Derivation nt) :
    d.ElementsDetermined ∧ Determined nt.continues yield d := by
  induction d with
  | ofMulDiv e ih =>
    have h : (Derivation.ofMulDiv e).ElementsDetermined := by
      rintro a ha
      obtain rfl : a = e := by simpa [terms, Series.elements] using ha
      exact ih.2
    exact ⟨h, determined_of_terms h⟩
  | addSub op left right ihl ihr =>
    have h : (Derivation.addSub op left right).ElementsDetermined := by
      rintro a ha
      rw [terms, Series.elements_snoc, List.mem_append, List.mem_singleton] at ha
      rcases ha with ha | rfl
      · exact ihl.1 a ha
      · exact ihr.2
    exact ⟨h, determined_of_terms h⟩
  | ofSigned e ih =>
    have h : (Derivation.ofSigned e).ElementsDetermined := by
      rintro a ha
      obtain rfl : a = e := by simpa [factors, Series.elements] using ha
      exact ih.2
    exact ⟨h, determined_of_factors h⟩
  | mulDiv op left right ihl ihr =>
    have h : (Derivation.mulDiv op left right).ElementsDetermined := by
      rintro a ha
      rw [factors, Series.elements_snoc, List.mem_append, List.mem_singleton] at ha
      rcases ha with ha | rfl
      · exact ihl.1 a ha
      · exact ihr.2
    exact ⟨h, determined_of_factors h⟩
  | signed signs e ih =>
    refine ⟨trivial, fun d' ws ws' hws hws' heq => ?_⟩
    cases d' with
    | signed signs' e' =>
      obtain ⟨w, tail, hw, hne⟩ := head_atom e
      obtain ⟨w', tail', hw', hne'⟩ := head_atom e'
      simp only [yield, List.append_assoc, hw, hw', List.cons_append] at heq
      obtain ⟨rfl, hatom⟩ := signs_determined hne hne' heq
      rw [← List.cons_append, ← List.cons_append, ← hw, ← hw'] at hatom
      obtain ⟨rfl, hrest⟩ := ih.2 e' ws ws' hws hws' hatom
      exact ⟨rfl, hrest⟩
  | ident name =>
    refine ⟨trivial, fun d' ws ws' hws hws' heq => ?_⟩
    cases d' <;> simp_all
  | int digits =>
    refine ⟨trivial, fun d' ws ws' hws hws' heq => ?_⟩
    cases d' <;> simp_all
  | paren e ih =>
    refine ⟨trivial, fun d' ws ws' hws hws' heq => ?_⟩
    have hclose (ws : List Word) : Series.Stops (NonTerminal.continues .addSub) (.parenClose :: ws) := by
      rintro w ⟨⟩ ((⟨⟨⟩⟩ | ⟨(_ | _), ⟨⟩⟩) | ⟨(_ | _), ⟨⟩⟩)
    cases d' with
    | paren e' =>
      simp only [yield, List.cons_append, List.append_assoc, List.cons.injEq, true_and,
        List.nil_append] at heq
      obtain ⟨rfl, hrest⟩ := ih.2 e' _ _ (hclose ws) (hclose ws') heq
      exact ⟨rfl, (List.cons_eq_cons.mp hrest).2⟩
    | _ => simp at heq

/-- The words of a derivation have no other one. -/
theorem yield_injective (nt : NonTerminal) :
    Function.Injective (yield : Derivation nt → List Word) := by
  intro d d' h
  have hstops : Series.Stops nt.continues [] := fun _ hw => by cases hw
  exact (d.determined.2 d' [] [] hstops hstops (by rw [h])).1

end Derivation

-- ---------------------------------------------------------------------------
-- Programs
-- ---------------------------------------------------------------------------

section
variable {heap : Heap} {code : Bytes} {names : List Bytes} {p : Parser}

/-- A program that the parser accepts has one derivation. -/
theorem parseSlice_existsUnique (h : parseSlice heap code names = .ok p) (hd : p.state = .done) :
    ∃! e : Derivation .addSub, words code = e.yield ++ [.eof] := by
  obtain ⟨-, t, -, hr⟩ := parseSlice_done h hd
  obtain ⟨-, e, hwords, -⟩ := exists_derivation hr
  refine ⟨e, hwords, fun e' hwords' => ?_⟩
  exact Derivation.yield_injective _ (List.append_cancel_right (hwords'.symm.trans hwords))

theorem parseSlice_existsUnique_quotient :
    ∃! e : Derivation .addSub, words (ascii "a / -(2 - -b)") = e.yield ++ [.eof] := by
  obtain ⟨p, hp, hd⟩ := exists_of_map_eq_ok quotient_done
  exact parseSlice_existsUnique hp hd

end

end ParserExample
