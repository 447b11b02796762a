import ParserExample.Optimizer.Constants
import ParserExample.Pipeline
import ParserExample.Printer.Reparse

/-!
# Printing optimized programs

The text of an optimized program stands for the optimized tree, but it need not be
a program: the optimizer computes constants and divisors that the parser rejects.
Where it produces none of these, the text is parsed to the tree that was printed,
which the optimizer then leaves as it is.
-/

namespace ParserExample

open Library
open ParserExample.Expr (int var inv)

/-- Every constant can be written down, and nothing is divided by the constant 0. -/
def Printable (e : Expr) : Prop :=
  (∀ value, .int value ∈ e.leaves → -(maxLiteral : Int) < value.toInt) ∧ ¬ DividesByZero e

section
variable {names : List Bytes} {e l r t : Expr} {g : BinaryType} {f : Unit} {argc : Nat}

theorem printable_bin : Printable (.bin g l r) ↔
    Printable l ∧ Printable r ∧ ¬ (g = .div ∧ r = int 0) := by
  simp only [Printable, Term.leaves, List.mem_append, DividesByZero, not_or, or_imp, forall_and]
  tauto

theorem Normal.folded_iff (h : Normal e) (hv : ∀ a, .var a ∈ e.leaves → a < argc) :
    Folded argc e ↔ Printable e := by
  induction e with
  | leaf a =>
    cases a with
    | int value => simp [Folded, Printable, DividesByZero]
    | var a => simpa [Folded, Printable, DividesByZero] using hv a
  | un f t ih =>
    have hint : ∀ value, t ≠ int value := by
      rintro value rfl
      exact h.2 (.inl ⟨_, .invInt⟩)
    exact (and_iff_left hint).trans (ih h.1 hv)
  | bin g l r ihl ihr =>
    rw [printable_bin, ← ihl h.1 fun a ha => hv a (by simp [ha]),
      ← ihr h.2.1 fun a ha => hv a (by simp [ha])]
    simp [Folded]

/-- Signs are in front of no literal, since a normal expression has one negation at
most at its root and none of a constant. -/
theorem Normal.literal_atom (h : Normal e) (hint : ∀ value, e ≠ int value) :
    (Expr.atom names e).literal = none := by
  rcases e with (value | a) | ⟨f, t⟩ | ⟨g, l, r⟩
  · exact absurd rfl (hint value)
  · rfl
  · rcases t with (value | a) | ⟨f', t⟩ | ⟨g, l, r⟩
    · exact absurd (.inl ⟨_, .invInt⟩) h.2
    · rfl
    · exact absurd (.inl ⟨_, .invInv⟩) h.2
    · cases g <;> rfl
  · cases g <;> rfl

theorem Normal.folded (h : Normal e) (hv : ∀ a, .var a ∈ e.leaves → a < names.length)
    (hvalid : (Expr.printed names e).Valid names) : Folded names.length e := by
  induction e with
  | leaf a =>
    cases a with
    | int value =>
      obtain ⟨hle, hmax⟩ := hvalid
      simp only [Expr.atom, Derivation.Valid, decimal_formatNat] at hle
      show -(maxLiteral : Int) < value.toInt
      by_cases hneg : value.toInt < 0
      · have hne := hmax (by simp [Expr.signs, hneg, negates])
        simp only [Expr.atom, Derivation.literal, decimal_formatNat, ne_eq,
          Option.some.injEq] at hne
        omega
      · unfold maxLiteral
        omega
    | var a => exact hv a (by simp)
  | un f t ih =>
    have hint : ∀ value, t ≠ int value := by
      rintro value rfl
      exact h.2 (.inl ⟨_, .invInt⟩)
    refine ⟨ih h.1 hv ⟨hvalid.1, fun _ => ?_⟩, hint⟩
    rw [h.1.literal_atom hint]
    exact (Option.some_ne_none _).symm
  | bin g l r ihl ihr =>
    have hparts : (Expr.printed names l).Valid names ∧ (Expr.printed names r).Valid names ∧
        (g = .div → (Expr.printed names r).literal ≠ some 0) := by
      have hparen := hvalid.1
      cases g with
      | add => exact ⟨hparen.1, hparen.2, fun hdiv => by cases hdiv⟩
      | sub => exact ⟨hparen.1, hparen.2, fun hdiv => by cases hdiv⟩
      | mul => exact ⟨hparen.1, hparen.2.1, fun hdiv => by cases hdiv⟩
      | div => exact ⟨hparen.1, hparen.2.1, fun _ => hparen.2.2 rfl⟩
    refine ⟨ihl h.1 (fun a ha => hv a (by simp [ha])) hparts.1,
      ihr h.2.1 (fun a ha => hv a (by simp [ha])) hparts.2.1, ?_⟩
    rintro hdiv rfl
    exact hparts.2.2 hdiv (literal_printed_int 0)

theorem Normal.cancelInv (h : Normal e) : cancelInv e = e := by
  fun_induction ParserExample.cancelInv e with
  | case1 a => rfl
  | case2 f g t ih => exact absurd (.inl ⟨_, .invInv⟩) h.2
  | case3 f t hun ih => rw [ih h.1]
  | case4 g l r ihl ihr => rw [ihl h.1, ihr h.2.1]

end

-- ---------------------------------------------------------------------------
-- Optimized programs
-- ---------------------------------------------------------------------------

section
variable {heap : Heap} {code : Bytes} {names : List Bytes} {p : Parser} {ast ast' : Ast}
  {t : SlotTree}

theorem Ast.astPrint_eq (h : Holds ast.view t) (hs : t.slot = ast.rootNodeIndex)
    (hd : t.erase.depth ≤ ast.nodesUsed) (hv : ∀ a, .var a ∈ t.erase.leaves → a < names.length) :
    astPrint ast names = .ok (Expr.text names t.erase) := by
  have hpos : 0 < ast.nodesUsed := t.erase.depth_pos.trans_le hd
  rw [astPrint, if_neg (by omega), ← hs, nodePrint_eq h hd hv]

/-- The parser rejects the text of an optimized program, or it gets the optimized
tree back. It rejects constants that cannot be written and divisions by 0. -/
theorem parseString_optimize (h : parseSlice heap code names = .ok p) (hd : p.state = .done)
    (ho : optimize p.ast = .ok ast') :
    ∃ (t : SlotTree) (text : Bytes), Holds ast'.view t ∧ t.slot = ast'.rootNodeIndex ∧
      astPrint ast' names = .ok text ∧
      ∀ heap', AllocationsSucceed heap' text names → IdentifiersFit names text →
        ∃ q, parseString heap' text names = .ok q ∧
          (Printable t.erase → q.state = .done ∧ q.ast.ListsPostOrder (t.erase.number 0) ∧
            optimize q.ast = .ok q.ast) ∧
          (¬ Printable t.erase → q.state = .error) := by
  obtain ⟨hnames, -⟩ := parseSlice_done h hd
  obtain ⟨e, hlists, hlen, hf, -⟩ := parseSlice_tree h hd
  obtain ⟨t, visited, hu, hr⟩ := optimize_ok_run hlists.holds (hlists.slots ▸ List.nodup_range)
    (Ast.slot_number hlists hlen) ho
  have hnodup := hu.nodup (hlists.slots ▸ List.nodup_range)
  have hroot := hu.root (Ast.slot_number hlists hlen)
  have hnormal := hr.normal
  have hv : ∀ a, .var a ∈ t.erase.leaves → a < names.length := by
    intro a ha
    have hvar := hr.respects varsIn_respected a ha
    rw [Term.erase_number] at hvar
    exact hf.var_lt hvar
  have hdepth := t.erase.depth_le_size.trans (size_le_nodesUsed hu.holds hnodup)
  refine ⟨t, _, hu.holds, hroot, Ast.astPrint_eq hu.holds hroot hdepth hv,
    fun heap' hmem hfit => ?_⟩
  have hzero : (Expr.text names t.erase).takeWhile (· ≠ 0) = Expr.text names t.erase :=
    List.takeWhile_eq_self_iff.mpr fun sym hs => by simpa using text_ne_zero hnames hv hs
  have htext : words (Expr.text names t.erase) =
      (Derivation.ofMulDiv (.ofSigned (Expr.printed names t.erase))).yield ++ [.eof] := by
    have happend := @words_append_text names t.erase [] hnames hv nofun
    simpa [words_nil] using happend
  obtain ⟨q, hq, hdone, herror⟩ := parsesExactly_of_fit hmem hfit
  refine ⟨q, by rw [parseString, hzero, hq], fun hprint => ?_, fun hprint => herror fun ha => ?_⟩
  · have hfolded := (hnormal.folded_iff hv).mpr hprint
    have hqd := hdone ⟨hnames, _, htext, valid_printed hfolded⟩
    obtain ⟨e', ht', hlen', -, hexpr'⟩ := parseSlice_tree hq hqd
    obtain rfl : e' = t.erase :=
      (hexpr' _ htext).trans ((expr_printed hnames hfolded).trans hnormal.cancelInv)
    refine ⟨hqd, ht', ?_⟩
    rw [optimize, ← Ast.slot_number ht' hlen']
    refine nodeOptimizeRecursive_stop ht'.holds (ht'.slots ▸ List.nodup_range) ?_ ?_
    · rw [Term.erase_number, hlen']
      exact t.erase.depth_le_size.trans (Nat.le_succ _)
    · rwa [Term.erase_number]
  · -- the parser would have read the derivation that is the text
    obtain ⟨-, t', -, hread⟩ := parseSlice_done hq (hdone ha)
    have hvalid := (expr_of_derivation hread htext).1
    exact hprint ((hnormal.folded_iff hv).mp (hnormal.folded hv hvalid))

theorem parseString_optimize_sum :
    ∃ p ast' q, parseSlice Heap.unlimited (ascii "1 + (2 + a)") [ascii "a"] = .ok p ∧
      optimize p.ast = .ok ast' ∧ astPrint ast' [ascii "a"] = .ok (ascii "(3 + a)") ∧
      parseString Heap.unlimited (ascii "(3 + a)") [ascii "a"] = .ok q ∧
      q.state = .done ∧ optimize q.ast = .ok q.ast := by
  obtain ⟨p, hp, hsum⟩ := exists_of_map_eq_ok sum_optimized
  obtain ⟨hd, hok⟩ := Prod.mk.inj hsum
  have hprint : (parseSlice Heap.unlimited (ascii "1 + (2 + a)") [ascii "a"]).bind (fun p =>
      (optimize p.ast).bind fun ast' => astPrint ast' [ascii "a"]) = .ok (ascii "(3 + a)") := by
    decide +kernel
  cases ho : optimize p.ast with
  | error f => simp [ho, Except.isOk, Except.toBool] at hok
  | ok ast' =>
    obtain ⟨t, text, -, -, htext, hall⟩ := parseString_optimize hp hd ho
    obtain rfl : text = ascii "(3 + a)" := by
      simpa [hp, Except.bind, ho, htext] using hprint
    obtain ⟨q, hq, hdone, herror⟩ := hall Heap.unlimited
      (allocationsSucceed_of_error (by decide +kernel)) fun l name hl => by
        simp [show obstacle (ascii "(3 + a)") = none by decide +kernel] at hl
    have hprintable : Printable t.erase := by
      by_contra hnot
      have hstate : (parseString Heap.unlimited (ascii "(3 + a)") [ascii "a"]).map
        Parser.state = .ok .done := by decide +kernel
      simp [hq, Except.map, herror hnot] at hstate
    exact ⟨p, ast', q, hp, ho, htext, hq, (hdone hprintable).1, (hdone hprintable).2.2⟩

end

end ParserExample
