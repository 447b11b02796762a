import ParserExample.Parser.PostOrder
import ParserExample.Parser.Words
import ParserExample.Printer

/-!
# Printing and parsing

The text of an expression is cut back into the words of a derivation, the one
that `Expr.printed` spells out. The expression of that derivation is the one
printed, with double negations cancelled.
-/

namespace ParserExample

open Library

-- ---------------------------------------------------------------------------
-- The words of a printed text
-- ---------------------------------------------------------------------------

def BinaryType.word : BinaryType → Word
  | .add => .plus
  | .sub => .minus
  | .mul => .mul
  | .div => .div

theorem words_binaryType (type : BinaryType) (rest : Bytes) :
    words (type.text ++ rest) = type.word :: words rest := by
  cases type <;>
    exact (words_space _).trans
      ((words_sym _ (by decide) (fun _ => rfl) rfl rfl).trans (congrArg _ (words_space rest)))

-- ---------------------------------------------------------------------------
-- The derivation of a text
-- ---------------------------------------------------------------------------

def BinaryType.derivation (l r : Derivation .signed) : BinaryType → Derivation .addSub
  | .add => .addSub .plus (.ofMulDiv (.ofSigned l)) (.ofSigned r)
  | .sub => .addSub .minus (.ofMulDiv (.ofSigned l)) (.ofSigned r)
  | .mul => .ofMulDiv (.mulDiv .mul (.ofSigned l) r)
  | .div => .ofMulDiv (.mulDiv .div (.ofSigned l) r)

def Expr.signs : Expr → List AddSubOp
  | .leaf (.int value) => if value.toInt < 0 then [.minus] else []
  | .leaf (.var _) => []
  | .un _ t => .minus :: Expr.signs t
  | .bin _ _ _ => []

def Expr.atom (names : List Bytes) : Expr → Derivation .atom
  | .leaf (.int value) => .int (formatNat value.toInt.natAbs)
  | .leaf (.var argIndex) => .ident (names[argIndex]?.getD [])
  | .un _ t => Expr.atom names t
  | .bin type l r =>
    .paren (type.derivation (.signed (Expr.signs l) (Expr.atom names l))
      (.signed (Expr.signs r) (Expr.atom names r)))

def Expr.printed (names : List Bytes) (e : Expr) : Derivation .signed :=
  .signed (Expr.signs e) (Expr.atom names e)

/-- Two negations in a row cancel out. -/
def cancelInv : Expr → Expr
  | .leaf a => .leaf a
  | .un _ (.un _ t) => cancelInv t
  | .un _ t => .un () (cancelInv t)
  | .bin type l r => .bin type (cancelInv l) (cancelInv r)

section
variable {names : List Bytes}

theorem formatLong_eq (value : Long) : formatLong value =
    (if value.toInt < 0 then [byte '-'] else []) ++ formatNat value.toInt.natAbs := by
  unfold formatLong
  split
  · rw [show (-value.toInt).toNat = value.toInt.natAbs by omega]
    rfl
  · rw [show value.toInt.toNat = value.toInt.natAbs by omega]
    rfl

@[simp] theorem yield_derivation (l r : Derivation .signed) (type : BinaryType) :
    (type.derivation l r).yield = l.yield ++ type.word :: r.yield := by
  cases type <;> rfl

@[simp] theorem yield_printed_bin (type : BinaryType) (l r : Expr) :
    (Expr.printed names (.bin type l r)).yield = .parenOpen ::
      ((Expr.printed names l).yield ++ type.word :: (Expr.printed names r).yield ++
        [.parenClose]) := by
  simp [Expr.printed, Expr.signs, Expr.atom]

theorem Folded.var_lt {argc argIndex : Nat} {e : Expr} (he : Folded argc e)
    (h : .var argIndex ∈ e.leaves) : argIndex < argc := by
  induction e with
  | leaf a =>
    obtain rfl : .var argIndex = a := by simpa using h
    exact he
  | un f t ih => exact ih he.1 h
  | bin type l r ihl ihr =>
    rcases List.mem_append.mp h with h | h
    · exact ihl he.1 h
    · exact ihr he.2.1 h

theorem words_append_text {e : Expr} {rest : Bytes} (hnames : NamesValid names)
    (he : ∀ a, .var a ∈ e.leaves → a < names.length) (hrest : Separated rest) :
    words (Expr.text names e ++ rest) = (Expr.printed names e).yield ++ words rest := by
  have hsep (sym : UInt8) (rest : Bytes) (h : isIdentTail sym = false) :
      Separated (sym :: rest) := by
    rintro a ⟨⟩
    exact h
  induction e generalizing rest with
  | leaf a =>
    cases a with
    | int value =>
      have hdigits := words_digits (formatNat_ne_nil value.toInt.natAbs)
        (fun _ h => (isDigit_of_mem_formatNat h).1) hrest
      rw [Expr.text, ← formatLong_toString, formatLong_eq, List.append_assoc]
      simp only [Expr.printed, Expr.signs, Expr.atom]
      split
      · rw [List.singleton_append, words_minus, hdigits]
        rfl
      · rw [List.nil_append, hdigits]
        rfl
    | var argIndex =>
      have hlt : argIndex < names.length := he argIndex (by simp)
      have hname := words_name (hnames.1 _ (List.getElem_mem hlt)) hrest
      simpa [Expr.text, Expr.printed, Expr.signs, Expr.atom, hlt] using hname
  | un f t ih =>
    rw [Expr.text, List.cons_append, words_minus, ih he hrest]
    rfl
  | bin type l r ihl ihr =>
    have hclose := ihr (fun a ha => he a (by simp [ha])) (hsep (byte ')') rest (by decide))
    have hop := @ihl (type.text ++ (Expr.text names r ++ byte ')' :: rest))
      (fun a ha => he a (by simp [ha])) (by cases type <;> exact hsep _ _ (by decide))
    rw [words_binaryType, hclose, words_parenClose] at hop
    simp only [Expr.text, List.append_assoc, List.cons_append, List.nil_append, words_parenOpen,
      hop, yield_printed_bin]

theorem words_text {e : Expr} {rest : Bytes} (hnames : NamesValid names)
    (he : Folded names.length e) (hrest : Separated rest) :
    words (Expr.text names e ++ rest) = (Expr.printed names e).yield ++ words rest :=
  words_append_text hnames (fun _ => he.var_lt) hrest

-- ---------------------------------------------------------------------------
-- The derivation is valid
-- ---------------------------------------------------------------------------

theorem decimal_formatNat (n : Nat) : decimal (formatNat n) = n := by
  have hdigit : ∀ d < 10, digitValue (byte '0' + UInt8.ofNat d) = d := by decide
  unfold formatNat
  split
  · rename_i hn
    rw [hn]
    rfl
  · have hmap : (Nat.digits 10 n).map (fun d => digitValue (byte '0' + UInt8.ofNat d)) =
        Nat.digits 10 n := by
      refine (List.map_congr_left fun d hd => ?_).trans (List.map_id _)
      exact hdigit d (Nat.digits_lt_base (by decide) hd)
    simp only [decimal, List.map_reverse, List.reverse_reverse, List.map_map, Function.comp_def,
      hmap, Nat.ofDigits_digits]

theorem literal_printed_int (value : Long) :
    (Expr.printed names (.int value)).literal = some value.toInt := by
  simp only [Expr.printed, Derivation.literal, Expr.atom, Expr.signs, decimal_formatNat,
    Option.map_some, Option.some.injEq]
  by_cases hneg : value.toInt < 0
  · rw [if_pos hneg, if_pos (by decide)]
    omega
  · rw [if_neg hneg, if_neg (by decide)]
    omega

/-- Signs in front of anything but an integer are in front of no literal. -/
theorem literal_atom {argc : Nat} {e : Expr} (he : Folded argc e)
    (hint : ∀ value, e ≠ Expr.int value) : (Expr.atom names e).literal = none := by
  induction e with
  | leaf a =>
    cases a with
    | int value => exact absurd rfl (hint value)
    | var argIndex => rfl
  | un f t ih => exact ih he.1 he.2
  | bin type l r => cases type <;> rfl

theorem literal_printed_eq_zero {argc : Nat} {e : Expr} (he : Folded argc e)
    (h : (Expr.printed names e).literal = some 0) : e = Expr.int 0 := by
  by_cases hint : ∃ value, e = Expr.int value
  · obtain ⟨value, rfl⟩ := hint
    rw [literal_printed_int, Option.some.injEq] at h
    rw [Int64.toInt_inj.mp (h.trans Int64.toInt_zero.symm)]
  · rw [Expr.printed, Derivation.literal, literal_atom he (not_exists.mp hint)] at h
    cases h

theorem valid_printed {e : Expr} (he : Folded names.length e) :
    (Expr.printed names e).Valid names := by
  induction e with
  | leaf a =>
    cases a with
    | int value =>
      have hlow : -(maxLiteral : Int) < value.toInt := he
      have hhigh := value.toInt_lt
      simp only [Expr.printed, Expr.signs, Expr.atom, Derivation.Valid, Derivation.literal,
        decimal_formatNat]
      refine ⟨by unfold maxLiteral at *; omega, fun hneg hmax => ?_⟩
      rw [Option.some.injEq, Nat.cast_inj] at hmax
      split at hneg
      · omega
      · simp [negates] at hneg
    | var argIndex =>
      have hlt : argIndex < names.length := he
      simp [Expr.printed, Expr.signs, Expr.atom, hlt]
  | un f t ih =>
    refine ⟨(ih he.1).1, fun _ => ?_⟩
    rw [Expr.atom, literal_atom he.1 he.2]
    exact (Option.some_ne_none _).symm
  | bin type l r ihl ihr =>
    refine ⟨?_, fun hneg => by simp [Expr.signs, negates] at hneg⟩
    have hl := ihl he.1
    have hr := ihr he.2.1
    have hzero := fun hdiv h => he.2.2 hdiv (@literal_printed_eq_zero names _ _ he.2.1 h)
    cases type with
    | add => exact ⟨hl, hr⟩
    | sub => exact ⟨hl, hr⟩
    | mul => exact ⟨hl, hr, fun h => by cases h⟩
    | div => exact ⟨hl, hr, fun _ => hzero rfl⟩

-- ---------------------------------------------------------------------------
-- The expression of the derivation
-- ---------------------------------------------------------------------------

theorem expr_printed_int (value : Long) :
    (Expr.printed names (.int value)).expr names = Expr.int value := by
  simp only [Expr.printed, Expr.signs, Expr.atom, Derivation.expr, decimal_formatNat]
  have hofInt : Int64.ofNat value.toInt.natAbs = Int64.ofInt value.toInt.natAbs := rfl
  by_cases hneg : value.toInt < 0
  · rw [if_pos hneg, if_pos (by decide), negate, hofInt, ← Int64.ofInt_neg,
      show -(value.toInt.natAbs : Int) = value.toInt by omega, Int64.ofInt_toInt]
  · rw [if_neg hneg, if_neg (by decide), hofInt,
      show (value.toInt.natAbs : Int) = value.toInt by omega, Int64.ofInt_toInt]

theorem expr_derivation (l r : Derivation .signed) (type : BinaryType) :
    (type.derivation l r).expr names = .bin type (l.expr names) (r.expr names) := by
  cases type <;> rfl

theorem signs_eq_nil {t : Expr} (hint : ∀ value, t ≠ Expr.int value) (hun : ∀ u, t ≠ Expr.inv u) :
    Expr.signs t = [] := by
  cases t with
  | leaf a =>
    cases a with
    | int value => exact absurd rfl (hint value)
    | var argIndex => rfl
  | un f u => exact absurd rfl (hun u)
  | bin type l r => rfl

theorem expr_printed {e : Expr} (hnames : NamesValid names) (he : Folded names.length e) :
    (Expr.printed names e).expr names = cancelInv e := by
  fun_induction cancelInv e with
  | case1 a =>
    cases a with
    | int value => exact expr_printed_int value
    | var argIndex =>
      have hlt : argIndex < names.length := he
      simp [Expr.printed, Expr.signs, Expr.atom, Derivation.expr, hlt,
        hnames.2.idxOf_getElem argIndex hlt]
  | case2 f g t ih =>
    rw [← ih he.1.1]
    simp [Expr.printed, Expr.signs, Expr.atom, Derivation.expr]
  | case3 f t hun ih =>
    have hsigns := signs_eq_nil he.2 fun u => hun () u
    have hatom : (Expr.atom names t).expr names = cancelInv t := by
      simpa [Expr.printed, Derivation.expr, hsigns] using ih he.1
    rw [Expr.printed, Expr.signs, Expr.atom, hsigns, Derivation.expr, if_pos (by decide), hatom]
    cases t with
    | leaf a =>
      cases a with
      | int value => exact absurd rfl (he.2 value)
      | var argIndex => rfl
    | un g u => exact absurd rfl (hun g u)
    | bin type l r => rfl
  | case4 type l r ihl ihr =>
    rw [Expr.printed, Expr.signs, Expr.atom, Derivation.expr, if_neg (by decide), Derivation.expr,
      expr_derivation, ← ihl he.1, ← ihr he.2.1]
    rfl

theorem eval_cancelInv (e : Expr) (args : List Long) :
    (cancelInv e).eval (meaning args) = e.eval (meaning args) := by
  fun_induction cancelInv e with
  | case1 a => rfl
  | case2 f g t ih =>
    rw [ih]
    cases h : t.eval (meaning args) <;> simp [Term.eval, h]
  | case3 f t hun ih => simp only [Term.eval, ih]
  | case4 type l r ihl ihr => simp only [Term.eval, ihl, ihr]

theorem leaves_cancelInv (e : Expr) : (cancelInv e).leaves = e.leaves := by
  fun_induction cancelInv e <;> simp_all

-- ---------------------------------------------------------------------------
-- The buffer
-- ---------------------------------------------------------------------------

def Word.name? : Word → Option Bytes
  | .ident name => some name
  | _ => none

/-- The lexer gets past identifiers of these names. -/
def NamesFit : Nat → List Bytes → Prop
  | _, [] => True
  | capacity, name :: rest => (Word.ident name).isReadable capacity = true ∧
      NamesFit ((Word.ident name).capacityAfter capacity) rest

/-- The lexer gets through a code if and only if it gets past its names and
past every word that is no name. -/
theorem readable_eq_none_iff {capacity : Nat} {ls : List Lexeme}
    (h : ∀ l ∈ ls, l.word.name? = none → ∀ capacity', l.word.isReadable capacity' = true) :
    (readable capacity ls).2 = none ↔
      NamesFit capacity ((ls.map Lexeme.word).filterMap Word.name?) := by
  induction ls generalizing capacity with
  | nil => simp [readable, NamesFit]
  | cons l ls ih =>
    have ih (capacity : Nat) := @ih capacity fun l' hl' => h l' (.tail _ hl')
    have hl := h l List.mem_cons_self
    rw [readable, List.map_cons]
    cases hw : l.word with
    | ident name =>
      rw [List.filterMap_cons_some (f := Word.name?) rfl, NamesFit, ← ih]
      split <;> simp_all
    | _ =>
      rw [hw] at hl
      rw [List.filterMap_cons_none rfl, ← ih]
      simp [hl rfl capacity, Word.capacityAfter]

def Leaf.name? (names : List Bytes) : Leaf → Option Bytes
  | .int _ => none
  | .var argIndex => names[argIndex]?

def Expr.varNames (names : List Bytes) (e : Expr) : List Bytes :=
  e.leaves.filterMap (Leaf.name? names)

theorem varNames_negate (t : Expr) : Expr.varNames names (negate t) = Expr.varNames names t := by
  unfold negate
  split <;> rfl

theorem varNames_expr {nt : NonTerminal} {d : Derivation nt} (h : d.Valid names) :
    Expr.varNames names (d.expr names) = d.yield.filterMap Word.name? := by
  have hbin (type : BinaryType) (l r : Expr) : Expr.varNames names (.bin type l r) =
      Expr.varNames names l ++ Expr.varNames names r := by
    simp [Expr.varNames]
  induction d with
  | addSub op left right ihl ihr =>
    rw [Derivation.expr, hbin, ihl h.1, ihr h.2, Derivation.yield, List.filterMap_append]
    cases op <;> rfl
  | mulDiv op left right ihl ihr =>
    rw [Derivation.expr, hbin, ihl h.1, ihr h.2.1, Derivation.yield, List.filterMap_append]
    cases op <;> rfl
  | signed signs d ih =>
    have hsigns : (signs.map AddSubOp.word).filterMap Word.name? = [] := by
      rw [List.filterMap_map, List.filterMap_eq_nil_iff]
      rintro (_ | _) - <;> rfl
    rw [Derivation.expr, apply_ite (Expr.varNames names), varNames_negate, ite_self, ih h.1,
      Derivation.yield, List.filterMap_append, hsigns, List.nil_append]
  | ident name =>
    have hname : names[names.idxOf name]? = some name := List.getElem?_idxOf h
    simp [Expr.varNames, Derivation.expr, Leaf.name?, Word.name?, hname]
  | int digits => rfl
  | ofMulDiv d ih => exact ih h
  | ofSigned d ih => exact ih h
  | paren d ih =>
    rw [Derivation.expr, ih h, Derivation.yield, List.filterMap_cons_none (f := Word.name?) rfl,
      List.filterMap_append, show List.filterMap Word.name? [.parenClose] = [] from rfl,
      List.append_nil]

/-- The lexer gets through words of which it gets past all that are no names if and
only if the names fit. -/
theorem legible_iff {code : Bytes} {ws : List Word} (hwords : words code = ws ++ [.eof])
    (h : ∀ w ∈ ws, (∃ name, w = .ident name) ∨ ∀ capacity, w.isReadable capacity = true) :
    obstacle code = none ↔ NamesFit 0 (ws.filterMap Word.name?) := by
  rw [obstacle, readable_eq_none_iff, ← words, hwords, List.filterMap_append]
  · rw [show List.filterMap Word.name? [.eof] = [] from rfl, List.append_nil]
  · intro l hl hname capacity
    have hmem : l.word ∈ ws ++ [.eof] := hwords ▸ List.mem_map_of_mem hl
    rcases List.mem_append.mp hmem with hmem | hmem
    · rcases h _ hmem with ⟨name, hident⟩ | hr
      · rw [hident] at hname
        cases hname
      · exact hr capacity
    · rw [List.mem_singleton.mp hmem]
      rfl

/-- The lexer gets through a program of the language if and only if the names
of its variables fit. -/
theorem obstacle_eq_none_iff {code : Bytes} {d : Derivation .addSub}
    (hwords : words code = d.yield ++ [.eof]) (h : d.Valid names) :
    obstacle code = none ↔ NamesFit 0 (Expr.varNames names (d.expr names)) := by
  rw [varNames_expr h]
  exact legible_iff hwords fun _ => isReadable_of_valid h

theorem text_ne_zero {e : Expr} (hnames : NamesValid names)
    (he : ∀ a, .var a ∈ e.leaves → a < names.length) {sym : UInt8}
    (h : sym ∈ Expr.text names e) : sym ≠ 0 := by
  induction e with
  | leaf a =>
    cases a with
    | int value =>
      rw [Expr.text, ← formatLong_toString, formatLong_eq, List.mem_append] at h
      rcases h with h | h
      · split at h
        · rw [List.mem_singleton.mp h]
          decide
        · cases h
      · exact (isDigit_of_mem_formatNat h).2
    | var argIndex =>
      have hlt : argIndex < names.length := he argIndex (by simp)
      obtain ⟨head, tail, hname, hhead, htail⟩ := hnames.1 _ (List.getElem_mem hlt)
      rw [Expr.text, List.getElem?_eq_getElem hlt, Option.getD_some, hname] at h
      rcases List.mem_cons.mp h with rfl | h
      · exact isIdentTail_ne_zero (by simp [isIdentTail, hhead])
      · exact isIdentTail_ne_zero (htail sym h)
  | un f t ih =>
    rcases List.mem_cons.mp h with rfl | h
    · decide
    · exact ih he h
  | bin type l r ihl ihr =>
    have htype : ∀ sym ∈ type.text, sym ≠ 0 := by
      cases type <;> simp only [BinaryType.text, List.forall_mem_cons] <;>
        exact ⟨by decide, by decide, by decide, List.forall_mem_nil _⟩
    simp only [Expr.text, List.mem_append, List.mem_singleton] at h
    rcases h with (((rfl | h) | h) | h) | rfl
    · decide
    · exact ihl (fun a ha => he a (by simp [ha])) h
    · exact htype sym h
    · exact ihr (fun a ha => he a (by simp [ha])) h
    · decide

theorem ne_zero_of_mem_text {e : Expr} (hnames : NamesValid names) (he : Folded names.length e)
    {sym : UInt8} (h : sym ∈ Expr.text names e) : sym ≠ 0 :=
  text_ne_zero hnames (fun _ => he.var_lt) h

end

-- ---------------------------------------------------------------------------
-- Parsed programs
-- ---------------------------------------------------------------------------

section
variable {heap : Heap} {code : Bytes} {names : List Bytes} {p : Parser}

theorem astPrint_number {ast : Ast} {e : Expr} (h : ast.ListsPostOrder (e.number 0))
    (hlen : ast.nodesUsed = e.size) (he : Folded names.length e) :
    astPrint ast names = .ok (Expr.text names e) := by
  have hpos := e.size_pos
  have hprint := @nodePrint_eq ast names _ ast.nodesUsed h.holds
    (by rw [Term.erase_number, hlen]; exact e.depth_le_size)
    (by rw [Term.erase_number]; exact fun _ ha => he.var_lt ha)
  rw [astPrint, if_neg (by omega), ← Ast.slot_number h hlen, hprint, Term.erase_number]

/-- Printing a parsed program and parsing the text gives the program back, with
double negations cancelled. -/
theorem parseString_astPrint (h : parseSlice heap code names = .ok p) (hd : p.state = .done) :
    ∃ text, astPrint p.ast names = .ok text ∧
      ∀ heap', AllocationsSucceed heap' text names →
        ∃ q, parseString heap' text names = .ok q ∧ q.state = .done ∧
          (∃ e : Expr, p.ast.ListsPostOrder (e.number 0) ∧
            q.ast.ListsPostOrder ((cancelInv e).number 0)) ∧
          ∀ args, astEval q.ast args = astEval p.ast args := by
  obtain ⟨hn, t, -, hr⟩ := parseSlice_done h hd
  obtain ⟨hobstacle, d, hwords, hv, -⟩ := exists_derivation hr
  obtain ⟨e, ht, hlen, hf, hexpr⟩ := parseSlice_tree h hd
  refine ⟨Expr.text names e, astPrint_number ht hlen hf, fun heap' hmem => ?_⟩
  have hzero : (Expr.text names e).takeWhile (· ≠ 0) = Expr.text names e :=
    List.takeWhile_eq_self_iff.mpr fun sym hs => by simpa using ne_zero_of_mem_text hn hf hs
  have htext : words (Expr.text names e) =
      (Derivation.ofMulDiv (.ofSigned (Expr.printed names e))).yield ++ [.eof] := by
    simpa [words_nil] using @words_text names e [] hn hf nofun
  have hvalid : (Derivation.ofMulDiv (.ofSigned (Expr.printed names e))).Valid names :=
    valid_printed hf
  have hcancel : (Derivation.ofMulDiv (.ofSigned (Expr.printed names e))).expr names =
      cancelInv e :=
    expr_printed hn hf
  have hnone : obstacle (Expr.text names e) = none := by
    rw [obstacle_eq_none_iff htext hvalid, hcancel, Expr.varNames, leaves_cancelInv]
    rwa [obstacle_eq_none_iff hwords hv, ← hexpr d hwords] at hobstacle
  have hfit : IdentifiersFit names (Expr.text names e) := by
    intro l name hl
    simp [hnone] at hl
  obtain ⟨q, hq, hdone, -⟩ := parsesExactly_of_fit hmem hfit
  have hqd := hdone ⟨hn, _, htext, hvalid⟩
  obtain ⟨e', ht', hlen', -, hexpr'⟩ := parseSlice_tree hq hqd
  obtain rfl : e' = cancelInv e := (hexpr' _ htext).trans hcancel
  refine ⟨q, by rw [parseString, hzero, hq], hqd, ⟨e, ht, ht'⟩, fun args => ?_⟩
  rw [astEval_number ht hlen, astEval_number ht' hlen', eval_cancelInv]

theorem parseString_astPrint_quotient :
    ∃ p q, parseSlice Heap.unlimited (ascii "-(-a) / -(b - 3)") [ascii "a", ascii "b"] = .ok p ∧
      astPrint p.ast [ascii "a", ascii "b"] = .ok (ascii "(--a / -(b - 3))") ∧
      parseString Heap.unlimited (ascii "(--a / -(b - 3))") [ascii "a", ascii "b"] = .ok q ∧
      q.state = .done ∧
      (∃ e : Expr, p.ast.ListsPostOrder (e.number 0) ∧
        q.ast.ListsPostOrder ((cancelInv e).number 0)) ∧
      ∀ args, astEval q.ast args = astEval p.ast args := by
  obtain ⟨p, hp, hd⟩ := exists_of_map_eq_ok (b := ParserState.done)
    (show (parseSlice Heap.unlimited (ascii "-(-a) / -(b - 3)") [ascii "a", ascii "b"]).map
      Parser.state = _ by decide +kernel)
  have hprint : (parseSlice Heap.unlimited (ascii "-(-a) / -(b - 3)") [ascii "a", ascii "b"]).bind
      (fun p => astPrint p.ast [ascii "a", ascii "b"]) = .ok (ascii "(--a / -(b - 3))") := by
    decide +kernel
  obtain ⟨text, htext, hq⟩ := parseString_astPrint hp hd
  obtain rfl : text = ascii "(--a / -(b - 3))" := by
    simpa [hp, Except.bind, htext] using hprint
  obtain ⟨q, hq, hdone, hsame⟩ := hq Heap.unlimited
    (allocationsSucceed_of_error (by decide +kernel))
  exact ⟨p, q, hp, htext, hq, hdone, hsame⟩

end

end ParserExample
