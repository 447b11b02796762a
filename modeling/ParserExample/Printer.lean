import ParserExample.Parser

/-!
# The printer

`nodePrint` writes an expression with parentheses around every binary operator.
`Expr.text` is the text of an expression; `nodePrint_eq` says that this is what
is written for the expression below a node.
-/

namespace ParserExample

open Library

def formatNat (n : Nat) : Bytes :=
  if n = 0 then [byte '0'] else (Nat.digits 10 n).reverse.map fun d => byte '0' + UInt8.ofNat d

/-- `%ld`. -/
def formatLong (value : Long) : Bytes :=
  if value.toInt < 0 then byte '-' :: formatNat (-value.toInt).toNat
  else formatNat value.toInt.toNat

def BinaryType.text : BinaryType → Bytes
  | .add => [byte ' ', byte '+', byte ' ']
  | .sub => [byte ' ', byte '-', byte ' ']
  | .mul => [byte ' ', byte '*', byte ' ']
  | .div => [byte ' ', byte '/', byte ' ']

/-- `args[node->arg_index]`. -/
def readName (args : List Bytes) (argIndex : Nat) : Except Fault Bytes :=
  match args[argIndex]? with
  | some name => .ok name
  | none => .error .bounds

/-- The first argument bounds the depth of the recursion. -/
def nodePrint (ast : Ast) (args : List Bytes) : Nat → Nat → Except Fault Bytes
  | 0, _ => .error .fuel
  | fuel + 1, nodeIndex =>
    match ast.nodes[nodeIndex]? with
    | none => .error .assertion
    | some node =>
      match node.data with
      | .bin type leftIndex rightIndex => do
        let left ← nodePrint ast args fuel leftIndex
        let right ← nodePrint ast args fuel rightIndex
        return [byte '('] ++ left ++ type.text ++ right ++ [byte ')']
      | .un () childIndex => do
        let child ← nodePrint ast args fuel childIndex
        return byte '-' :: child
      | .leaf (.int value) => return formatLong value
      | .leaf (.var argIndex) => readName args argIndex

def astPrint (ast : Ast) (args : List Bytes) : Except Fault Bytes :=
  if ast.nodesUsed = 0 then .ok []
  else nodePrint ast args ast.nodesUsed ast.rootNodeIndex

-- ---------------------------------------------------------------------------
-- Numbers
-- ---------------------------------------------------------------------------

theorem formatNat_ne_nil (n : Nat) : formatNat n ≠ [] := by
  unfold formatNat
  split
  · simp
  · simpa [Nat.digits_ne_nil_iff_ne_zero]

theorem isDigit_of_mem_formatNat {n : Nat} {sym : UInt8} (h : sym ∈ formatNat n) :
    isDigit sym = true ∧ sym ≠ 0 := by
  have hdigit : ∀ d < 10, isDigit (byte '0' + UInt8.ofNat d) = true ∧
      byte '0' + UInt8.ofNat d ≠ 0 := by decide
  unfold formatNat at h
  split at h
  · obtain rfl := List.mem_singleton.mp h
    exact ⟨by decide, by decide⟩
  · obtain ⟨d, hd, rfl⟩ := List.mem_map.mp h
    exact hdigit d (Nat.digits_lt_base (by decide) (List.mem_reverse.mp hd))

theorem formatNat_concat {n : Nat} (h : 10 ≤ n) :
    formatNat n = formatNat (n / 10) ++ [byte '0' + UInt8.ofNat (n % 10)] := by
  have hpos : n / 10 ≠ 0 := by omega
  rw [formatNat, if_neg (by omega), formatNat, if_neg hpos, Nat.digits_def' (by decide) (by omega),
    List.reverse_cons, List.map_append]
  rfl

theorem byte_digitChar {d : Nat} (h : d < 10) :
    byte d.digitChar = byte '0' + UInt8.ofNat d := by
  interval_cases d <;> rfl

/-- What `%zu` writes. -/
theorem formatNat_toString (n : Nat) : formatNat n = ascii (toString n) := by
  rw [ascii, Nat.toString_eq_repr, Nat.toList_repr]
  induction n using Nat.strong_induction_on with
  | _ n ih =>
    rw [Nat.toDigits_eq_if (by decide)]
    split_ifs with hlt
    · rw [List.map_singleton, byte_digitChar hlt]
      interval_cases n <;> rfl
    · rw [formatNat_concat (by omega), ih _ (by omega), List.map_append, List.map_singleton,
        byte_digitChar (Nat.mod_lt _ (by decide))]

/-- What `%ld` writes. -/
theorem formatLong_toString (value : Long) : formatLong value = ascii (toString value.toInt) := by
  rw [formatLong]
  generalize value.toInt = n
  cases n with
  | ofNat n =>
    rw [if_neg (by simp), formatNat_toString]
    rfl
  | negSucc n =>
    rw [if_pos (by simp), formatNat_toString]
    have hneg : toString (Int.negSucc n) = "-" ++ toString (n + 1) := rfl
    rw [hneg, ascii, ascii, String.toList_append, List.map_append]
    rfl

-- ---------------------------------------------------------------------------
-- Expressions
-- ---------------------------------------------------------------------------

/-- The text of an expression over arguments of these names. -/
def Expr.text (names : List Bytes) : Expr → Bytes
  | .leaf (.int value) => ascii (toString value.toInt)
  | .leaf (.var argIndex) => names[argIndex]?.getD []
  | .un _ t => byte '-' :: Expr.text names t
  | .bin type l r => [byte '('] ++ Expr.text names l ++ type.text ++ Expr.text names r ++ [byte ')']

theorem nodePrint_eq {ast : Ast} {names : List Bytes} {t : SlotTree} {fuel : Nat}
    (h : Holds ast.view t) (hf : t.erase.depth ≤ fuel)
    (hv : ∀ a, .var a ∈ t.erase.leaves → a < names.length) :
    nodePrint ast names fuel t.slot = .ok (Expr.text names t.erase) := by
  induction t generalizing fuel with
  | leaf s a =>
    obtain ⟨node, hn, hd⟩ := Ast.exists_node h
    obtain ⟨fuel, rfl⟩ := Term.exists_succ hf
    cases a with
    | int value => simp_all [nodePrint, Expr.text, formatLong_toString]
    | var argIndex =>
      have hlt := hv argIndex (by simp)
      simp_all [nodePrint, Expr.text, readName]
  | un s f c ih =>
    obtain ⟨node, hn, hd⟩ := Ast.exists_node h
    obtain ⟨fuel, rfl⟩ := Term.exists_succ hf
    have hc := ih h.2 (by simpa using hf) hv
    simp only [Tree.slot_un] at hn
    simp only [nodePrint, Tree.slot_un, hn, hd, Tree.shape_un, hc]
    rfl
  | bin s g l r ihl ihr =>
    obtain ⟨node, hn, hd⟩ := Ast.exists_node h
    obtain ⟨fuel, rfl⟩ := Term.exists_succ hf
    simp only [Tree.erase, Term.depth, Nat.add_le_add_iff_right, max_le_iff] at hf
    have hl := ihl h.2.1 hf.1 fun a ha => hv a (by simp [ha])
    have hr := ihr h.2.2 hf.2 fun a ha => hv a (by simp [ha])
    simp only [Tree.slot_bin] at hn
    simp only [nodePrint, Tree.slot_bin, hn, hd, Tree.shape_bin, hl, hr]
    rfl

end ParserExample
