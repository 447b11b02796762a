import ParserExample.Parser.PostOrder

/-!
# Renaming parameters

The value of a program depends on its parameters only through the values of those
it names: they can be renamed and put in another order, and others can be added
or dropped.
-/

namespace ParserExample

open Library

def Word.rename (ρ : Bytes → Bytes) : Word → Word
  | .ident name => .ident (ρ name)
  | word => word

namespace Derivation

def rename (ρ : Bytes → Bytes) : {nt : NonTerminal} → Derivation nt → Derivation nt
  | _, .ofMulDiv e => .ofMulDiv (e.rename ρ)
  | _, .addSub op left right => .addSub op (left.rename ρ) (right.rename ρ)
  | _, .ofSigned e => .ofSigned (e.rename ρ)
  | _, .mulDiv op left right => .mulDiv op (left.rename ρ) (right.rename ρ)
  | _, .signed signs e => .signed signs (e.rename ρ)
  | _, .ident name => .ident (ρ name)
  | _, .int digits => .int digits
  | _, .paren e => .paren (e.rename ρ)

variable {nt : NonTerminal} {ρ : Bytes → Bytes} {names names' : List Bytes} {args args' : List Long}

theorem yield_rename (d : Derivation nt) : (d.rename ρ).yield = d.yield.map (Word.rename ρ) := by
  induction d with
  | addSub op left right ihl ihr => cases op <;> simp [rename, ihl, ihr, Word.rename]
  | mulDiv op left right ihl ihr => cases op <;> simp [rename, ihl, ihr, Word.rename]
  | signed signs e ih =>
    have hsign (op : AddSubOp) : op.word.rename ρ = op.word := by cases op <;> rfl
    have hsigns : (signs.map AddSubOp.word).map (Word.rename ρ) = signs.map AddSubOp.word := by
      rw [List.map_map]
      exact List.map_congr_left fun op _ => hsign op
    rw [rename, yield, yield, List.map_append, hsigns, ih]
  | ident name => rfl
  | int digits => rfl
  | ofMulDiv e ih => exact ih
  | ofSigned e ih => exact ih
  | paren e ih => simp [rename, ih, Word.rename]

@[simp] theorem literal_rename (d : Derivation nt) : (d.rename ρ).literal = d.literal := by
  induction d with
  | signed signs e ih => simp [rename, ih]
  | ofMulDiv e ih => exact ih
  | ofSigned e ih => exact ih
  | paren e ih => exact ih
  | _ => rfl

theorem valid_rename {d : Derivation nt} (h : d.Valid names)
    (hρ : ∀ name, .ident name ∈ d.yield → ρ name ∈ names') : (d.rename ρ).Valid names' := by
  induction d with
  | addSub op left right ihl ihr =>
    exact ⟨ihl h.1 fun n hn => hρ n (by simp [hn]), ihr h.2 fun n hn => hρ n (by simp [hn])⟩
  | mulDiv op left right ihl ihr =>
    refine ⟨ihl h.1 fun n hn => hρ n (by simp [hn]), ihr h.2.1 fun n hn => hρ n (by simp [hn]), ?_⟩
    rw [literal_rename]
    exact h.2.2
  | signed signs e ih =>
    refine ⟨ih h.1 fun n hn => hρ n (by simp [hn]), ?_⟩
    rw [literal_rename]
    exact h.2
  | ident name => exact hρ name (by simp)
  | int digits => exact h
  | ofMulDiv e ih => exact ih h hρ
  | ofSigned e ih => exact ih h hρ
  | paren e ih => exact ih h fun n hn => hρ n (by simp [hn])

theorem value_rename {d : Derivation nt} (hρ : ∀ name, .ident name ∈ d.yield →
      args'[names'.idxOf (ρ name)]? = args[names.idxOf name]?) :
    (d.rename ρ).value names' args' = d.value names args := by
  induction d with
  | addSub op left right ihl ihr =>
    rw [rename, value, value, ihl fun n hn => hρ n (by simp [hn]),
      ihr fun n hn => hρ n (by simp [hn])]
  | mulDiv op left right ihl ihr =>
    rw [rename, value, value, ihl fun n hn => hρ n (by simp [hn]),
      ihr fun n hn => hρ n (by simp [hn])]
  | signed signs e ih => rw [rename, value, value, ih fun n hn => hρ n (by simp [hn])]
  | ident name => rw [rename, value, value, readArg, readArg, hρ name (by simp)]
  | int digits => rfl
  | ofMulDiv e ih => exact ih hρ
  | ofSigned e ih => exact ih hρ
  | paren e ih => exact ih fun n hn => hρ n (by simp [hn])

end Derivation

section
variable {heap heap' : Heap} {code code' : Bytes} {names names' : List Bytes} {p : Parser}
  {ρ : Bytes → Bytes} {args args' : List Long}

/-- A program with other names is accepted, over parameters among which they are,
and has the same value for arguments that give the same value to what it names. -/
theorem astEval_rename (h : parseSlice heap code names = .ok p) (hd : p.state = .done)
    (hwords : words code' = (words code).map (Word.rename ρ)) (hn : NamesValid names')
    (hmem : AllocationsSucceed heap' code' names') (hfit : IdentifiersFit names' code')
    (hρ : ∀ name, .ident name ∈ words code → ρ name ∈ names') :
    ∃ p', parseSlice heap' code' names' = .ok p' ∧ p'.state = .done ∧
      ∀ args args' : List Long, (∀ name, .ident name ∈ words code →
          args'[names'.idxOf (ρ name)]? = args[names.idxOf name]?) →
        astEval p'.ast args' = astEval p.ast args := by
  obtain ⟨-, u, -, hread⟩ := parseSlice_done h hd
  obtain ⟨-, d, hyield, hvalid, -⟩ := exists_derivation hread
  have hmem_yield (name : Bytes) (hname : .ident name ∈ d.yield) : .ident name ∈ words code := by
    rw [hyield]
    exact List.mem_append_left _ hname
  have hyield' : words code' = (d.rename ρ).yield ++ [.eof] := by
    rw [hwords, hyield, List.map_append, d.yield_rename]
    rfl
  have hvalid' : (d.rename ρ).Valid names' :=
    Derivation.valid_rename hvalid fun name hname => hρ name (hmem_yield name hname)
  obtain ⟨p', hp', hdone, -⟩ := parsesExactly_of_fit hmem hfit
  have hd' := hdone ⟨hn, _, hyield', hvalid'⟩
  refine ⟨p', hp', hd', fun args args' hargs => ?_⟩
  obtain ⟨e, ht, hlen, -, hexpr⟩ := parseSlice_tree h hd
  obtain ⟨e', ht', hlen', -, hexpr'⟩ := parseSlice_tree hp' hd'
  rw [astEval_number ht hlen, astEval_number ht' hlen', hexpr d hyield, hexpr' _ hyield',
    eval_expr, eval_expr]
  exact Derivation.value_rename fun name hname => hargs name (hmem_yield name hname)

/-- `a / -(2 - -b)` and `y / -(2 - -x)`. -/
theorem astEval_rename_quotient :
    ∃ p p', parseSlice Heap.unlimited (ascii "a / -(2 - -b)") [ascii "a", ascii "b"] = .ok p ∧
      parseSlice Heap.unlimited (ascii "y / -(2 - -x)") [ascii "x", ascii "z", ascii "y"] =
        .ok p' ∧
      ∀ a b c, astEval p'.ast [b, c, a] = astEval p.ast [a, b] := by
  obtain ⟨p, hp, hd⟩ := exists_of_map_eq_ok quotient_done
  let ρ : Bytes → Bytes := fun name => if name = ascii "a" then ascii "y" else ascii "x"
  have hnames : ∀ name, .ident name ∈ words (ascii "a / -(2 - -b)") →
      name = ascii "a" ∨ name = ascii "b" := by
    have hwords : words (ascii "a / -(2 - -b)") = [.ident (ascii "a"), .div, .minus, .parenOpen,
      .int (ascii "2"), .minus, .minus, .ident (ascii "b"), .parenClose, .eof] := by decide +kernel
    intro name hname
    simpa [hwords] using hname
  obtain ⟨p', hp', -, hsame⟩ := astEval_rename hp hd
    (show words (ascii "y / -(2 - -x)") = (words (ascii "a / -(2 - -b)")).map (Word.rename ρ) by
      decide +kernel)
    (argsError_eq_none_iff.mp
      (show argsError [ascii "x", ascii "z", ascii "y"] = none by decide +kernel))
    (allocationsSucceed_of_error (show (parseSlice Heap.unlimited _ _).map _ = _ by decide +kernel))
    (fun l name hl => by
      simp [show obstacle (ascii "y / -(2 - -x)") = none by decide +kernel] at hl)
    (fun name hname => by rcases hnames name hname with rfl | rfl <;> decide +kernel)
  refine ⟨p, p', hp, hp', fun a b c => hsame [a, b] [b, c, a] fun name hname => ?_⟩
  rcases hnames name hname with rfl | rfl <;> rfl

end

end ParserExample
