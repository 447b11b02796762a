import ParserExample.Reader.Soundness

/-!
# What is derived is read

Every derivation drives the parser on words: a valid one to its expression, an
invalid one to an error. The induction is on the derivation. A chain has no
end of its own, so what is shown of one is the state of the loop behind it,
for any lexemes that do not carry on its last operand.
-/

namespace ParserExample

open Library

def Outcome (names : List Bytes) {nt : NonTerminal} (e : Derivation nt) (r : Read)
    (goal : RangedExpr → Prop) : Prop :=
  (e.Valid names ∧ ∃ t, t.erase = e.expr names ∧ goal t) ∨
  (¬ e.Valid names ∧ ∃ error i j, r = .error (.failed error i j))

def Stops (op : Word → Option BinaryType) (tokens : List Lexeme) : Prop :=
  ∃ l rest, tokens = l :: rest ∧ op l.word = none

theorem readLoop_stops {op : Word → Option BinaryType} {operand : List Lexeme → Read} {count : Nat}
    {t : RangedExpr} {tokens : List Lexeme} (h : Stops op tokens) (hc : 0 < count) :
    readLoop op operand count t tokens = .ok (t, tokens) := by
  obtain ⟨l, rest, rfl, hl⟩ := h
  obtain ⟨count, rfl⟩ : ∃ n, count = n + 1 := ⟨count - 1, by omega⟩
  simp [readLoop, next, hl]

theorem readSigns_complete {fuel : Nat} {inverse : Bool} {signs : List AddSubOp}
    {ls : List Lexeme} {l : Lexeme} {rest : List Lexeme}
    (hls : ls.map Lexeme.word = signs.map AddSubOp.word) (hl : l.word ≠ .plus ∧ l.word ≠ .minus)
    (hf : signs.length < fuel) :
    readSigns fuel inverse (ls ++ l :: rest) = .ok (inverse != negates signs, l :: rest) := by
  induction fuel generalizing ls signs inverse with
  | zero => omega
  | succ fuel ih =>
    cases signs with
    | nil =>
      obtain rfl : ls = [] := by simpa using hls
      cases hw : l.word <;> simp_all [readSigns, next]
    | cons sign signs =>
      obtain ⟨a, ls, rfl, ha, hls⟩ := List.map_eq_cons_iff.mp hls
      have := @ih (inverse != decide (sign = .minus)) _ _ hls (by simpa using hf)
      cases sign <;>
        simp_all [readSigns, next, negates_cons, bne_comm]

def Completes (names : List Bytes) (fuel : Nat) (ls rest : List Lexeme) :
    (nt : NonTerminal) → Derivation nt → Prop
  | .addSub, e =>
    let r := readAddSub names (fuel + 1) (ls ++ rest)
    Stops Word.mulDivType rest → Outcome names e r fun t => ∃ count, rest.length < count ∧
      r = readLoop Word.addSubType (readMulDiv names (readAddSub names fuel) (fuel + 1))
        count t rest
  | .mulDiv, e =>
    let r := readMulDiv names (readAddSub names fuel) (fuel + 1) (ls ++ rest)
    Outcome names e r fun t => ∃ count, rest.length < count ∧
      r = readLoop Word.mulDivType (readSigned names (readAddSub names fuel) (fuel + 1))
        count t rest
  | .signed, e =>
    let r := readSigned names (readAddSub names fuel) (fuel + 1) (ls ++ rest)
    Outcome names e r fun t => r = .ok (t, rest)
  | .atom, e =>
    let r := readAtom names (readAddSub names fuel) (ls ++ rest)
    Outcome names e r fun t => r = .ok (t, rest)

section
variable {names : List Bytes} {nt nt' : NonTerminal}

/-- One more operand of a chain. `stops` is what is asked of the lexemes behind
an operand. -/
theorem completes_chain (c : Chain names nt nt') (stops : List Lexeme → Prop) {n : Nat}
    {reader operand : List Lexeme → Read} {op : c.Op} {left : Derivation nt}
    {right : Derivation nt'} {ls rest : List Lexeme}
    (hleft : ∀ ls rest, ls.map Lexeme.word = left.yield → Bounded n (ls ++ rest) → stops rest →
      Outcome names left (reader (ls ++ rest)) fun t => ∃ count, rest.length < count ∧
        reader (ls ++ rest) = readLoop c.pick operand count t rest)
    (hright : ∀ ls rest, ls.map Lexeme.word = right.yield → Bounded n (ls ++ rest) → stops rest →
      Outcome names right (operand (ls ++ rest)) fun t => operand (ls ++ rest) = .ok (t, rest))
    (hstops : ∀ l rest, l.word = c.word op → stops (l :: rest))
    (hls : ls.map Lexeme.word = (c.node op left right).yield) (hn : Bounded n (ls ++ rest))
    (hrest : stops rest) :
    Outcome names (c.node op left right) (reader (ls ++ rest)) fun t => ∃ count,
      rest.length < count ∧ reader (ls ++ rest) = readLoop c.pick operand count t rest := by
  rw [c.yield_node] at hls
  obtain ⟨lsl, lsr, rfl, hl, hr⟩ := List.map_eq_append_iff.mp hls
  obtain ⟨l, lsr, rfl, hop, hr⟩ := List.map_eq_cons_iff.mp hr
  rw [List.append_assoc, List.cons_append] at hn ⊢
  have hnr : Bounded n (lsr ++ rest) := @Bounded.suffix n (lsl ++ [l]) _ (by simpa using hn)
  simp only [Outcome, c.valid_node, c.expr_node]
  rcases hleft lsl _ hl hn (hstops _ _ hop) with ⟨hv, t, ht, count, hcount, hread⟩ | ⟨hv, herr⟩
  · obtain ⟨count, rfl⟩ : ∃ k, count = k + 1 := ⟨count - 1, by omega⟩
    have hpick : c.pick l.word = some (c.type op) := by rw [hop, c.pick_word]
    rw [hread, readLoop]
    simp only [next, ok_bind, hpick, List.tail_cons]
    rcases hright lsr rest hr hnr hrest with ⟨hv', t', ht', hread'⟩ | ⟨hv', e, i, j, herr⟩
    · rw [hread']
      simp only [ok_bind, div_check_iff hv' ht']
      by_cases hdiv : c.type op = .div ∧ right.literal = some 0
      · exact .inr ⟨fun h => h.2.2 hdiv.1 hdiv.2, .divByZero, t'.slot.1, t'.slot.2, if_pos hdiv⟩
      · refine .inl ⟨⟨hv, hv', fun hd hl => hdiv ⟨hd, hl⟩⟩, .bin l.range (c.type op) t t', ?_,
          count, ?_, ?_⟩
        · rw [Tree.erase, ht, ht']
        · simp only [List.length_cons, List.length_append] at hcount
          omega
        · rw [if_neg hdiv]
    · refine .inr ⟨fun h => hv' h.2.1, e, i, j, ?_⟩
      rw [herr]
      rfl
  · exact .inr ⟨fun h => hv h.1, herr⟩

theorem yield_atom (e : Derivation .atom) :
    ∃ w ws, e.yield = w :: ws ∧ w ≠ .plus ∧ w ≠ .minus := by
  cases e with
  | ident name => exact ⟨_, _, rfl, nofun, nofun⟩
  | int digits => exact ⟨_, _, rfl, nofun, nofun⟩
  | paren e => exact ⟨_, _, rfl, nofun, nofun⟩

/-- What the induction hypothesis of a part says: it is read wherever it stands. -/
def CompletesAll (names : List Bytes) (nt : NonTerminal) (e : Derivation nt) : Prop :=
  ∀ fuel ls rest, ls.map Lexeme.word = e.yield → Bounded (fuel + 1) (ls ++ rest) →
    Completes names fuel ls rest nt e

theorem completes_ofMulDiv {e : Derivation .mulDiv} (ih : CompletesAll names .mulDiv e) :
    CompletesAll names .addSub (.ofMulDiv e) := by
  intro fuel ls rest hls hn hrest
  rw [readAddSub]
  rcases ih fuel ls rest hls hn with
    ⟨hv, t, ht, count, hcount, hread⟩ | ⟨hv, error, i, j, herr⟩
  · refine .inl ⟨hv, t, ht, fuel + 1, ?_, ?_⟩
    · exact hn.suffix.length_lt
    · rw [hread, readLoop_stops hrest (by omega)]
      rfl
  · refine .inr ⟨hv, error, i, j, ?_⟩
    rw [herr]
    rfl

theorem completes_addSub {op : AddSubOp} {left : Derivation .addSub} {right : Derivation .mulDiv}
    (ihl : CompletesAll names .addSub left) (ihr : CompletesAll names .mulDiv right) :
    CompletesAll names .addSub (.addSub op left right) := by
  intro fuel ls rest hls hn
  refine completes_chain (addSubChain names) (Stops Word.mulDivType)
    (fun ls rest hls hn hrest => ihl fuel ls rest hls hn hrest) (fun ls rest hls hn hrest => ?_)
    ?_ hls hn
  · rcases ihr fuel ls rest hls hn with ⟨hv, t, ht, count, hcount, hread⟩ | ⟨hv, herr⟩
    · refine .inl ⟨hv, t, ht, ?_⟩
      rw [hread, readLoop_stops hrest (by omega)]
    · exact .inr ⟨hv, herr⟩
  · intro l rest hl
    refine ⟨l, rest, rfl, ?_⟩
    rw [hl]
    cases op <;> rfl

theorem completes_ofSigned {e : Derivation .signed} (ih : CompletesAll names .signed e) :
    CompletesAll names .mulDiv (.ofSigned e) := by
  intro fuel ls rest hls hn
  simp only [Completes]
  rw [readMulDiv]
  rcases ih fuel ls rest hls hn with ⟨hv, t, ht, hread⟩ | ⟨hv, error, i, j, herr⟩
  · refine .inl ⟨hv, t, ht, fuel + 1, ?_, ?_⟩
    · exact hn.suffix.length_lt
    · rw [hread]
      rfl
  · refine .inr ⟨hv, error, i, j, ?_⟩
    rw [herr]
    rfl

theorem completes_mulDiv {op : MulDivOp} {left : Derivation .mulDiv} {right : Derivation .signed}
    (ihl : CompletesAll names .mulDiv left) (ihr : CompletesAll names .signed right) :
    CompletesAll names .mulDiv (.mulDiv op left right) := by
  intro fuel ls rest hls hn
  exact completes_chain (mulDivChain names) (fun _ => True)
    (fun ls rest hls hn _ => ihl fuel ls rest hls hn)
    (fun ls rest hls hn _ => ihr fuel ls rest hls hn) (fun _ _ _ => trivial) hls hn trivial

theorem completes_signed {signs : List AddSubOp} {e : Derivation .atom}
    (ih : CompletesAll names .atom e) : CompletesAll names .signed (.signed signs e) := by
  intro fuel ls rest hls hn
  obtain ⟨lss, lse, rfl, hs, he⟩ := List.map_eq_append_iff.mp hls
  obtain ⟨w, ws, hw, hplus, hminus⟩ := yield_atom e
  obtain ⟨l, lse, rfl, hl, hlse⟩ := List.map_eq_cons_iff.mp (he.trans hw)
  have hlen : signs.length = lss.length := by
    simpa using (congrArg List.length hs).symm
  rw [List.append_assoc] at hn
  have hatom := ih fuel _ rest he hn.suffix
  have hlt := hn.length_lt
  simp only [Completes, List.append_assoc, List.cons_append] at hatom ⊢
  obtain ⟨first, more, hfirst⟩ : ∃ a as, lss ++ l :: (lse ++ rest) = a :: as := by
    cases lss <;> exact ⟨_, _, rfl⟩
  have hsigns := @readSigns_complete (fuel + 1) false signs _ l (lse ++ rest) hs
    (by rw [hl]; exact ⟨hplus, hminus⟩) (by simp only [List.length_append] at hlt; omega)
  rw [readSigned, hsigns, hfirst]
  simp only [next, ok_bind, Bool.false_bne]
  rcases hatom with ⟨hv, t, ht, hread⟩ | ⟨hv, error, i, j, herr⟩
  · rw [hread]
    have hmax := max_check_iff hv ht
    rcases applySigns_cases first.startIndex (negates signs) t with
      ⟨hneg, hint, j, happ⟩ | ⟨hnot, t', happ, ht'⟩
    · refine .inr ⟨fun h => h.2 hneg (hmax.mp hint), .valueOutOfRange, first.startIndex, j, ?_⟩
      simp [happ]
    · refine .inl ⟨⟨hv, fun hneg hl => hnot ⟨hneg, hmax.mpr hl⟩⟩, t', ?_, ?_⟩
      · rw [ht', ht]
        rfl
      · simp [happ]
  · refine .inr ⟨fun h => hv h.1, error, i, j, ?_⟩
    rw [herr]
    rfl

theorem completes_ident (name : Bytes) : CompletesAll names .atom (.ident name) := by
  intro fuel ls rest hls hn
  obtain ⟨l, rfl, hl⟩ := List.map_eq_singleton_iff.mp hls
  simp only [Completes, List.singleton_append, readAtom, next, ok_bind, hl, List.tail_cons]
  by_cases hname : name ∈ names
  · refine .inl ⟨hname, _, rfl, if_neg ?_⟩
    exact (List.idxOf_lt_length_iff.mpr hname).ne
  · refine .inr ⟨hname, .undefinedVariable, l.startIndex, l.endIndex, if_pos ?_⟩
    exact List.idxOf_eq_length hname

theorem completes_int (digits : Bytes) : CompletesAll names .atom (.int digits) := by
  intro fuel ls rest hls hn
  obtain ⟨l, rfl, hl⟩ := List.map_eq_singleton_iff.mp hls
  simp only [Completes, List.singleton_append, readAtom, next, ok_bind, hl, List.tail_cons]
  exact .inl ⟨hn.in_range l (by simp) digits hl, _, rfl, rfl⟩

/-- The parentheses take one of the nested calls, and `)` carries on neither of the
chains inside. -/
theorem completes_paren {e : Derivation .addSub} (ih : CompletesAll names .addSub e) :
    CompletesAll names .atom (.paren e) := by
  intro fuel ls rest hls hn
  obtain ⟨l, ls, rfl, hopen, hls⟩ := List.map_eq_cons_iff.mp hls
  obtain ⟨lse, lsc, rfl, he, hc⟩ := List.map_eq_append_iff.mp hls
  obtain ⟨close, rfl, hclose⟩ := List.map_eq_singleton_iff.mp hc
  have hn' : Bounded fuel (lse ++ close :: rest) := by
    refine Bounded.tail (l := l) ?_
    simpa using hn
  have hstop : Stops Word.mulDivType (close :: rest) := ⟨close, rest, rfl, by rw [hclose]; rfl⟩
  have hstop' : Stops Word.addSubType (close :: rest) := ⟨close, rest, rfl, by rw [hclose]; rfl⟩
  obtain ⟨fuel, rfl⟩ : ∃ k, fuel = k + 1 := ⟨fuel - 1, by have := hn'.length_lt; omega⟩
  have hinner := ih fuel lse (close :: rest) he hn' hstop
  simp only [Completes, List.append_assoc, List.cons_append, List.nil_append, readAtom, next,
    ok_bind, hopen, List.tail_cons, readParen]
  rcases hinner with ⟨hv, t, ht, count, hcount, hread⟩ | ⟨hv, error, i, j, herr⟩
  · refine .inl ⟨hv, t, ht, ?_⟩
    rw [hread, readLoop_stops hstop' (by omega)]
    simp [hclose]
  · refine .inr ⟨hv, error, i, j, ?_⟩
    rw [herr]
    rfl

theorem completes (e : Derivation nt) : CompletesAll names nt e := by
  induction e with
  | ofMulDiv e ih => exact completes_ofMulDiv ih
  | addSub op left right ihl ihr => exact completes_addSub ihl ihr
  | ofSigned e ih => exact completes_ofSigned ih
  | mulDiv op left right ihl ihr => exact completes_mulDiv ihl ihr
  | signed signs e ih => exact completes_signed ih
  | ident name => exact completes_ident name
  | int digits => exact completes_int digits
  | paren e ih => exact completes_paren ih

theorem readProgram_complete {e : Derivation .addSub} {fuel : Nat} {ls rest : List Lexeme}
    {l : Lexeme} (hls : ls.map Lexeme.word = e.yield) (hl : l.word = .eof)
    (hn : Bounded (fuel + 1) (ls ++ l :: rest)) :
    (e.Valid names → ∃ t, readProgram names (fuel + 1) (ls ++ l :: rest) = .ok t ∧
      t.erase = e.expr names) ∧
    (¬ e.Valid names → ∃ error i j,
      readProgram names (fuel + 1) (ls ++ l :: rest) = .error (.failed error i j)) := by
  have hstop : Stops Word.mulDivType (l :: rest) := ⟨l, rest, rfl, by rw [hl]; rfl⟩
  have hstop' : Stops Word.addSubType (l :: rest) := ⟨l, rest, rfl, by rw [hl]; rfl⟩
  rw [readProgram]
  rcases completes e fuel ls (l :: rest) hls hn hstop with ⟨hv, t, ht, count, hcount, hread⟩ | ⟨hv, error, i, j, herr⟩
  · refine ⟨fun _ => ⟨t, ?_, ht⟩, fun h => absurd hv h⟩
    rw [hread, readLoop_stops hstop' (by omega)]
    simp [next, hl]
  · refine ⟨fun h => absurd h hv, fun _ => ⟨error, i, j, ?_⟩⟩
    rw [herr]
    rfl

end

end ParserExample
