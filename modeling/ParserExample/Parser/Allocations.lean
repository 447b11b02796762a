import ParserExample.Allocations
import ParserExample.Parser.Descent
import ParserExample.Parser.Language
import ParserExample.Parser.Memory

/-!
# How often the parser asks for memory

The parser appends a node for each token it has consumed at most, and the name in
its buffer is a part of the code. So its two arrays are no longer than the code, and
they double: `realloc` is called a logarithmic number of times, whatever becomes of
the code. `Frugal` is kept by every function of the parser.
-/

namespace ParserExample

open Library

/-- How often the parser enlarges its arrays at most, for `n` bytes of code. -/
def parserReallocs (n : Nat) : Nat := doublings 64 n + doublings bufsiz (n + 1)

/-- The calls of `realloc` on `heap` up to a state in which the parser goes on. -/
structure Economical (heap : Heap) (n : Nat) (s : Parser) : Prop where
  inv : s.buffer.Inv
  length : s.code.length = n
  error : s.error = .none
  memory : ∃ nodes bytes, Grown 64 n s.ast.nodesCapacity nodes ∧
    Grown bufsiz (n + 1) s.buffer.capacity bytes ∧ Spent heap s.heap (nodes + bytes)

/-- The calls of `realloc` on `heap` up to a state in which the parser returns. Code
for which memory that was needed was granted is short of none, but for code that is
too long for the address space. -/
structure Economized (heap : Heap) (n : Nat) (s : Parser) : Prop where
  nodes : ∃ count, Grown 64 n s.ast.nodesCapacity count
  bytes : ∃ count, Grown bufsiz (n + 1) s.buffer.capacity count
  spent : ∃ count ≤ parserReallocs n, Spent heap s.heap count
  refused : s.error = .outOfMemory → n < sizeMax / 2 / astNodeSize →
    ¬ heap.Grants (parserReallocs n)

def Halts (heap : Heap) (n : Nat) (e : Halt) (s : Parser) : Prop :=
  e = .returnFalse → Economized heap n s

section
variable {heap : Heap} {n k : Nat} {s s' : Parser} {α : Type} {post : α → Parser → Prop}

theorem Economical.economized (h : Economical heap n s) {s' : Parser} (hast : s'.ast = s.ast)
    (hbuffer : s'.buffer = s.buffer) (hheap : s'.heap = s.heap) (he : s'.error ≠ .outOfMemory) :
    Economized heap n s' := by
  obtain ⟨nodes, bytes, hnodes, hbytes, hspent⟩ := h.memory
  rw [← hast] at hnodes
  rw [← hbuffer] at hbytes
  rw [← hheap] at hspent
  exact ⟨⟨nodes, hnodes⟩, ⟨bytes, hbytes⟩,
    ⟨_, Nat.add_le_add hnodes.count_le hbytes.count_le, hspent⟩, fun ho => absurd ho he⟩

theorem Economical.fail (h : Economical heap n s) {error : ParserError} (he : error ≠ .outOfMemory)
    (i j : Nat) : Meets (fail error i j : Proc Parser α) s post (Halts heap n) :=
  meets_modify_bind (meets_throw fun _ => h.economized rfl rfl rfl he)

theorem meets_fault (f : Fault) : Meets (throw (.fault f)) s post (Halts heap n) :=
  meets_throw fun h => by cases h

-- ---------------------------------------------------------------------------
-- The two functions that allocate
-- ---------------------------------------------------------------------------

theorem parserBufferAppend_economical (h : Economical heap n s) {chunk : Bytes}
    (hsize : s.buffer.used + chunk.length ≤ n + 1) :
    Meets (parserBufferAppend (bufferAppend · · chunk)) s
      (fun _ s' => ∃ buffer heap', s' = { s with buffer, heap := heap' } ∧
        Economical heap n s' ∧ buffer.used = s.buffer.used + chunk.length)
      (Halts heap n) := by
  obtain ⟨nodes, bytes, hnodes, hbytes, hspent⟩ := h.memory
  refine meets_get_bind ?_
  dsimp only
  cases ha : bufferAppend s.heap s.buffer chunk with
  | error f => exact meets_fault f
  | ok r =>
    obtain ⟨ok, buffer, heap'⟩ := r
    have hext := bufferAppend_enlarges ha
    have hpos : 0 < bufsiz := by decide
    refine meets_modify_bind ?_
    cases ok with
    | true =>
      obtain ⟨more, hbytes', hmore⟩ := hext.grown hpos hbytes hsize
      refine meets_pure ⟨buffer, heap', rfl, ⟨h.inv.append ha, h.length, h.error,
        nodes, bytes + more, hnodes, hbytes', ?_⟩, used_bufferAppend ha⟩
      rw [← Nat.add_assoc]
      exact hspent.trans hmore
    | false =>
      obtain ⟨hcap, hlost⟩ := hext.failed hpos hbytes hsize
      have hle := Nat.add_le_add hnodes.count_le hbytes.count_le
      refine meets_modify_bind (meets_throw fun _ =>
        ⟨⟨nodes, hnodes⟩, ⟨bytes, hcap ▸ hbytes⟩, ?_, fun _ hlong => ?_⟩)
      · rcases hlost with ⟨-, rfl⟩ | ⟨hlt, rfl, -⟩
        · exact ⟨_, hle, hspent⟩
        · exact ⟨_, Nat.add_le_add hnodes.count_le hlt, hspent.realloc⟩
      · rcases hlost with ⟨hlong', -⟩ | ⟨hlt, -, hr⟩
        · omega
        · exact hspent.not_grants hr (Nat.add_lt_add_of_le_of_lt hnodes.count_le hlt)

-- ---------------------------------------------------------------------------
-- The lexer
-- ---------------------------------------------------------------------------

def Lexed (heap : Heap) (n : Nat) (s s' : Parser) : Prop :=
  Economical heap n s' ∧ s'.ast = s.ast

theorem parseInt_economical (h : Economical heap n s) :
    Meets parseInt s (fun _ => Lexed heap n s) (Halts heap n) := by
  refine meets_modify_bind (meets_get_bind ?_)
  dsimp only
  cases readDigits (s.code.drop s.index) s.index 0 with
  | error index =>
    refine meets_modify_bind ?_
    have h₁ : Economical heap n { s with index, token := { s.token with startIndex := s.index } } :=
      ⟨h.inv, h.length, h.error, h.memory⟩
    exact h₁.fail (by decide) _ _
  | ok r => exact meets_modify ⟨⟨h.inv, h.length, h.error, h.memory⟩, rfl⟩

theorem parseIdent_economical (h : Economical heap n s) :
    Meets parseIdent s (fun _ => Lexed heap n s) (Halts heap n) := by
  refine meets_modify_bind (meets_get_bind ?_)
  dsimp only
  generalize hname : (s.code.drop s.index).take _ = name
  have hlen : name.length ≤ n := by
    rw [← hname, ← h.length, List.length_take, List.length_drop]
    omega
  generalize hs₁ : ({ s with index := _, token := _, buffer := _ } : Parser) = s₁
  have h₁ : Economical heap n s₁ := hs₁ ▸ ⟨h.inv.clear, h.length, h.error, h.memory⟩
  have hused : s₁.buffer.used = 0 := hs₁ ▸ rfl
  have hast : s₁.ast = s.ast := hs₁ ▸ rfl
  refine (parserBufferAppend_economical h₁ (by omega)).bind ?_
  rintro _ _ - ⟨buffer, heap₂, rfl, h₂, hused₂⟩
  refine (@parserBufferAppend_economical _ _ _ h₂ [0] ?_).bind ?_
  · show buffer.used + 1 ≤ n + 1
    omega
  · rintro _ _ - ⟨buffer', heap₃, rfl, h₃, -⟩
    exact meets_modify ⟨⟨h₃.inv, h₃.length, h₃.error, h₃.memory⟩, hast⟩

theorem parseToken_economical (h : Economical heap n s) :
    Meets parseToken s (fun _ => Lexed heap n s) (Halts heap n) := by
  refine meets_modify_bind (meets_get_bind ?_)
  have h₁ : Economical heap n (parserSkipIgnoreable s) := ⟨h.inv, h.length, h.error, h.memory⟩
  cases (parserSkipIgnoreable s).code[(parserSkipIgnoreable s).index]? with
  | none => exact meets_modify ⟨⟨h.inv, h.length, h.error, h.memory⟩, rfl⟩
  | some sym =>
    simp only
    cases charType sym with
    | some type => exact meets_modify ⟨⟨h.inv, h.length, h.error, h.memory⟩, rfl⟩
    | none =>
      simp only
      split_ifs
      · exact parseInt_economical h₁
      · exact parseIdent_economical h₁
      · exact h₁.fail (by decide) _ _

-- ---------------------------------------------------------------------------
-- Tokens and nodes
-- ---------------------------------------------------------------------------

/-- Of the tokens that are consumed at least as many are left as `k`, when each node of
the tree has taken one. -/
structure Frugal (heap : Heap) (n k : Nat) (s : Parser) : Prop where
  economical : Economical heap n s
  live : s.state = .tokenPending ∨ s.state = .tokenReady
  token : s.state = .tokenReady → TokenOk s
  index_le : s.index ≤ s.code.length
  nodes : s.ast.nodesUsed + k ≤ s.here

theorem Frugal.weaken (h : Frugal heap n (k + 1) s) : Frugal heap n k s :=
  ⟨h.economical, h.live, h.token, h.index_le, (Nat.le_succ _).trans h.nodes⟩

theorem Frugal.here_le (h : Frugal heap n k s) : s.here ≤ n := by
  have hle := h.index_le
  rw [h.economical.length] at hle
  rcases h.live with hs | hs
  · rwa [Parser.here_pending hs]
  · rw [Parser.here_ready hs]
    have ht := h.token hs
    exact (ht.start_le.trans ht.index.ge).trans hle

theorem parserPeekToken_frugal (h : Frugal heap n k s) :
    Meets parserPeekToken s (fun _ => Frugal heap n k) (Halts heap n) := by
  unfold parserPeekToken
  refine meets_get_bind ?_
  rcases h.live with hs | hs
  · simp only [hs]
    have hread := parseToken_meets h.economical.inv h.index_le
    refine (parseToken_economical h.economical).mono ?_ fun _ _ => id
    rintro _ s' hok ⟨heco, hast⟩
    obtain ⟨ht, hle⟩ := hread.of_ok hok
    refine ⟨heco, .inr ht.state, fun _ => ht.ok, hle, ?_⟩
    rw [hast, Parser.here_ready ht.state]
    exact h.nodes.trans (Parser.here_pending hs ▸ ht.start_le)
  · simp only [hs]
    exact meets_pure h

theorem parserConsumeToken_frugal (h : Frugal heap n k s) (heof : s.token.type ≠ .eof) :
    Meets parserConsumeToken s (fun _ => Frugal heap n (k + 1)) (Halts heap n) := by
  unfold parserConsumeToken
  refine meets_get_bind ?_
  rcases h.live with hs | hs
  · simp only [hs]
    exact meets_fault _
  · simp only [hs]
    have ht := h.token hs
    have hlt := ht.nonempty heof
    have hnodes := h.nodes
    rw [Parser.here_ready hs] at hnodes
    refine meets_modify ⟨⟨h.economical.inv, h.economical.length, h.economical.error,
      h.economical.memory⟩, .inl rfl, (fun hr => by cases hr), h.index_le, ?_⟩
    show s.ast.nodesUsed + (k + 1) ≤ s.index
    rw [ht.index]
    omega

theorem parserAppendNode_frugal (h : Frugal heap n (k + 1) s) (node : AstNode) :
    Meets (parserAppendNode node) s
      (fun _ s' => ∃ ast heap', s' = { s with ast, heap := heap' } ∧ Frugal heap n k s')
      (Halts heap n) := by
  obtain ⟨nodes, bytes, hnodes, hbytes, hspent⟩ := h.economical.memory
  have hle := h.here_le
  have hused := h.nodes
  have hsize : s.ast.nodesUsed + 1 ≤ n := by omega
  refine meets_get_bind ?_
  cases ha : astAppendNode s.heap s.ast node with
  | mk ok r =>
    obtain ⟨ast, heap'⟩ := r
    have hext := astAppendNode_enlarges ha
    have hpos : 0 < 64 := by decide
    refine meets_modify_bind ?_
    cases ok with
    | true =>
      obtain ⟨more, hnodes', hmore⟩ := hext.grown hpos hnodes hsize
      have hlen : ast.nodesUsed = s.ast.nodesUsed + 1 := by
        rcases astAppendNode_cases s.heap s.ast node with ⟨_, hr⟩ | ⟨_, _, hr, -⟩ <;>
          rw [ha] at hr <;> cases hr
        exact List.length_append
      refine meets_pure ⟨ast, heap', rfl, ⟨h.economical.inv, h.economical.length,
        h.economical.error, nodes + more, bytes, hnodes', hbytes, ?_⟩, h.live, fun hr => ?_,
        h.index_le, ?_⟩
      · rw [Nat.add_right_comm]
        exact hspent.trans hmore
      · have ht := h.token hr
        exact ⟨ht.index, ht.nonempty, ht.eof, ht.line⟩
      · show ast.nodesUsed + k ≤ s.here
        omega
    | false =>
      obtain ⟨hcap, hlost⟩ := hext.failed hpos hnodes hsize
      have hcount := Nat.add_le_add hnodes.count_le hbytes.count_le
      refine meets_modify_bind (meets_throw fun _ =>
        ⟨⟨nodes, hcap ▸ hnodes⟩, ⟨bytes, hbytes⟩, ?_, fun _ hlong => ?_⟩)
      · rcases hlost with ⟨-, rfl⟩ | ⟨hlt, rfl, -⟩
        · exact ⟨_, hcount, hspent⟩
        · refine ⟨_, ?_, hspent.realloc⟩
          rw [Nat.add_right_comm]
          exact Nat.add_le_add hlt hbytes.count_le
      · rcases hlost with ⟨hlong', -⟩ | ⟨hlt, -, hr⟩
        · omega
        · exact hspent.not_grants hr (Nat.add_lt_add_of_lt_of_le hlt hbytes.count_le)

-- ---------------------------------------------------------------------------
-- The grammar
-- ---------------------------------------------------------------------------

/-- A function that returns a node has consumed a token for it. -/
def Costs (heap : Heap) (n : Nat) (x : Proc Parser AstNode) : Prop :=
  ∀ k s, Frugal heap n k s → Meets x s (fun _ => Frugal heap n (k + 1)) (Halts heap n)

theorem parseSigns_frugal (h : Frugal heap n k s) (fuel : Nat) (inverse : Bool) :
    Meets (parseSigns fuel inverse) s
      (fun inverse' s' => Frugal heap n k s' ∧ (inverse' ≠ inverse → Frugal heap n (k + 1) s'))
      (Halts heap n) := by
  induction fuel generalizing k s inverse with
  | zero => exact meets_fault _
  | succ fuel ih =>
    rw [parseSigns]
    refine (parserPeekToken_frugal h).bind fun _ s₁ _ h₁ => meets_get_bind ?_
    have hnext (inverse' : Bool) (heof : s₁.token.type ≠ .eof) :
        Meets (parserConsumeToken >>= fun _ => parseSigns fuel inverse') s₁
          (fun b s' => Frugal heap n k s' ∧ (b ≠ inverse → Frugal heap n (k + 1) s'))
          (Halts heap n) := by
      refine (parserConsumeToken_frugal h₁ heof).bind fun _ s₂ _ h₂ => ?_
      refine (ih h₂ inverse').mono ?_ fun _ _ => id
      rintro b s' - ⟨h', -⟩
      exact ⟨h'.weaken, fun _ => h'⟩
    cases htype : s₁.token.type <;> simp only
    case plus | minus => exact hnext _ (by rw [htype]; decide)
    all_goals exact meets_pure ⟨h₁, fun hne => absurd rfl hne⟩

section
variable {addSub : Proc Parser AstNode} (hc : Costs heap n addSub)
include hc

theorem parseParen_costs : Costs heap n (parseParen addSub) := by
  intro k s h
  unfold parseParen
  refine (parserPeekToken_frugal h).bind fun _ s₁ _ h₁ => meets_get_bind ?_
  dsimp only
  split_ifs with hopen
  · exact h₁.economical.fail (by decide) _ _
  rw [not_ne_iff] at hopen
  refine (parserConsumeToken_frugal h₁ (by rw [hopen]; decide)).bind fun _ s₂ _ h₂ => ?_
  refine (hc _ s₂ h₂).bind fun node s₃ _ h₃ => meets_get_bind ?_
  split_ifs with hclose
  · exact h₃.economical.fail (by decide) _ _
  rw [not_ne_iff] at hclose
  refine (parserConsumeToken_frugal h₃ (by rw [hclose]; decide)).bind fun _ s₄ _ h₄ => ?_
  exact meets_pure h₄.weaken.weaken

theorem parseAtom_costs : Costs heap n (parseAtom addSub) := by
  intro k s h
  unfold parseAtom
  refine (parserPeekToken_frugal h).bind fun _ s₁ _ h₁ => meets_get_bind ?_
  dsimp only
  cases htype : s₁.token.type <;> simp only
  case ident =>
    refine (parserConsumeToken_frugal h₁ (by rw [htype]; decide)).bind fun _ s₂ _ h₂ => ?_
    refine meets_get_bind ?_
    split_ifs
    · exact h₂.economical.fail (by decide) _ _
    · exact meets_pure h₂
  case int =>
    refine (parserConsumeToken_frugal h₁ (by rw [htype]; decide)).bind fun _ s₂ _ h₂ => ?_
    exact meets_pure h₂
  case parenOpen => exact parseParen_costs hc k s₁ h₁
  all_goals exact h₁.economical.fail (by decide) _ _

theorem parseSigned_costs (fuel : Nat) : Costs heap n (parseSigned addSub fuel) := by
  intro k s h
  unfold parseSigned
  refine (parserPeekToken_frugal h).bind fun _ s₁ _ h₁ => meets_get_bind ?_
  refine (parseSigns_frugal h₁ fuel false).bind ?_
  rintro inverse s₂ - ⟨h₂, hsign⟩
  split_ifs with hinverse
  · refine (parseAtom_costs hc _ s₂ (hsign (by rw [hinverse]; decide))).bind fun child s₃ _ h₃ => ?_
    split
    · split_ifs
      · exact h₃.economical.fail (by decide) _ _
      · exact meets_pure h₃.weaken
    · refine (parserAppendNode_frugal h₃ child).bind ?_
      rintro _ _ - ⟨ast, heap', rfl, h₄⟩
      exact meets_rootNodeIndex_bind (meets_pure h₄)
  · refine (parseAtom_costs hc k s₂ h₂).bind fun node s₃ _ h₃ => ?_
    exact meets_pure h₃

end

theorem parseLoop_costs {op : TokenType → Option BinaryType} {operand : Proc Parser AstNode}
    (hop : Operators op) (hc : Costs heap n operand) (h : Frugal heap n (k + 1) s) (count : Nat)
    (node : AstNode) :
    Meets (parseLoop op operand count node) s (fun _ => Frugal heap n (k + 1)) (Halts heap n) := by
  induction count generalizing s node with
  | zero => exact meets_fault _
  | succ count ih =>
    rw [parseLoop]
    refine (parserPeekToken_frugal h).bind fun _ s₁ _ h₁ => meets_get_bind ?_
    dsimp only
    cases htype : op s₁.token.type with
    | none => exact meets_pure h₁
    | some type =>
      have heof := (hop _ (Option.isSome_of_eq_some htype)).1
      refine (parserAppendNode_frugal h₁ node).bind ?_
      rintro _ _ - ⟨ast, heap', rfl, h₂⟩
      refine (parserConsumeToken_frugal h₂ heof).bind fun _ s₃ _ h₃ => ?_
      refine meets_rootNodeIndex_bind ((hc _ s₃ h₃).bind fun right s₄ _ h₄ => ?_)
      split_ifs
      · exact h₄.economical.fail (by decide) _ _
      · refine (parserAppendNode_frugal h₄ right).bind ?_
        rintro _ _ - ⟨ast', heap'', rfl, h₅⟩
        exact meets_rootNodeIndex_bind (ih h₅ _)

theorem parseMulDiv_costs {addSub : Proc Parser AstNode} (hc : Costs heap n addSub) (fuel : Nat) :
    Costs heap n (parseMulDiv addSub fuel) := by
  intro k s h
  unfold parseMulDiv
  simp only [parseMulDivLoop_eq]
  refine (parseSigned_costs hc fuel k s h).bind fun node s₁ _ h₁ => ?_
  exact parseLoop_costs operators_mulDiv (parseSigned_costs hc fuel) h₁ fuel node

theorem parseAddSub_costs (heap : Heap) (n fuel : Nat) : Costs heap n (parseAddSub fuel) := by
  induction fuel with
  | zero => exact fun _ _ _ => meets_fault _
  | succ fuel ih =>
    intro k s h
    rw [parseAddSub]
    simp only [parseAddSubLoop_eq]
    refine (parseMulDiv_costs ih _ k s h).bind fun node s₁ _ h₁ => ?_
    exact parseLoop_costs operators_addSub (parseMulDiv_costs ih _) h₁ _ node

theorem parserConsumeToken_economical (h : Economical heap n s) :
    Meets parserConsumeToken s (fun _ => Economical heap n) (Halts heap n) := by
  unfold parserConsumeToken
  refine meets_get_bind ?_
  cases s.state
  case tokenPending => exact meets_fault _
  case tokenReady => exact meets_modify ⟨h.inv, h.length, h.error, h.memory⟩
  all_goals exact meets_throw fun _ => h.economized rfl rfl rfl (by rw [h.error]; decide)

theorem parseProgram_halts (h : Frugal heap n 0 s) :
    Meets parseProgram s (fun _ => Economized heap n) (Halts heap n) := by
  unfold parseProgram parseExpr
  refine meets_get_bind ?_
  have hexpr : Meets (parseAddSub (s.code.length + 2) >>= parserAppendNode) s
      (fun _ => Frugal heap n 0) (Halts heap n) := by
    refine (parseAddSub_costs heap n _ 0 s h).bind fun node s₁ _ h₁ => ?_
    refine (parserAppendNode_frugal h₁ node).mono ?_ fun _ _ => id
    rintro _ _ - ⟨ast, heap', rfl, h₂⟩
    exact h₂
  refine hexpr.bind fun _ s₂ _ h₂ => ?_
  refine (parserPeekToken_frugal h₂).bind fun _ s₃ _ h₃ => meets_get_bind ?_
  dsimp only
  split_ifs
  · exact h₃.economical.fail (by decide) _ _
  · refine (parserConsumeToken_economical h₃.economical).bind fun _ s₄ _ h₄ => ?_
    refine meets_modify (h₄.economized rfl rfl rfl ?_)
    rw [h₄.error]
    decide

theorem frugal_init (heap : Heap) (code : Bytes) (names : List Bytes) :
    Frugal heap code.length 0 (Parser.init heap code names) :=
  ⟨⟨Buffer.inv_init, rfl, rfl, 0, 0, .zero, .zero, .refl heap⟩, .inl rfl, (fun hr => by cases hr),
    Nat.zero_le _, Nat.zero_le _⟩

theorem parseSlice_economized {code : Bytes} {names : List Bytes} {p : Parser}
    (h : parseSlice heap code names = .ok p) : Economized heap code.length p := by
  have hinit := frugal_init heap code names
  have hrun := parseProgram_halts hinit
  unfold parseSlice at h
  cases hargs : argsError names with
  | some e =>
    simp only [hargs] at h
    obtain rfl := Except.ok.inj h
    have he : e.1 ≠ .outOfMemory := by
      rcases (argsError_some hargs).1 with he | he <;> rw [he] <;> decide
    exact hinit.economical.economized rfl rfl rfl he
  | none =>
    simp only [hargs] at h
    cases hp : parseProgram (Parser.init heap code names) with
    | ok u s =>
      rw [hp] at h
      obtain rfl := Except.ok.inj h
      exact hrun.of_ok hp
    | error e s =>
      rw [hp] at h
      cases e with
      | returnFalse =>
        obtain rfl := Except.ok.inj h
        exact hrun.of_error hp rfl
      | fault f => cases h

theorem grants_unlimited (count : Nat) : Heap.unlimited.Grants count :=
  fun _ _ => by simp [Heap.unlimited]

/-- No memory is refused if the calls of `realloc` succeed. -/
theorem allocationsSucceed_of_grants {code : Bytes} (names : List Bytes)
    (hg : heap.Grants (parserReallocs code.length))
    (hlen : code.length < sizeMax / 2 / astNodeSize) : AllocationsSucceed heap code names :=
  fun _ hp he => (parseSlice_economized hp).refused he hlen hg

theorem parserReallocs_le (n : Nat) : parserReallocs n ≤ 2 * Nat.log 2 (n + 1) + 2 := by
  have hnodes := doublings_le_log (show 2 ≤ 64 by decide) n
  have hbytes := doublings_le_log (show 2 ≤ bufsiz by decide) (n + 1)
  have hlog : Nat.log 2 n ≤ Nat.log 2 (n + 1) := Nat.log_mono_right (Nat.le_succ n)
  unfold parserReallocs
  omega

/-- Whatever becomes of the code, its arrays are at most twice as long as it, but for
their first slots, and have been enlarged a logarithmic number of times. For want of
memory it fails only when one of these calls of `realloc` does. -/
theorem parseSlice_reallocs {code : Bytes} {names : List Bytes} {p : Parser}
    (h : parseSlice heap code names = .ok p) :
    p.ast.nodesCapacity ≤ max 64 (2 * code.length) ∧
      p.buffer.capacity ≤ max bufsiz (2 * (code.length + 1)) ∧
      (∃ count ≤ parserReallocs code.length, Spent heap p.heap count) ∧
      parserReallocs code.length ≤ 2 * Nat.log 2 (code.length + 1) + 2 ∧
      (p.error = .outOfMemory → code.length < sizeMax / 2 / astNodeSize →
        ¬ heap.Grants (parserReallocs code.length)) := by
  obtain ⟨⟨nodes, hnodes⟩, ⟨bytes, hbytes⟩, hspent, hrefused⟩ := parseSlice_economized h
  refine ⟨le_max_iff.mpr ?_, le_max_iff.mpr ?_, hspent, parserReallocs_le _, hrefused⟩
  · exact (hnodes.capacity_le (by decide)).imp_right Nat.le_of_lt
  · exact (hbytes.capacity_le (by decide)).imp_right Nat.le_of_lt

theorem parseSlice_reallocs_refused :
    ∃ p, parseSlice ⟨[true, false]⟩ (ascii "a + 1") [ascii "a"] = .ok p ∧
      p.error = .outOfMemory ∧ ¬ Heap.Grants ⟨[true, false]⟩ (parserReallocs 5) := by
  obtain ⟨p, hp, he⟩ := exists_of_map_eq_ok (b := ParserError.outOfMemory)
    (show (parseSlice ⟨[true, false]⟩ (ascii "a + 1") [ascii "a"]).map Parser.error = _ by
      decide +kernel)
  obtain ⟨-, -, -, -, hrefused⟩ := parseSlice_reallocs hp
  exact ⟨p, hp, he, hrefused he (by decide)⟩

end

end ParserExample
