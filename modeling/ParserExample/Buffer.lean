import ParserExample.Library.Calls
import ParserExample.Runtime

/-!
# The growable byte buffer

`bufferAppend` checks its sizes before it computes with them and changes
nothing when it is refused memory, but it enlarges a full block once only. A
chunk that is longer than what the enlarged block leaves is copied past its
end. `along_callOk_iff` says that this is all that can go wrong, in any
sequence of calls.
-/

namespace ParserExample

open Library

/-- `data` is what has been written to the block of `capacity` bytes. -/
structure Buffer where
  data : Bytes
  used : Nat
  capacity : Nat
  deriving DecidableEq, Repr

namespace Buffer

/-- `BUFFER_INIT`. -/
def init : Buffer := ⟨[], 0, 0⟩

def contents (buffer : Buffer) : Bytes := buffer.data.take buffer.used

end Buffer

/-- stdio's `BUFSIZ`, as in glibc. -/
def bufsiz : Nat := 8192

def bufferClear (buffer : Buffer) : Buffer := { buffer with used := 0 }

/-- `memcpy` of a chunk to an offset of a block of `capacity` bytes. -/
def memcpy (data : Bytes) (capacity offset : Nat) (chunk : Bytes) : Except Fault Bytes :=
  if offset + chunk.length ≤ capacity then
    .ok (data.take offset ++ chunk ++ data.drop (offset + chunk.length))
  else .error .overrun

/-- The capacity `buffer_append` asks `realloc` for. -/
def newCapacity (capacity : Nat) : Nat := if capacity = 0 then bufsiz else capacity * 2

/-- Whether the append succeeded, and the buffer and heap after it. -/
def bufferAppend (heap : Heap) (buffer : Buffer) (chunk : Bytes) :
    Except Fault (Bool × Buffer × Heap) := do
  if buffer.used > sizeMax - chunk.length then
    return (false, buffer, heap)
  if buffer.used + chunk.length > buffer.capacity then
    if buffer.capacity ≥ sizeMax / 2 then
      return (false, buffer, heap)
    let (ok, heap) := heap.realloc
    if !ok then
      return (false, buffer, heap)
    let data ← memcpy buffer.data (newCapacity buffer.capacity) buffer.used chunk
    return (true, ⟨data, buffer.used + chunk.length, newCapacity buffer.capacity⟩, heap)
  let data ← memcpy buffer.data buffer.capacity buffer.used chunk
  return (true, { buffer with data, used := buffer.used + chunk.length }, heap)

def bufferAppendByte (heap : Heap) (buffer : Buffer) (byte : UInt8) :
    Except Fault (Bool × Buffer × Heap) :=
  bufferAppend heap buffer [byte]

-- ---------------------------------------------------------------------------
-- One append
-- ---------------------------------------------------------------------------

structure Buffer.Inv (buffer : Buffer) : Prop where
  used_le : buffer.used ≤ buffer.capacity
  written : buffer.used ≤ buffer.data.length
  capacity_le : buffer.capacity ≤ sizeMax

theorem Buffer.inv_init : Buffer.init.Inv := ⟨by simp [init], by simp [init], by simp [init]⟩

theorem Buffer.Inv.clear {buffer : Buffer} (h : buffer.Inv) : (bufferClear buffer).Inv :=
  ⟨Nat.zero_le _, Nat.zero_le _, h.capacity_le⟩

/-- The append enlarges the block: the checks pass, the chunk does not fit the
block as it is, and `realloc` succeeds. -/
def Grows (heap : Heap) (buffer : Buffer) (size : Nat) : Prop :=
  buffer.used ≤ sizeMax - size ∧ buffer.capacity < buffer.used + size ∧
    buffer.capacity < sizeMax / 2 ∧ heap.realloc.1 = true

def ChunkFits (heap : Heap) (buffer : Buffer) (size : Nat) : Prop :=
  Grows heap buffer size → buffer.used + size ≤ newCapacity buffer.capacity

section
variable {heap heap' : Heap} {buffer buffer' : Buffer} {chunk : Bytes} {ok : Bool}

theorem memcpy_ok {data data' : Bytes} {capacity offset : Nat} :
    memcpy data capacity offset chunk = .ok data' ↔ offset + chunk.length ≤ capacity ∧
      data' = data.take offset ++ chunk ++ data.drop (offset + chunk.length) := by
  unfold memcpy
  split
  · simp [*, eq_comm]
  · simp [*]

theorem bufferAppend_cases (heap : Heap) (buffer : Buffer) (chunk : Bytes) :
    (∃ heap', bufferAppend heap buffer chunk = .ok (false, buffer, heap') ∧
      ¬ Grows heap buffer chunk.length ∧
      (buffer.used ≤ sizeMax - chunk.length → buffer.capacity < buffer.used + chunk.length)) ∨
    (bufferAppend heap buffer chunk = .error .overrun ∧ Grows heap buffer chunk.length ∧
      newCapacity buffer.capacity < buffer.used + chunk.length) ∨
    ∃ capacity heap', bufferAppend heap buffer chunk = .ok (true,
        ⟨buffer.data.take buffer.used ++ chunk ++ buffer.data.drop (buffer.used + chunk.length),
          buffer.used + chunk.length, capacity⟩, heap') ∧
      buffer.used ≤ sizeMax - chunk.length ∧ buffer.used + chunk.length ≤ capacity ∧
      ((capacity = buffer.capacity ∧ heap' = heap) ∨
        (Grows heap buffer chunk.length ∧ capacity = newCapacity buffer.capacity ∧
          heap' = heap.realloc.2)) := by
  unfold bufferAppend Grows
  by_cases hsize : buffer.used > sizeMax - chunk.length
  · exact .inl ⟨heap, by simp [hsize], by omega, by omega⟩
  by_cases hfit : buffer.used + chunk.length > buffer.capacity
  · by_cases hcap : buffer.capacity ≥ sizeMax / 2
    · exact .inl ⟨heap, by simp [hsize, hfit, hcap], by omega, fun _ => hfit⟩
    · obtain ⟨ok, heap', hr⟩ : ∃ ok heap', heap.realloc = (ok, heap') := ⟨_, _, rfl⟩
      cases ok with
      | false => exact .inl ⟨heap', by simp [hsize, hfit, hcap, hr], by simp [hr], fun _ => hfit⟩
      | true =>
        have hgrows : buffer.used ≤ sizeMax - chunk.length ∧
            buffer.capacity < buffer.used + chunk.length ∧ buffer.capacity < sizeMax / 2 ∧
            heap.realloc.1 = true := ⟨by omega, hfit, by omega, by simp [hr]⟩
        by_cases hnew : buffer.used + chunk.length ≤ newCapacity buffer.capacity
        · refine .inr (.inr ⟨newCapacity buffer.capacity, heap', ?_, hgrows.1, hnew,
            .inr ⟨hgrows, rfl, by simp [hr]⟩⟩)
          simp [hsize, hfit, hcap, hr, memcpy, hnew]
        · refine .inr (.inl ⟨?_, hgrows, by omega⟩)
          simp [hsize, hfit, hcap, hr, memcpy, hnew]
  · refine .inr (.inr ⟨buffer.capacity, heap, ?_, by omega, by omega, .inl ⟨rfl, rfl⟩⟩)
    simp [hsize, hfit, memcpy, show buffer.used + chunk.length ≤ buffer.capacity by omega]

theorem bufferAppend_unlimited (heap : Heap) (buffer : Buffer) (chunk : Bytes) :
    (∃ heap', bufferAppend heap buffer chunk = .ok (false, buffer, heap')) ∨
    (bufferAppend heap buffer chunk).map (fun r => (r.1, r.2.1, Heap.unlimited)) =
      bufferAppend Heap.unlimited buffer chunk := by
  unfold bufferAppend
  by_cases hsize : buffer.used > sizeMax - chunk.length
  · exact .inl ⟨heap, by simp [hsize]⟩
  by_cases hfit : buffer.used + chunk.length > buffer.capacity
  · by_cases hcap : buffer.capacity ≥ sizeMax / 2
    · exact .inl ⟨heap, by simp [hsize, hfit, hcap]⟩
    · obtain ⟨ok, heap', hr⟩ : ∃ ok heap', heap.realloc = (ok, heap') := ⟨_, _, rfl⟩
      cases ok with
      | false => exact .inl ⟨heap', by simp [hsize, hfit, hcap, hr]⟩
      | true =>
        refine .inr ?_
        simp only [hsize, hfit, hcap, hr, if_true, if_false, Heap.realloc_unlimited]
        cases memcpy buffer.data (newCapacity buffer.capacity) buffer.used chunk <;> rfl
  · refine .inr ?_
    simp only [hsize, hfit, if_false]
    cases memcpy buffer.data buffer.capacity buffer.used chunk <;> rfl

theorem newCapacity_le {capacity : Nat} (h : capacity < sizeMax / 2) :
    newCapacity capacity ≤ sizeMax := by
  unfold newCapacity bufsiz sizeMax at *
  split <;> omega

theorem Buffer.Inv.append (h : buffer.Inv)
    (ha : bufferAppend heap buffer chunk = .ok (ok, buffer', heap')) : buffer'.Inv := by
  rcases bufferAppend_cases heap buffer chunk with
    ⟨_, hr, -⟩ | ⟨hr, -⟩ | ⟨capacity, _, hr, hsize, hle, hcap⟩
  · simp only [ha, Except.ok.injEq, Prod.mk.injEq] at hr
    exact hr.2.1 ▸ h
  · simp [ha] at hr
  · simp only [ha, Except.ok.injEq, Prod.mk.injEq] at hr
    obtain ⟨-, rfl, -⟩ := hr
    refine ⟨hle, ?_, ?_⟩
    · have := h.written
      simp only [List.length_append, List.length_take]
      omega
    · rcases hcap with ⟨rfl, -⟩ | ⟨hg, rfl, -⟩
      · exact h.capacity_le
      · exact newCapacity_le hg.2.2.1

theorem contents_bufferAppend (h : buffer.Inv)
    (ha : bufferAppend heap buffer chunk = .ok (true, buffer', heap')) :
    buffer'.contents = buffer.contents ++ chunk := by
  rcases bufferAppend_cases heap buffer chunk with
    ⟨_, hr, -⟩ | ⟨hr, -⟩ | ⟨capacity, _, hr, -⟩
  · simp [ha] at hr
  · simp [ha] at hr
  · simp only [ha, Except.ok.injEq, Prod.mk.injEq] at hr
    obtain ⟨-, rfl, -⟩ := hr
    have hlen : (buffer.data.take buffer.used ++ chunk).length = buffer.used + chunk.length := by
      simp [h.written]
    rw [Buffer.contents, ← hlen, List.take_left, Buffer.contents]

theorem exists_memcpy (chunk : Bytes) (h : buffer.Inv) {old rest : Bytes}
    (hc : buffer.contents = old ++ rest) (hl : chunk.length = old.length) :
    ∃ data, memcpy buffer.data buffer.capacity 0 chunk = .ok data ∧
      Buffer.contents { buffer with data } = chunk ++ rest := by
  have hlen : buffer.used = (old ++ rest).length := by
    rw [← hc, Buffer.contents, List.length_take, min_eq_left h.written]
  have hused := h.used_le
  simp only [List.length_append] at hlen
  refine ⟨_, memcpy_ok.mpr ⟨by omega, rfl⟩, ?_⟩
  have hdrop : (buffer.data.drop chunk.length).take (buffer.used - chunk.length) = rest := by
    rw [← List.drop_take]
    show List.drop _ buffer.contents = rest
    rw [hc, hl, List.drop_left]
  simp [Buffer.contents, List.take_append, hdrop,
    List.take_of_length_le (show chunk.length ≤ buffer.used by omega)]

theorem eq_of_bufferAppend_false
    (ha : bufferAppend heap buffer chunk = .ok (false, buffer', heap')) : buffer' = buffer := by
  rcases bufferAppend_cases heap buffer chunk with
    ⟨_, hr, -⟩ | ⟨hr, -⟩ | ⟨capacity, _, hr, -⟩ <;> simp_all

end

-- ---------------------------------------------------------------------------
-- Sequences of calls
-- ---------------------------------------------------------------------------

/-- The calls a client can make. A chunk's size is a `size_t`. -/
inductive BufferCall
  | clear
  | append (chunk : Bytes) (size_le : chunk.length ≤ sizeMax)
  | appendByte (byte : UInt8)

namespace BufferCall

def apply (heap : Heap) (buffer : Buffer) : BufferCall → Except Fault (Bool × Buffer × Heap)
  | .clear => .ok (true, bufferClear buffer, heap)
  | .append chunk _ => bufferAppend heap buffer chunk
  | .appendByte byte => bufferAppendByte heap buffer byte

def result (contents : Bytes) : BufferCall → Bytes
  | .clear => []
  | .append chunk _ => contents ++ chunk
  | .appendByte byte => contents ++ [byte]

def size : BufferCall → Nat
  | .clear => 0
  | .append chunk _ => chunk.length
  | .appendByte _ => 1

/-- `buffer_append` with what `wrap` leaves of each size that it computes. -/
def appendWith (wrap : Nat → Nat) (heap : Heap) (buffer : Buffer) (chunk : Bytes) :
    Except Fault (Bool × Buffer × Heap) := do
  if buffer.used > sizeMax - chunk.length then
    return (false, buffer, heap)
  if wrap (buffer.used + chunk.length) > buffer.capacity then
    if buffer.capacity ≥ sizeMax / 2 then
      return (false, buffer, heap)
    let capacity := wrap (newCapacity buffer.capacity)
    let (ok, heap) := heap.realloc
    if !ok then
      return (false, buffer, heap)
    let data ← memcpy buffer.data capacity buffer.used chunk
    return (true, ⟨data, wrap (buffer.used + chunk.length), capacity⟩, heap)
  let data ← memcpy buffer.data buffer.capacity buffer.used chunk
  return (true, { buffer with data, used := wrap (buffer.used + chunk.length) }, heap)

def applyWith (wrap : Nat → Nat) (heap : Heap) (buffer : Buffer) :
    BufferCall → Except Fault (Bool × Buffer × Heap)
  | .clear => .ok (true, bufferClear buffer, heap)
  | .append chunk _ => appendWith wrap heap buffer chunk
  | .appendByte byte => appendWith wrap heap buffer [byte]

/-- The sizes a call computes, as far as it gets. -/
def sizes (buffer : Buffer) (call : BufferCall) : List Nat :=
  if buffer.used > sizeMax - call.size then []
  else if buffer.used + call.size > buffer.capacity ∧ buffer.capacity < sizeMax / 2 then
    [buffer.used + call.size, newCapacity buffer.capacity]
  else [buffer.used + call.size]

/-- No size that the call computes wraps around, and so the call is the same in
`size_t`. -/
def SizesFit (heap : Heap) (buffer : Buffer) (call : BufferCall) : Prop :=
  (∀ n ∈ call.sizes buffer, n ≤ sizeMax) ∧
    call.applyWith toSize heap buffer = call.apply heap buffer

def step (s : Heap × Buffer) (call : BufferCall) : Except Fault (Heap × Buffer) := do
  let (_, buffer, heap) ← call.apply s.1 s.2
  return (heap, buffer)

end BufferCall

/-- The representation invariant after one call: the call returns, `used` is at
most `capacity`, no size it computed wrapped around, success appends exactly
the chunk and failure changes nothing. -/
def CallOk (s : Heap × Buffer) (call : BufferCall) : Prop :=
  ∃ ok buffer heap, call.apply s.1 s.2 = .ok (ok, buffer, heap) ∧
    buffer.used ≤ buffer.capacity ∧ call.SizesFit s.1 s.2 ∧
    (ok = true → buffer.contents = call.result s.2.contents) ∧ (ok = false → buffer = s.2)

theorem BufferCall.sizes_le {buffer : Buffer} {call : BufferCall} (h : call.size ≤ sizeMax) :
    ∀ n ∈ call.sizes buffer, n ≤ sizeMax := by
  intro n hn
  unfold BufferCall.sizes at hn
  split at hn
  · simp at hn
  · split at hn
    · rename_i hg
      rcases (by simpa using hn : n = _ ∨ n = _) with rfl | rfl
      · omega
      · exact newCapacity_le hg.2
    · obtain rfl : n = _ := by simpa using hn
      omega

/-- A call computes no other sizes: whatever becomes of other numbers, it does the
same. -/
theorem BufferCall.applyWith_eq {wrap : Nat → Nat} {heap : Heap} {buffer : Buffer}
    {call : BufferCall} (h : ∀ n ∈ call.sizes buffer, wrap n = n) :
    call.applyWith wrap heap buffer = call.apply heap buffer := by
  have happ (chunk : Bytes) (hsize : call.size = chunk.length) :
      appendWith wrap heap buffer chunk = bufferAppend heap buffer chunk := by
    unfold BufferCall.sizes at h
    unfold appendWith bufferAppend
    rw [hsize] at h
    by_cases hused : buffer.used > sizeMax - chunk.length
    · rw [if_pos hused, if_pos hused]
    · rw [if_neg hused] at h ⊢
      rw [if_neg hused]
      have hsum : wrap (buffer.used + chunk.length) = buffer.used + chunk.length := by
        refine h _ ?_
        split <;> simp
      rw [hsum]
      by_cases hfull : buffer.used + chunk.length > buffer.capacity
      · rw [if_pos hfull, if_pos hfull]
        by_cases hcap : buffer.capacity ≥ sizeMax / 2
        · rw [if_pos hcap, if_pos hcap]
        · rw [if_pos ⟨hfull, Nat.lt_of_not_le hcap⟩] at h
          rw [if_neg hcap, if_neg hcap, h (newCapacity buffer.capacity) (by simp)]
      · rw [if_neg hfull, if_neg hfull]
  cases call with
  | clear => rfl
  | append chunk size_le => exact happ chunk rfl
  | appendByte byte => exact happ [byte] rfl

theorem callOk_append {heap : Heap} {buffer : Buffer} {chunk : Bytes} (h : buffer.Inv) :
    (∃ ok buffer' heap', bufferAppend heap buffer chunk = .ok (ok, buffer', heap') ∧
      buffer'.used ≤ buffer'.capacity ∧
      (ok = true → buffer'.contents = buffer.contents ++ chunk) ∧ (ok = false → buffer' = buffer)) ↔
    ChunkFits heap buffer chunk.length := by
  constructor
  · rintro ⟨ok, buffer', heap', ha, hle, -⟩ hg
    rcases bufferAppend_cases heap buffer chunk with
      ⟨_, -, hn⟩ | ⟨hr, -⟩ | ⟨capacity, _, hr, -, hfit, hcap⟩
    · exact absurd hg hn.1
    · simp [ha] at hr
    · rcases hcap with ⟨rfl, -⟩ | ⟨-, rfl, -⟩
      · exact absurd hfit (by have := hg.2.1; omega)
      · exact hfit
  · intro hfits
    cases ha : bufferAppend heap buffer chunk with
    | error e =>
      rcases bufferAppend_cases heap buffer chunk with
        ⟨_, hr, -⟩ | ⟨-, hg, hlt⟩ | ⟨_, _, hr, -⟩
      · simp [ha] at hr
      · exact absurd (hfits hg) (by omega)
      · simp [ha] at hr
    | ok r =>
      obtain ⟨ok, buffer', heap'⟩ := r
      refine ⟨ok, buffer', heap', rfl, (h.append ha).used_le, ?_, ?_⟩
      · rintro rfl
        exact contents_bufferAppend h ha
      · rintro rfl
        exact eq_of_bufferAppend_false ha

theorem callOk_iff {s : Heap × Buffer} {call : BufferCall} (h : s.2.Inv) :
    CallOk s call ↔ ChunkFits s.1 s.2 call.size := by
  have hle : ∀ n ∈ call.sizes s.2, n ≤ sizeMax := by
    apply BufferCall.sizes_le
    cases call with
    | clear => exact Nat.zero_le _
    | append chunk size_le => exact size_le
    | appendByte byte => simp [BufferCall.size, sizeMax]
  have hsizes : call.SizesFit s.1 s.2 :=
    ⟨hle, BufferCall.applyWith_eq fun n hn => toSize_eq (hle n hn)⟩
  cases call with
  | clear =>
    refine ⟨fun _ hg => ?_, fun _ => ?_⟩
    · exact absurd hg.2.1 (by have := h.used_le; simp [BufferCall.size]; omega)
    · exact ⟨true, bufferClear s.2, s.1, rfl, Nat.zero_le _, hsizes,
        fun _ => by simp [Buffer.contents, bufferClear, BufferCall.result], by simp⟩
  | append chunk size_le =>
    rw [BufferCall.size, ← callOk_append h]
    simp only [CallOk, BufferCall.apply, BufferCall.result, iff_true_intro hsizes, true_and]
  | appendByte byte =>
    rw [BufferCall.size, ← List.length_singleton (a := byte), ← callOk_append h]
    simp only [CallOk, BufferCall.apply, bufferAppendByte, BufferCall.result,
      iff_true_intro hsizes, true_and]

theorem BufferCall.inv_step {s s' : Heap × Buffer} {call : BufferCall} (h : s.2.Inv)
    (hs : call.step s = .ok s') : s'.2.Inv := by
  obtain ⟨⟨ok, buffer, heap⟩, ha, hr⟩ := bind_ok.mp hs
  obtain rfl : (heap, buffer) = s' := by simpa using hr
  cases call with
  | clear =>
    obtain ⟨-, rfl, -⟩ : true = ok ∧ bufferClear s.2 = buffer ∧ _ := by
      simpa [BufferCall.apply] using ha
    exact h.clear
  | append chunk _ => exact h.append ha
  | appendByte byte => exact h.append ha

/-- In every sequence of calls from `BUFFER_INIT`, whatever `realloc` does, the
representation invariant holds after every call if and only if every chunk
that enlarges the block fits the enlarged block. -/
theorem along_callOk_iff (heap : Heap) (calls : List BufferCall) :
    Along (fun s call => BufferCall.step s call) CallOk (heap, Buffer.init) calls ↔
      Along (fun s call => BufferCall.step s call)
        (fun s call => ChunkFits s.1 s.2 call.size) (heap, Buffer.init) calls :=
  along_congr (fun s => s.2.Inv) (fun _ _ _ h hs => BufferCall.inv_step h hs)
    (fun _ _ h => callOk_iff h) Buffer.inv_init calls

/-- An identifier of 10000 bytes is appended to a block of `BUFSIZ` bytes. -/
theorem not_along_callOk : ¬ ∀ heap calls,
    Along (fun s call => BufferCall.step s call) CallOk (heap, Buffer.init) calls := by
  intro h
  have hlen : (List.replicate 10000 (0x61 : UInt8)).length = 10000 := List.length_replicate
  have hcall := (h Heap.unlimited
    [.append (List.replicate 10000 0x61) (by rw [hlen]; decide)]).1
  have hfits := (callOk_iff Buffer.inv_init).mp hcall
  rw [BufferCall.size, hlen] at hfits
  have := hfits ⟨by decide, by decide, by decide, rfl⟩
  exact absurd this (by decide)

end ParserExample
