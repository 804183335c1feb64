import ArmRunner.GdbProtocol

namespace ArmRunner

open CRun Wire

def escaped (bs : List UInt8) : List UInt8 := escape special 0x7d 0x20 bs

theorem escaped_append (xs ys : List UInt8) :
    escaped (xs ++ ys) = escaped xs ++ escaped ys := escape_append xs ys

/-- The `k` bytes of the buffer from `src` on. -/
def chunk (memory : Nat → UInt8) (src k : Nat) : List UInt8 := (List.range' src k).map memory

theorem chunk_length (memory : Nat → UInt8) (src k : Nat) : (chunk memory src k).length = k := by
  rw [chunk, List.length_map, List.length_range']

theorem chunk_append (memory : Nat → UInt8) (src m n : Nat) :
    chunk memory src (m + n) = chunk memory src m ++ chunk memory (src + m) n := by
  rw [chunk, ← List.range'_append_1, List.map_append]
  rfl

theorem maxBufferSize_eq : maxBufferSize = 1018 := rfl

section copy

variable {memory : Nat → UInt8} {gdb : GdbProtocolData} {src size : Nat} {s : CopyState}

/-- What the inner loop has done after `bytesCopied` bytes: the packet holds them escaped, from
behind the command header on. -/
structure Copied (memory : Nat → UInt8) (gdb : GdbProtocolData) (src : Nat) (s : CopyState) :
    Prop where
  packet : s.gdb = gdb.storeString 20 (escaped (chunk memory src s.bytesCopied))
  destBuffer : s.destBuffer = 20 + (escaped (chunk memory src s.bytesCopied)).length
  srcBuffer : s.srcBuffer = src + s.bytesCopied
  bufferSize : s.bufferSize = (escaped (chunk memory src s.bytesCopied)).length

theorem copyByte_bytesCopied : (copyByte memory s).bytesCopied = s.bytesCopied + 1 := by
  unfold copyByte
  dsimp only
  split <;> rfl

theorem copyByte_copied (h : Copied memory gdb src s) :
    Copied memory gdb src (copyByte memory s) := by
  have grown : escaped (chunk memory src (s.bytesCopied + 1)) =
      escaped (chunk memory src s.bytesCopied) ++
        escapeByte special 0x7d 0x20 (memory s.srcBuffer) := by
    rw [chunk_append, escaped_append, h.srcBuffer]
    simp [chunk, escaped, escape]
  refine ⟨?_, ?_, ?_, ?_⟩
  · rw [copyByte_bytesCopied, grown, ← storeString_append, ← h.packet, ← h.destBuffer, copyByte,
      escapeByte]
    dsimp only
    split <;> rfl
  · rw [copyByte_bytesCopied, grown, List.length_append, ← Nat.add_assoc, ← h.destBuffer,
      copyByte, escapeByte]
    dsimp only
    split <;> rfl
  · rw [copyByte_bytesCopied, ← Nat.add_assoc, ← h.srcBuffer, copyByte]
    dsimp only
    split <;> rfl
  · rw [copyByte_bytesCopied, grown, List.length_append, ← h.bufferSize, copyByte, escapeByte]
    dsimp only
    split <;> rfl

theorem copyByte_bufferSize :
    s.bufferSize < (copyByte memory s).bufferSize ∧
      (copyByte memory s).bufferSize ≤ s.bufferSize + 2 := by
  unfold copyByte
  dsimp only
  split <;> exact ⟨by simp only; omega, by simp only; omega⟩

/-- The inner loop ends with a chunk that is not empty: the rest of the buffer, or just so many
bytes as reach the limit. -/
theorem copyBytes_spec (nonempty : 0 < size) :
    ∃ s, copyBytes memory size ⟨gdb, bufferStart + 19, src, 0, 0⟩ = some s ∧
      Copied memory gdb src s ∧ 0 < s.bytesCopied ∧ s.bytesCopied ≤ size ∧
      s.bufferSize ≤ 1018 ∧ (escaped (chunk memory src (s.bytesCopied - 1))).length < 1017 ∧
      (1017 ≤ s.bufferSize ∨ s.bytesCopied = size) := by
  have start : Copied memory gdb src ⟨gdb, bufferStart + 19, src, 0, 0⟩ := ⟨rfl, rfl, rfl, rfl⟩
  have ends : ∃ s, copyBytes memory size ⟨gdb, bufferStart + 19, src, 0, 0⟩ = some s ∧
      (Copied memory gdb src s ∧ s.bytesCopied ≤ size ∧ s.bufferSize ≤ 1018 ∧
        (escaped (chunk memory src (s.bytesCopied - 1))).length < 1017) ∧
      (s.bufferSize < maxBufferSize - 1 && s.bytesCopied < size) = false := by
    refine whileLoop_total
      (fun s => Copied memory gdb src s ∧ s.bytesCopied ≤ size ∧ s.bufferSize ≤ 1018 ∧
        (escaped (chunk memory src (s.bytesCopied - 1))).length < 1017)
      (fun s => maxBufferSize - 1 - s.bufferSize)
      ⟨start, Nat.zero_le _, Nat.zero_le _, show 0 < 1017 by decide⟩
      (by rw [maxBufferSize_eq]; omega) ?_
    rintro t ⟨copied, low, high, -⟩ guard
    simp only [Bool.and_eq_true, decide_eq_true_eq] at guard
    rw [maxBufferSize_eq] at guard
    obtain ⟨more, most⟩ := @copyByte_bufferSize memory t
    refine ⟨_, rfl, ⟨copyByte_copied copied, ?_, ?_, ?_⟩, ?_⟩
    · rw [copyByte_bytesCopied]
      omega
    · omega
    · rw [copyByte_bytesCopied, Nat.add_sub_cancel, ← copied.bufferSize]
      omega
    · rw [maxBufferSize_eq]
      omega
  obtain ⟨s, run, ⟨copied, low, high, early⟩, stop⟩ := ends
  simp only [Bool.and_eq_false_iff, decide_eq_false_iff_not] at stop
  rw [maxBufferSize_eq] at stop
  have positive : 0 < s.bytesCopied := by
    by_contra none
    have empty : s.bufferSize = 0 := by
      rw [copied.bufferSize, Nat.eq_zero_of_not_pos none]
      rfl
    omega
  exact ⟨s, run, copied, positive, low, high, early, by omega⟩

end copy

/-- A command to write some bytes from an address on. -/
structure MemoryWrite where
  address : UInt32
  data : List UInt8
  deriving DecidableEq, Repr

/-- The payload for a write: `X`, address, `,`, length, `:` and the escaped bytes. -/
def MemoryWrite.payload (w : MemoryWrite) : List UInt8 :=
  chunkHeader w.address w.data.length ++ 0x3a :: escaped w.data

/-- The write that a payload asks for, if it has that form and as many bytes as it announces. -/
def decodePayload (payload : List UInt8) : Option MemoryWrite := do
  let cs ← expect 0x58 payload
  let (address, cs) ← readHex 8 0 cs
  let cs ← expect 0x2c cs
  let (length, cs) ← readHex 8 0 cs
  let cs ← expect 0x3a cs
  let data ← unescape 0x7d 0x20 cs
  if data.length = length then some ⟨UInt32.ofNat address, data⟩ else none

theorem decodePayload_payload {w : MemoryWrite} (h : w.data.length < 16 ^ 8) :
    decodePayload w.payload = some w := by
  have address : w.address.toNat < 16 ^ 8 := w.address.toNat_lt
  have data : unescape 0x7d 0x20 (escaped w.data) = some w.data := unescape_escape rfl _
  simp only [decodePayload, MemoryWrite.payload, chunkHeader, List.cons_append, List.append_assoc,
    expect_cons, readHex_hexDigits, Nat.mod_eq_of_lt address, Nat.mod_eq_of_lt h, Nat.zero_mul,
    Nat.zero_add, Option.bind_eq_bind, Option.bind_some, data, if_true, UInt32.ofNat_toNat]

section chunks

variable {memory : Nat → UInt8}

theorem chunkHeader_length (address : UInt32) (n : Nat) : (chunkHeader address n).length = 18 := by
  simp [chunkHeader]

/-- The packet behind `$` once the command header is in front of the escaped bytes. -/
theorem window_header (gdb : GdbProtocolData) {header : List UInt8} (enc : List UInt8)
    (length : header.length = 18) :
    ((sprintf (gdb.storeString 20 enc) bufferStart header).store (bufferStart + 18) 0x3a).window 1
      (19 + enc.length) = header ++ 0x3a :: enc := by
  set g := (sprintf (gdb.storeString 20 enc) bufferStart header).store (bufferStart + 18) 0x3a
    with hg
  have chain : g = (((gdb.storeString 20 enc).storeString 1 header).storeString 19 [0]).storeString
      19 [0x3a] := by
    have split := storeString_append (gdb.storeString 20 enc) 1 header [0]
    rw [length] at split
    rw [hg, sprintf, bufferStart, ← split]
    rfl
  have parts : g.window 1 (18 + 1 + enc.length) =
      g.window 1 18 ++ g.window (1 + 18) 1 ++ g.window (1 + (18 + 1)) enc.length := by
    rw [window_append, window_append]
  have front : g.window 1 18 = header := by
    rw [chain, window_storeString_apart (by omega), window_storeString_apart (by omega), ← length]
    exact window_storeString _ _ _
  have colon : g.window 19 1 = [0x3a] := by
    rw [chain]
    exact window_storeString _ _ _
  have data : g.window 20 enc.length = enc := by
    rw [chain, window_storeString_apart (Or.inr (Nat.le_refl 20)),
      window_storeString_apart (Or.inr (Nat.le_refl 20)), window_storeString_apart (by omega)]
    exact window_storeString _ _ _
  rw [parts, front, colon, data, List.append_assoc]
  rfl

/-- The indices of the packet stored to for a chunk that takes `n` bytes when escaped. -/
def chunkIndices (n : Nat) : List Nat :=
  List.range' 20 n ++ List.range' 1 19 ++ [19] ++ frameIndices (19 + n)

/-- The last one is that of the NUL behind the two digits of the sum. -/
theorem chunkIndices_greatest (n : Nat) : IsGreatest {i | i ∈ chunkIndices n} (23 + n) := by
  refine ⟨?_, ?_⟩
  · simp only [chunkIndices, frameIndices, Set.mem_ofPred_eq, List.mem_append, List.mem_singleton]
    omega
  · intro i hi
    simp only [chunkIndices, frameIndices, Set.mem_ofPred_eq, List.mem_append, List.mem_singleton,
      List.mem_range'_1] at hi
    omega

/-- One turn of the outer loop: a packet with the next `k` bytes of the buffer. -/
structure Turn (memory : Nat → UInt8) (s : WriteState) (k : Nat) (s' : WriteState) : Prop where
  positive : 0 < k
  inside : k ≤ s.size
  short : (escaped (chunk memory s.srcBuffer k)).length ≤ 1018
  early : (escaped (chunk memory s.srcBuffer (k - 1))).length < 1017
  full : 1017 ≤ (escaped (chunk memory s.srcBuffer k)).length ∨ k = s.size
  address : s'.address = s.address + UInt32.ofNat k
  srcBuffer : s'.srcBuffer = s.srcBuffer + k
  size : s'.size = s.size - k
  transmitted : s'.gdb.transmitted = s.gdb.transmitted ++
    [frame (MemoryWrite.payload ⟨s.address, chunk memory s.srcBuffer k⟩)]
  stored : s'.gdb.stored =
    s.gdb.stored ++ chunkIndices (escaped (chunk memory s.srcBuffer k)).length

theorem writeChunk_turn {s : WriteState} (nonempty : 0 < s.size) :
    ∃ k s', writeChunk memory s = some s' ∧ Turn memory s k s' := by
  obtain ⟨c, run, copied, positive, inside, short, early, full⟩ :=
    @copyBytes_spec memory s.gdb s.srcBuffer s.size nonempty
  have header := chunkHeader_length s.address c.bytesCopied
  have window := window_header s.gdb (escaped (chunk memory s.srcBuffer c.bytesCopied)) header
  rw [← copied.packet, ← copied.bufferSize] at window
  set g := (sprintf c.gdb bufferStart (chunkHeader s.address c.bytesCopied)).store
    (bufferStart + 18) 0x3a with hg
  have sent : g.transmitted = s.gdb.transmitted := by
    rw [hg, store_eq_storeString, sprintf, copied.packet]
    simp only [storeString_transmitted]
  have stored : g.stored = s.gdb.stored ++ (List.range' 20 c.bufferSize ++ List.range' 1 19 ++
      [19]) := by
    rw [hg, store_eq_storeString, sprintf, copied.packet, copied.bufferSize]
    simp only [storeString_stored, List.length_append, header, List.append_assoc]
    rfl
  have turn : writeChunk memory s = some ⟨gdbSendBuffer { g with len := 19 + c.bufferSize },
      s.address + UInt32.ofNat c.bytesCopied, c.srcBuffer, s.size - c.bytesCopied⟩ := by
    rw [writeChunk, run]
    rfl
  clear_value g
  obtain ⟨sent', stored'⟩ := @gdbSendBuffer_spec { g with len := 19 + c.bufferSize }
  have payload : GdbProtocolData.window { g with len := 19 + c.bufferSize } 1
      (19 + c.bufferSize) =
      MemoryWrite.payload ⟨s.address, chunk memory s.srcBuffer c.bytesCopied⟩ := by
    rw [MemoryWrite.payload, chunk_length, ← window]
    rfl
  refine ⟨c.bytesCopied, _, turn, positive, inside, copied.bufferSize ▸ short, early,
    copied.bufferSize ▸ full, rfl, copied.srcBuffer, rfl, ?_, ?_⟩
  · rw [payload] at sent'
    exact sent'.trans (congrArg (· ++ _) sent)
  · rw [chunkIndices, ← copied.bufferSize, ← List.append_assoc, ← stored]
    exact stored'

/-- The outer loop ends, and what every turn keeps holds at its end. -/
theorem gdbWriteMemory_run {gdb : GdbProtocolData} {address : UInt32} {size : Nat}
    (I : WriteState → Prop) (start : I ⟨gdb, address, 0, size⟩)
    (turn : ∀ s k s', I s → Turn memory s k s' → I s') :
    ∃ s, gdbWriteMemory gdb address memory size = some s.gdb ∧ I s ∧ s.size = 0 := by
  have ends : ∃ s, whileLoop (fun s => 0 < s.size) (writeChunk memory) (size + 1)
      ⟨gdb, address, 0, size⟩ = some s ∧ I s ∧ (decide (0 < s.size)) = false := by
    refine whileLoop_total I WriteState.size start (Nat.lt_succ_self size) ?_
    intro t ht more
    obtain ⟨k, t', run, here⟩ := @writeChunk_turn memory t (of_decide_eq_true more)
    have lower := here.size
    have positive := here.positive
    have inside := here.inside
    exact ⟨t', run, turn t k t' ht here, by omega⟩
  obtain ⟨s, run, hI, stop⟩ := ends
  refine ⟨s, ?_, hI, ?_⟩
  · rw [gdbWriteMemory, run]
    rfl
  · have := of_decide_eq_false stop
    omega

end chunks

/-- How some bytes are cut into writes: each one is addressed behind those before it and has just
so many bytes as reach the limit, or those that are left. -/
structure Chunks (address : UInt32) (bytes : List UInt8) (writes : List MemoryWrite) : Prop where
  data : writes.flatMap MemoryWrite.data = bytes
  addresses : ∀ k w, writes[k]? = some w →
    w.address = address + UInt32.ofNat ((writes.take k).flatMap MemoryWrite.data).length
  nonempty : ∀ w ∈ writes, w.data ≠ []
  early : ∀ w ∈ writes, (escaped w.data.dropLast).length < 1017
  full : ∀ k w, writes[k]? = some w → 1017 ≤ (escaped w.data).length ∨ k + 1 = writes.length

/-- The writes for the bytes before the `left` last ones, of which the next write, to `next`, is
the first. -/
structure Cutting (address : UInt32) (bytes : List UInt8) (writes : List MemoryWrite) (next : UInt32)
    (left : Nat) : Prop where
  rest : (writes.flatMap MemoryWrite.data).length + left = bytes.length
  next : next = address + UInt32.ofNat (writes.flatMap MemoryWrite.data).length
  chunks : Chunks address (bytes.take (writes.flatMap MemoryWrite.data).length) writes
  full : ∀ w ∈ writes, 1017 ≤ (escaped w.data).length ∨ left = 0

section cut

variable {memory : Nat → UInt8} {address next : UInt32} {bytes : List UInt8} {left size k : Nat}
  {writes : List MemoryWrite} {s s' : WriteState}

theorem chunks_nil (address : UInt32) : Chunks address [] [] := by
  refine ⟨rfl, ?_, ?_, ?_, ?_⟩ <;> simp

theorem Chunks.length_lt (h : Chunks address bytes writes) {w : MemoryWrite} (hw : w ∈ writes) :
    w.data.length < 16 ^ 8 := by
  have early := h.early w hw
  rw [escaped, escape_length, List.length_dropLast] at early
  omega

theorem chunk_dropLast (memory : Nat → UInt8) (src k : Nat) :
    (chunk memory src k).dropLast = chunk memory src (k - 1) := by
  cases k with
  | zero => rfl
  | succ k =>
    rw [chunk_append]
    exact List.dropLast_concat

theorem cut_start (address : UInt32) (bytes : List UInt8) :
    Cutting address bytes [] address bytes.length :=
  ⟨Nat.zero_add _, (UInt32.add_zero address).symm, chunks_nil address, by simp⟩

theorem Cutting.chunks_of_done (h : Cutting address bytes writes next 0) : Chunks address bytes writes := by
  have chunks := h.chunks
  have rest := h.rest
  rwa [List.take_of_length_le (by omega)] at chunks

/-- The write for the next `k` bytes. -/
def nextWrite (memory : Nat → UInt8) (s : WriteState) (k : Nat) : MemoryWrite :=
  ⟨s.address, chunk memory s.srcBuffer k⟩

/-- One turn cuts off the next write. -/
theorem Cutting.turn (h : Cutting address (chunk memory 0 size) writes s.address s.size)
    (source : s.srcBuffer = (writes.flatMap MemoryWrite.data).length)
    (turn : Turn memory s k s') :
    Cutting address (chunk memory 0 size) (writes ++ [nextWrite memory s k])
        s'.address s'.size ∧
      s'.srcBuffer = ((writes ++
        [nextWrite memory s k]).flatMap MemoryWrite.data).length := by
  have inside := turn.inside
  have positive := turn.positive
  have rest := h.rest
  have before := h.chunks.data
  rw [chunk_length] at rest
  have data : (writes ++ [nextWrite memory s k]).flatMap MemoryWrite.data =
      chunk memory 0 (s.srcBuffer + k) := by
    have split : chunk memory 0 size =
        chunk memory 0 s.srcBuffer ++ chunk memory (0 + s.srcBuffer) (size - s.srcBuffer) := by
      rw [← chunk_append, Nat.add_sub_cancel' (by omega)]
    rw [split, ← source, List.take_left' (chunk_length _ _ _)] at before
    rw [List.flatMap_append, before, chunk_append, List.flatMap_singleton, Nat.zero_add]
    rfl
  have length : ((writes ++ [nextWrite memory s k]).flatMap
      MemoryWrite.data).length = s.srcBuffer + k := by rw [data, chunk_length]
  refine ⟨⟨?_, ?_, ⟨?_, ?_, ?_, ?_, ?_⟩, ?_⟩, by rw [length, turn.srcBuffer]⟩
  · rw [length, chunk_length, turn.size]
    omega
  · rw [length, turn.address, h.next, ← source, UInt32.ofNat_add, UInt32.add_assoc]
  · have front : size = s.srcBuffer + k + (size - (s.srcBuffer + k)) := by omega
    rw [length, data]
    conv_rhs => rw [front, chunk_append]
    rw [List.take_left' (chunk_length _ _ _)]
  · intro j w hj
    by_cases hlt : j < writes.length
    · rw [List.getElem?_append_left hlt] at hj
      rw [List.take_append_of_le_length (Nat.le_of_lt hlt)]
      exact h.chunks.addresses j w hj
    · have last : j = writes.length := by
        have := (List.getElem?_eq_some_iff.mp hj).1
        rw [List.length_append, List.length_singleton] at this
        omega
      rw [last, List.getElem?_concat_length] at hj
      cases Option.some.inj hj
      rw [last, List.take_left]
      exact h.next
  · intro w hw
    rcases List.mem_append.mp hw with hw | hw
    · exact h.chunks.nonempty w hw
    · rw [List.mem_singleton.mp hw, nextWrite, ← List.length_pos_iff, chunk_length]
      exact positive
  · intro w hw
    rcases List.mem_append.mp hw with hw | hw
    · exact h.chunks.early w hw
    · rw [List.mem_singleton.mp hw, nextWrite, chunk_dropLast]
      exact turn.early
  · intro j w hj
    by_cases hlt : j < writes.length
    · rw [List.getElem?_append_left hlt] at hj
      left
      exact (h.full w (List.mem_of_getElem? hj)).resolve_right (by omega)
    · right
      have := (List.getElem?_eq_some_iff.mp hj).1
      rw [List.length_append, List.length_singleton] at this ⊢
      omega
  · intro w hw
    rcases List.mem_append.mp hw with hw | hw
    · left
      exact (h.full w hw).resolve_right (by omega)
    · rw [List.mem_singleton.mp hw, turn.size]
      exact turn.full.imp_right fun whole => by omega

end cut

/-- What has been sent after some turns. -/
structure Sent (memory : Nat → UInt8) (gdb : GdbProtocolData) (address : UInt32) (size : Nat)
    (writes : List MemoryWrite) (s : WriteState) : Prop where
  cut : Cutting address (chunk memory 0 size) writes s.address s.size
  source : s.srcBuffer = (writes.flatMap MemoryWrite.data).length
  transmitted : s.gdb.transmitted = gdb.transmitted ++ (writes.map MemoryWrite.payload).map frame

theorem sent_turn {memory : Nat → UInt8} {gdb : GdbProtocolData} {address : UInt32} {size : Nat}
    {writes : List MemoryWrite} {s s' : WriteState} {k : Nat}
    (h : Sent memory gdb address size writes s) (turn : Turn memory s k s') :
    Sent memory gdb address size (writes ++ [nextWrite memory s k]) s' := by
  obtain ⟨cut, source⟩ := h.cut.turn h.source turn
  refine ⟨cut, source, ?_⟩
  rw [turn.transmitted, h.transmitted, List.append_assoc, List.map_append, List.map_append]
  rfl

/-- A packet is sent for each of the chunks into which the buffer is cut. -/
theorem gdbWriteMemory_chunks (gdb : GdbProtocolData) (address : UInt32) (memory : Nat → UInt8)
    (size : Nat) : ∃ (gdb' : GdbProtocolData) (writes : List MemoryWrite),
      gdbWriteMemory gdb address memory size = some gdb' ∧
      gdb'.transmitted = gdb.transmitted ++ (writes.map MemoryWrite.payload).map frame ∧
      Chunks address ((List.range size).map memory) writes := by
  have start : Sent memory gdb address size [] ⟨gdb, address, 0, size⟩ := by
    have cut := cut_start address (chunk memory 0 size)
    rw [chunk_length] at cut
    exact ⟨cut, rfl, by simp⟩
  obtain ⟨s, run, ⟨writes, sent⟩, done⟩ := gdbWriteMemory_run
    (fun s => ∃ writes, Sent memory gdb address size writes s) ⟨[], start⟩
    (fun s k s' ⟨writes, h⟩ turn => ⟨_, sent_turn h turn⟩)
  have cut := sent.cut
  rw [done] at cut
  have chunks := cut.chunks_of_done
  rw [chunk, ← List.range_eq_range'] at chunks
  exact ⟨s.gdb, writes, run, sent.transmitted, chunks⟩

/-- The payloads sent decode to writes of the buffer, byte for byte, at consecutive addresses. -/
theorem gdbWriteMemory_decodes (gdb : GdbProtocolData) (address : UInt32) (memory : Nat → UInt8)
    (size : Nat) :
    ∃ (gdb' : GdbProtocolData) (payloads : List (List UInt8)) (writes : List MemoryWrite),
      gdbWriteMemory gdb address memory size = some gdb' ∧
      gdb'.transmitted = gdb.transmitted ++ payloads.map frame ∧
      payloads.map decodePayload = writes.map some ∧
      writes.flatMap MemoryWrite.data = (List.range size).map memory ∧
      ∀ k w, writes[k]? = some w →
        w.address = address + UInt32.ofNat ((writes.take k).flatMap MemoryWrite.data).length := by
  obtain ⟨gdb', writes, run, transmitted, chunks⟩ := gdbWriteMemory_chunks gdb address memory size
  refine ⟨gdb', writes.map MemoryWrite.payload, writes, run, transmitted, ?_, chunks.data,
    chunks.addresses⟩
  rw [List.map_map]
  apply List.map_congr_left
  intro w hw
  exact decodePayload_payload (chunks.length_lt hw)

/-- The indices stored to in some turns, for a buffer whose bytes take `total` bytes escaped. -/
structure Stored (memory : Nat → UInt8) (gdb : GdbProtocolData) (size : Nat) (indices : List Nat)
    (s : WriteState) : Prop where
  rest : s.srcBuffer + s.size = size
  stored : s.gdb.stored = gdb.stored ++ indices
  within : (escaped (chunk memory 0 size)).length ≤ 1000 → ∀ i ∈ indices, i < maxPacketSize
  beyond : 1000 < (escaped (chunk memory 0 size)).length → 0 < s.srcBuffer →
    ∃ i ∈ indices, maxPacketSize ≤ i

section stored

variable {memory : Nat → UInt8} {gdb : GdbProtocolData} {size : Nat}

/-- A large buffer already overruns the packet in the first turn. -/
theorem stored_turn {indices : List Nat} {s s' : WriteState} {k : Nat}
    (h : Stored memory gdb size indices s) (turn : Turn memory s k s') :
    Stored memory gdb size
      (indices ++ chunkIndices (escaped (chunk memory s.srcBuffer k)).length) s' := by
  have inside := turn.inside
  have greatest := chunkIndices_greatest (escaped (chunk memory s.srcBuffer k)).length
  have packetSize : maxPacketSize = 1024 := rfl
  refine ⟨?_, ?_, ?_, ?_⟩
  · rw [turn.srcBuffer, turn.size, ← h.rest]
    omega
  · rw [turn.stored, h.stored, List.append_assoc]
  · intro small i hi
    rcases List.mem_append.mp hi with hi | hi
    · exact h.within small i hi
    · have part : (escaped (chunk memory s.srcBuffer k)).length ≤
          (escaped (chunk memory 0 size)).length := by
        have split : size = s.srcBuffer + k + (s.size - k) := by
          have := h.rest
          omega
        rw [split, chunk_append, chunk_append, Nat.zero_add, escaped_append, escaped_append,
          List.length_append, List.length_append]
        omega
      have le := greatest.2 hi
      omega
  · intro large _
    by_cases first : s.srcBuffer = 0
    · refine ⟨_, List.mem_append_right _ greatest.1, ?_⟩
      rcases turn.full with full | whole
      · omega
      · have size : s.size = size := by
          have := h.rest
          omega
        rw [first, whole, size]
        omega
    · obtain ⟨i, hi, le⟩ := h.beyond large (Nat.pos_of_ne_zero first)
      exact ⟨i, List.mem_append_left _ hi, le⟩

theorem gdbWriteMemory_stored (gdb : GdbProtocolData) (address : UInt32) (memory : Nat → UInt8)
    (size : Nat) : ∃ (gdb' : GdbProtocolData) (indices : List Nat),
      gdbWriteMemory gdb address memory size = some gdb' ∧
      gdb'.stored = gdb.stored ++ indices ∧
      ((escaped (chunk memory 0 size)).length ≤ 1000 → ∀ i ∈ indices, i < maxPacketSize) ∧
      (1000 < (escaped (chunk memory 0 size)).length → ∃ i ∈ indices, maxPacketSize ≤ i) := by
  have start : Stored memory gdb size [] ⟨gdb, address, 0, size⟩ := by
    refine ⟨Nat.zero_add size, by simp, by simp, ?_⟩
    intro _ none
    exact absurd none (Nat.lt_irrefl 0)
  obtain ⟨s, run, ⟨indices, stored⟩, done⟩ := gdbWriteMemory_run
    (fun s => ∃ indices, Stored memory gdb size indices s) ⟨[], start⟩
    (fun s k s' ⟨indices, h⟩ turn => ⟨_, stored_turn h turn⟩)
  refine ⟨s.gdb, indices, run, stored.stored, stored.within, ?_⟩
  intro large
  apply stored.beyond large
  have all := stored.rest
  by_contra zero
  have empty : size = 0 := by omega
  have none : (escaped (chunk memory 0 0)).length = 0 := rfl
  rw [empty, none] at large
  omega

end stored

/-- Every index stored to is inside the packet exactly when the bytes of the buffer, with one more
for each that is escaped, are at most 1000. -/
theorem gdbWriteMemory_inPacket (gdb : GdbProtocolData) (address : UInt32) (memory : Nat → UInt8)
    (size : Nat) : ∃ (gdb' : GdbProtocolData) (indices : List Nat),
      gdbWriteMemory gdb address memory size = some gdb' ∧
      gdb'.stored = gdb.stored ++ indices ∧
      ((∀ i ∈ indices, i < maxPacketSize) ↔
        size + ((List.range size).map memory).countP special ≤ 1000) := by
  obtain ⟨gdb', indices, run, stored, within, beyond⟩ :=
    gdbWriteMemory_stored gdb address memory size
  have length : (escaped (chunk memory 0 size)).length =
      size + ((List.range size).map memory).countP special := by
    rw [escaped, escape_length, chunk_length, chunk, List.range_eq_range']
  rw [length] at within beyond
  refine ⟨gdb', indices, run, stored, ?_, within⟩
  intro all
  by_contra large
  obtain ⟨i, hi, le⟩ := beyond (Nat.lt_of_not_le large)
  exact absurd (all i hi) (Nat.not_lt.mpr le)

/-- A thousand and one bytes are too many. -/
theorem gdbWriteMemory_overrun :
    ∃ gdb', gdbWriteMemory ⟨fun _ => 0, 0, [], []⟩ 0 (fun _ => 0) 1001 = some gdb' ∧
      ∃ i ∈ gdb'.stored, maxPacketSize ≤ i := by
  obtain ⟨gdb', indices, run, stored, _, beyond⟩ :=
    gdbWriteMemory_stored ⟨fun _ => 0, 0, [], []⟩ 0 (fun _ => 0) 1001
  refine ⟨gdb', run, ?_⟩
  rw [stored, List.nil_append]
  exact beyond (by decide +kernel)

end ArmRunner
