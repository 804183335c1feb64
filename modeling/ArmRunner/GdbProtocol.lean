import ArmRunner.Lib.CRun
import ArmRunner.Lib.Wire
import Mathlib.Data.UInt

namespace ArmRunner

open CRun Wire

def maxPacketSize : Nat := 1024

def maxBufferSize : Nat := maxPacketSize - 6

/-- `struct gdb_protocol_data`, with a packet that has no end. It also records the indices of the
packet that are stored to, and the packets that `gdb_send_buffer` hands over. -/
structure GdbProtocolData where
  packet : Nat → UInt8
  len : Nat
  stored : List Nat
  transmitted : List (List UInt8)

/-- The index in `packet` that `buffer` points to. -/
def bufferStart : Nat := 1

def GdbProtocolData.store (gdb : GdbProtocolData) (i : Nat) (c : UInt8) : GdbProtocolData :=
  { gdb with packet := Function.update gdb.packet i c, stored := gdb.stored ++ [i] }

def GdbProtocolData.storeString (gdb : GdbProtocolData) (i : Nat) :
    List UInt8 → GdbProtocolData
  | [] => gdb
  | c :: cs => (gdb.store i c).storeString (i + 1) cs

/-- The `n` bytes of the packet from index `i` on. -/
def GdbProtocolData.window (gdb : GdbProtocolData) (i n : Nat) : List UInt8 :=
  (List.range' i n).map gdb.packet

/-- `sprintf` also stores the terminating NUL. -/
def sprintf (gdb : GdbProtocolData) (i : Nat) (text : List UInt8) : GdbProtocolData :=
  gdb.storeString i (text ++ [0])

/-- `while (gdb->len--)`. -/
def sumLoop (packet : Nat → UInt8) : Nat → UInt8 × Nat → UInt8 × Nat
  | 0, s => s
  | len + 1, (check, i) => sumLoop packet len (check + packet i, i + 1)

def gdbTransmitPacket (gdb : GdbProtocolData) : GdbProtocolData :=
  { gdb with transmitted := gdb.transmitted ++ [gdb.window 0 gdb.len] }

def gdbSendBuffer (gdb : GdbProtocolData) : GdbProtocolData :=
  let gdb := gdb.store 0 0x24
  let (check, i) := sumLoop gdb.packet gdb.len (0, 1)
  let gdb := gdb.store i 0x23
  let i := i + 1
  let gdb := sprintf gdb i (hexDigits 2 check.toNat)
  let i := i + 2
  let gdb := gdb.store i 0
  gdbTransmitPacket { gdb with len := i }

/-- The characters `$`, `#` and the escape character itself. -/
def special (c : UInt8) : Bool := c == 0x24 || c == 0x23 || c == 0x7d

/-- The variables of the inner loop of `gdb_write_memory`, with indices for the pointers. -/
structure CopyState where
  gdb : GdbProtocolData
  destBuffer : Nat
  srcBuffer : Nat
  bytesCopied : Nat
  bufferSize : Nat

def copyByte (memory : Nat → UInt8) (s : CopyState) : CopyState :=
  let c := memory s.srcBuffer
  let s :=
    if special c then
      { s with
        gdb := (s.gdb.store s.destBuffer 0x7d).store (s.destBuffer + 1) (c ^^^ 0x20)
        destBuffer := s.destBuffer + 1
        bufferSize := s.bufferSize + 1 }
    else { s with gdb := s.gdb.store s.destBuffer c }
  { s with
    bufferSize := s.bufferSize + 1
    bytesCopied := s.bytesCopied + 1
    destBuffer := s.destBuffer + 1
    srcBuffer := s.srcBuffer + 1 }

/-- The inner loop. Each turn adds to `bufferSize`, so its guard is tested at most `maxBufferSize`
times. -/
def copyBytes (memory : Nat → UInt8) (size : Nat) (s : CopyState) : Option CopyState :=
  whileLoop (fun s => s.bufferSize < maxBufferSize - 1 && s.bytesCopied < size)
    (fun s => some (copyByte memory s)) maxBufferSize s

/-- The variables of the outer loop. -/
structure WriteState where
  gdb : GdbProtocolData
  address : UInt32
  srcBuffer : Nat
  size : Nat

def chunkHeader (address : UInt32) (bytesCopied : Nat) : List UInt8 :=
  0x58 :: hexDigits 8 address.toNat ++ 0x2c :: hexDigits 8 bytesCopied

def writeChunk (memory : Nat → UInt8) (s : WriteState) : Option WriteState := do
  let c ← copyBytes memory s.size ⟨s.gdb, bufferStart + 19, s.srcBuffer, 0, 0⟩
  let gdb := sprintf c.gdb bufferStart (chunkHeader s.address c.bytesCopied)
  let gdb := gdb.store (bufferStart + 18) 0x3a
  -- the answer is read next: it is only traced, and stores nothing in the packet
  let gdb := gdbSendBuffer { gdb with len := 19 + c.bufferSize }
  some ⟨gdb, s.address + UInt32.ofNat c.bytesCopied, c.srcBuffer, s.size - c.bytesCopied⟩

/-- `memory` holds the bytes from `buffer` on. -/
def gdbWriteMemory (gdb : GdbProtocolData) (address : UInt32) (memory : Nat → UInt8) (size : Nat) :
    Option GdbProtocolData :=
  (whileLoop (fun s => 0 < s.size) (writeChunk memory) (size + 1) ⟨gdb, address, 0, size⟩).map
    WriteState.gdb

section stores

variable {gdb : GdbProtocolData} {i j n m : Nat} {bs cs : List UInt8}

theorem store_packet (c : UInt8) :
    (gdb.store i c).packet j = if j = i then c else gdb.packet j :=
  Function.update_apply gdb.packet i c j

theorem storeString_append (gdb : GdbProtocolData) (i : Nat) (bs cs : List UInt8) :
    (gdb.storeString i bs).storeString (i + bs.length) cs = gdb.storeString i (bs ++ cs) := by
  induction bs generalizing gdb i with
  | nil => rfl
  | cons b bs ih =>
    have rest := ih (gdb.store i b) (i + 1)
    rw [List.length_cons, List.cons_append, GdbProtocolData.storeString,
      GdbProtocolData.storeString, ← rest]
    congr 1
    omega

theorem store_eq_storeString (c : UInt8) : gdb.store i c = gdb.storeString i [c] := rfl

theorem storeString_stored :
    (gdb.storeString i bs).stored = gdb.stored ++ List.range' i bs.length := by
  induction bs generalizing gdb i with
  | nil => simp [GdbProtocolData.storeString]
  | cons b bs ih =>
    rw [GdbProtocolData.storeString, ih, GdbProtocolData.store, List.append_assoc,
      List.length_cons, List.range'_succ, List.singleton_append]

theorem storeString_transmitted : (gdb.storeString i bs).transmitted = gdb.transmitted := by
  induction bs generalizing gdb i with
  | nil => rfl
  | cons b bs ih => exact ih

theorem storeString_before (h : j < i) : (gdb.storeString i bs).packet j = gdb.packet j := by
  induction bs generalizing gdb i with
  | nil => rfl
  | cons b bs ih =>
    rw [GdbProtocolData.storeString, ih (by omega), store_packet, if_neg (by omega)]

theorem storeString_behind (h : i + bs.length ≤ j) :
    (gdb.storeString i bs).packet j = gdb.packet j := by
  induction bs generalizing gdb i with
  | nil => rfl
  | cons b bs ih =>
    rw [List.length_cons] at h
    rw [GdbProtocolData.storeString, ih (by omega), store_packet, if_neg (by omega)]

theorem window_append : gdb.window i (n + m) = gdb.window i n ++ gdb.window (i + n) m := by
  rw [GdbProtocolData.window, ← List.range'_append_1, List.map_append]
  rfl

/-- A store leaves the windows before it and behind it alone. -/
theorem window_storeString_apart (h : i + n ≤ j ∨ j + bs.length ≤ i) :
    (gdb.storeString j bs).window i n = gdb.window i n := by
  apply List.map_congr_left
  intro k hk
  have bounds := List.mem_range'_1.mp hk
  rcases h with before | behind
  · exact storeString_before (by omega)
  · exact storeString_behind (by omega)

theorem window_storeString (gdb : GdbProtocolData) (i : Nat) (bs : List UInt8) :
    (gdb.storeString i bs).window i bs.length = bs := by
  induction bs generalizing gdb i with
  | nil => rfl
  | cons b bs ih =>
    have rest := ih (gdb.store i b) (i + 1)
    have head : (gdb.storeString i (b :: bs)).packet i = b := by
      rw [GdbProtocolData.storeString, storeString_before (by omega), store_packet,
        if_pos rfl]
    rw [GdbProtocolData.window, List.length_cons, List.range'_succ, List.map_cons, head]
    exact congrArg (b :: ·) rest

end stores

/-- A payload as it is framed: between `$` and `#`, and followed by the sum of its bytes. -/
def frame (payload : List UInt8) : List UInt8 :=
  0x24 :: payload ++ 0x23 :: hexDigits 2 payload.sum.toNat

section send

variable {gdb : GdbProtocolData}

theorem sumLoop_eq (packet : Nat → UInt8) (n i : Nat) (check : UInt8) :
    sumLoop packet n (check, i) = (check + ((List.range' i n).map packet).sum, i + n) := by
  induction n generalizing i check with
  | zero => simp [sumLoop]
  | succ n ih =>
    rw [sumLoop, ih, List.range'_succ, List.map_cons, List.sum_cons, UInt8.add_assoc]
    congr 1
    omega

/-- The indices stored to when a payload of `n` bytes is framed. -/
def frameIndices (n : Nat) : List Nat :=
  [0] ++ [n + 1] ++ List.range' (n + 2) 3 ++ [n + 4]

/-- The packet after a payload of `n` bytes is framed, as a chain of stores. -/
def framed (gdb : GdbProtocolData) (n : Nat) (check : UInt8) : GdbProtocolData :=
  ((((gdb.storeString 0 [0x24]).storeString (n + 1) [0x23]).storeString (n + 2)
    (hexDigits 2 check.toNat)).storeString (n + 4) [0]).storeString (n + 4) [0]

theorem gdbSendBuffer_framed : gdbSendBuffer gdb = gdbTransmitPacket
    { framed gdb gdb.len (gdb.window 1 gdb.len).sum with len := gdb.len + 4 } := by
  have opening : (gdb.store 0 0x24).window 1 gdb.len = gdb.window 1 gdb.len :=
    window_storeString_apart (show 1 + gdb.len ≤ 0 ∨ 0 + [0x24].length ≤ 1 by simp)
  have sum : sumLoop (gdb.store 0 0x24).packet (gdb.store 0 0x24).len (0, 1) =
      ((gdb.window 1 gdb.len).sum, gdb.len + 1) := by
    rw [sumLoop_eq, UInt8.zero_add, Nat.add_comm 1]
    exact Prod.ext (congrArg List.sum opening) rfl
  rw [gdbSendBuffer, sum]
  simp only [sprintf, framed, ← storeString_append, hexDigits_length, store_eq_storeString,
    Nat.add_assoc, Nat.reduceAdd]

theorem window_split (n : Nat) : gdb.window 0 (n + 4) =
    gdb.window 0 1 ++ gdb.window 1 n ++ gdb.window (n + 1) 1 ++ gdb.window (n + 2) 2 := by
  have digits : gdb.window 0 (n + 2 + 2) = gdb.window 0 (n + 2) ++ gdb.window (0 + (n + 2)) 2 :=
    window_append
  have hash : gdb.window 0 (n + 1 + 1) = gdb.window 0 (n + 1) ++ gdb.window (0 + (n + 1)) 1 :=
    window_append
  have dollar : gdb.window 0 (1 + n) = gdb.window 0 1 ++ gdb.window (0 + 1) n := window_append
  rw [digits, hash, Nat.add_comm n 1, dollar, Nat.zero_add, Nat.zero_add, Nat.zero_add,
    Nat.add_comm 1 n]

theorem framed_window (n : Nat) (check : UInt8) : (framed gdb n check).window 0 (n + 4) =
    0x24 :: gdb.window 1 n ++ 0x23 :: hexDigits 2 check.toNat := by
  have opening : (framed gdb n check).window 0 1 = [0x24] := by
    rw [framed, window_storeString_apart (by omega), window_storeString_apart (by omega),
      window_storeString_apart (by omega), window_storeString_apart (by omega)]
    exact window_storeString _ _ _
  have payload : (framed gdb n check).window 1 n = gdb.window 1 n := by
    rw [framed, window_storeString_apart (by omega), window_storeString_apart (by omega),
      window_storeString_apart (by omega), window_storeString_apart (by omega)]
    exact window_storeString_apart (Or.inr (Nat.le_refl 1))
  have hash : (framed gdb n check).window (n + 1) 1 = [0x23] := by
    rw [framed, window_storeString_apart (by omega), window_storeString_apart (by omega),
      window_storeString_apart (by omega)]
    exact window_storeString _ _ _
  have closing : (framed gdb n check).window (n + 2) 2 = hexDigits 2 check.toNat := by
    rw [framed, window_storeString_apart (by omega), window_storeString_apart (by omega)]
    have digits := hexDigits_length 2 check.toNat
    generalize hexDigits 2 check.toNat = text at digits
    rw [← digits]
    exact window_storeString _ _ _
  rw [window_split, opening, payload, hash, closing]
  simp

/-- Framing sends the payload that the packet holds from index 1 on. -/
theorem gdbSendBuffer_spec :
    (gdbSendBuffer gdb).transmitted = gdb.transmitted ++ [frame (gdb.window 1 gdb.len)] ∧
      (gdbSendBuffer gdb).stored = gdb.stored ++ frameIndices gdb.len := by
  rw [gdbSendBuffer_framed]
  refine ⟨?_, ?_⟩
  · have sent : (framed gdb gdb.len (gdb.window 1 gdb.len).sum).transmitted = gdb.transmitted := by
      simp only [framed, storeString_transmitted]
    rw [gdbTransmitPacket, frame, ← framed_window]
    exact congrArg (· ++ _) sent
  · simp only [gdbTransmitPacket, framed, storeString_stored, hexDigits_length, frameIndices,
      List.append_assoc, List.length_singleton]
    rfl

end send

end ArmRunner
