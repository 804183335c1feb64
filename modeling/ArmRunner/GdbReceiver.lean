import ArmRunner.Lib.Words
import ArmRunner.Scanner
import ArmRunner.GdbMemory

namespace ArmRunner

open CRun Wire Words Lexer

/-- `Rio_writen` of the bytes to the simulator. -/
def GdbProtocolData.write (gdb : GdbProtocolData) (text : List UInt8) : GdbProtocolData :=
  { gdb with transmitted := gdb.transmitted ++ [text] }

def gdbSendAck (gdb : GdbProtocolData) : GdbProtocolData := gdb.write [0x2b]

def gdbRequireRetransmission (gdb : GdbProtocolData) : GdbProtocolData := gdb.write [0x2d]

/-- A hexadecimal digit in either case. -/
def hexDigitValue (c : UInt8) : Option Nat :=
  if 0x30 ≤ c ∧ c ≤ 0x39 then some (c.toNat - 0x30)
  else if 0x61 ≤ c ∧ c ≤ 0x66 then some (c.toNat - 0x57)
  else if 0x41 ≤ c ∧ c ≤ 0x46 then some (c.toNat - 0x37)
  else none

/-- `sscanf` with `%x` of a text that begins with a digit: the digits up to another character. -/
def sscanfHex (acc : Nat) : List UInt8 → Nat
  | [] => acc
  | c :: cs =>
    match hexDigitValue c with
    | some v => sscanfHex (16 * acc + v) cs
    | none => acc

/-- The sum over the payload and the one that the packet gives. -/
def packetSums (packet : List UInt8) : UInt8 × Nat :=
  -- for (i=1; i<length-3; i++)
  let (check, i) := sumLoop (fun k => packet.getD k 0) (packet.length - 3 - 1) (0, 1)
  (check, sscanfHex 0 (packet.drop (i + 1)))

/-- The result tells whether the packet is taken as an answer. -/
def gdbPacketCheck (gdb : GdbProtocolData) (packet : List UInt8) : GdbProtocolData × Bool :=
  let (check, given) := packetSums packet
  if check.toNat = given then (gdbSendAck gdb, true) else (gdbRequireRetransmission gdb, false)

/-- `strcpy` of the data into the buffer, which is framed. -/
def gdbSendData (gdb : GdbProtocolData) (data : List UInt8) : GdbProtocolData :=
  gdbSendBuffer { gdb.storeString bufferStart (data ++ [0]) with len := data.length }

/-- The variables of `write_uint32`, with an index for the pointer. -/
structure DigitState where
  gdb : GdbProtocolData
  data : Nat
  i : Int

/-- `host` and `target` tell which of the two stores a word with its most significant byte first.
`target` is set by `BIG_ENDIAN_SIMULATOR`. -/
def writeUint32 (host target : Bool) (gdb : GdbProtocolData) (data : Nat) (value : UInt32) :
    Option GdbProtocolData := do
  let mem := if host then beBytes 4 value.toNat else leBytes 4 value.toNat
  let (i, step) := if host = target then ((0 : Int), (1 : Int)) else (3, -1)
  let s ← whileLoop (fun s => s.i < 4 && 0 ≤ s.i)
    (fun s => some ⟨sprintf s.gdb s.data (hexDigits 2 (mem.getD s.i.toNat 0).toNat), s.data + 2,
      s.i + step⟩) 5 (DigitState.mk gdb data i)
  some (s.gdb.store s.data 0)

/-- As in `gdb_write_memory`, the answer is read next. -/
def gdbWriteRegister (host target : Bool) (gdb : GdbProtocolData) (num : UInt8) (value : UInt32) :
    Option GdbProtocolData := do
  let gdb := sprintf gdb bufferStart (0x50 :: hexDigits 2 num.toNat ++ [0x3d])
  let gdb ← writeUint32 host target gdb (bufferStart + 4) value
  some (gdbSendBuffer { gdb with len := 12 })

def gdbCont (gdb : GdbProtocolData) : GdbProtocolData := gdbSendData gdb [0x63]

def gdbStep (gdb : GdbProtocolData) : GdbProtocolData := gdbSendData gdb [0x73]

/-- The receiver takes the packet: the scanner finds it as one token, its sum is the one it gives,
and it is acknowledged. -/
structure Accepted (packet : List UInt8) : Prop where
  token : scan packet = [⟨.packet, packet⟩]
  sums : (packetSums packet).1.toNat = (packetSums packet).2
  acknowledged : ∀ gdb, gdbPacketCheck gdb packet = (gdbSendAck gdb, true)

/-- A payload without the bytes that frame a packet. -/
def Plain (payload : List UInt8) : Prop := ∀ c ∈ payload, isFraming c = false

section accept

variable {p payload bs cs : List UInt8} {h1 h2 : UInt8} {v1 v2 : Nat}

theorem Plain.append (hb : Plain bs) (hc : Plain cs) : Plain (bs ++ cs) := by
  intro c h
  rcases List.mem_append.mp h with h | h
  · exact hb c h
  · exact hc c h

theorem Plain.cons {c : UInt8} (hc : isFraming c = false) (hb : Plain bs) : Plain (c :: bs) := by
  intro d h
  rcases List.mem_cons.mp h with rfl | h
  · exact hc
  · exact hb d h

theorem plain_nil : Plain [] := by
  intro c h
  simp at h

/-- The receiver sums the bytes between `$` and `#`. -/
theorem packetSums_packetText (hv1 : hexDigitValue h1 = some v1)
    (hv2 : hexDigitValue h2 = some v2) :
    packetSums (packetText p h1 h2) = (p.sum, 16 * v1 + v2) := by
  have turns : (packetText p h1 h2).length - 3 - 1 = p.length := by
    rw [packetText_length]
    omega
  have window : (List.range' 1 p.length).map (fun k => (packetText p h1 h2).getD k 0) = p := by
    apply List.ext_getElem
    · simp
    · intro i hi hp
      simp only [List.getElem_map, List.getElem_range', packetText, List.getD_eq_getElem?_getD]
      rw [List.getElem?_append_left (by simp; omega), show 1 + 1 * i = i + 1 by omega]
      simp [hp]
  have digits : (packetText p h1 h2).drop (1 + p.length + 1) = [h1, h2] := by
    have split : packetText p h1 h2 = ([0x24] ++ p ++ [0x23]) ++ [h1, h2] := by
      simp [packetText]
    rw [split]
    exact List.drop_left' (by simp; omega)
  rw [packetSums, turns, sumLoop_eq, window]
  simp only [digits, UInt8.zero_add]
  simp [sscanfHex, hv1, hv2]

theorem isHex_hexDigit {v : Nat} (h : v < 16) : isHex (hexDigit v) = true := by
  have all : ∀ v < 16, isHex (hexDigit v) = true := by decide
  exact all v h

theorem hexDigitValue_hexDigit {v : Nat} (h : v < 16) :
    hexDigitValue (hexDigit v) = some v := by
  have all : ∀ v < 16, hexDigitValue (hexDigit v) = some v := by decide
  exact all v h

theorem frame_eq_packetText (payload : List UInt8) : frame payload = packetText payload
    (hexDigit (payload.sum.toNat / 16 % 16)) (hexDigit (payload.sum.toNat % 16)) := by
  simp [frame, packetText, hexDigits]

/-- What the sender frames, the receiver takes. -/
theorem frame_accepted (plain : Plain payload) : Accepted (frame payload) := by
  have low : payload.sum.toNat % 16 < 16 := Nat.mod_lt _ (by omega)
  have high : payload.sum.toNat / 16 % 16 < 16 := Nat.mod_lt _ (by omega)
  have sums : packetSums (frame payload) = (payload.sum, payload.sum.toNat) := by
    have bound : payload.sum.toNat < 256 := payload.sum.toNat_lt
    rw [frame_eq_packetText, packetSums_packetText (hexDigitValue_hexDigit high)
      (hexDigitValue_hexDigit low)]
    congr 1
    omega
  refine ⟨?_, ?_, ?_⟩
  · have token := scan_packet_cons plain (isHex_hexDigit high) (isHex_hexDigit low) []
    rw [List.append_nil] at token
    rw [frame_eq_packetText, token]
    rfl
  · rw [sums]
  · intro gdb
    rw [gdbPacketCheck, sums]
    exact if_pos rfl

theorem plain_hexDigits (w n : Nat) : Plain (hexDigits w n) := by
  have digit : ∀ v < 16, isFraming (hexDigit v) = false := by decide
  induction w with
  | zero => exact plain_nil
  | succ w ih => exact Plain.cons (digit _ (Nat.mod_lt _ (by omega))) ih

/-- Escaping leaves no byte that frames a packet. -/
theorem plain_escaped (bs : List UInt8) : Plain (escaped bs) := by
  induction bs with
  | nil => exact plain_nil
  | cons c bs ih =>
    rw [escaped, escape] at ih
    rw [escaped, escape, List.flatMap_cons]
    refine Plain.append ?_ ih
    rw [escapeByte]
    by_cases hc : special c = true
    · rw [if_pos hc]
      have cases : c = 0x24 ∨ c = 0x23 ∨ c = 0x7d := by
        simpa [special, or_assoc] using hc
      refine Plain.cons (by decide) (Plain.cons ?_ plain_nil)
      rcases cases with rfl | rfl | rfl <;> decide
    · rw [if_neg hc]
      refine Plain.cons ?_ plain_nil
      simp only [special, Bool.or_eq_true, not_or, Bool.not_eq_true] at hc
      simp only [isFraming, Bool.or_eq_false_iff]
      exact ⟨hc.1.1, hc.1.2⟩

theorem plain_memoryWrite (w : MemoryWrite) : Plain w.payload := by
  rw [MemoryWrite.payload, chunkHeader]
  refine Plain.append (Plain.append (Plain.cons (by decide) (plain_hexDigits _ _)) ?_) ?_
  · exact Plain.cons (by decide) (plain_hexDigits _ _)
  · exact Plain.cons (by decide) (plain_escaped _)

end accept

/-- The register and the value that a payload sets, with a value in target byte order. -/
def decodeRegister (target : Bool) (payload : List UInt8) : Option (UInt8 × UInt32) := do
  let cs ← expect 0x50 payload
  let (num, cs) ← readHex 2 0 cs
  let cs ← expect 0x3d cs
  let (b0, cs) ← readHex 2 0 cs
  let (b1, cs) ← readHex 2 0 cs
  let (b2, cs) ← readHex 2 0 cs
  let (b3, cs) ← readHex 2 0 cs
  let word := [b0, b1, b2, b3].map UInt8.ofNat
  if cs = [] then
    some (UInt8.ofNat num, UInt32.ofNat (if target then beNat word else leNat word))
  else none

section register

variable {gdb : GdbProtocolData} {host target : Bool} {i j : Nat} {bs : List UInt8}

/-- The bytes of a word as the target stores it. -/
def targetBytes (target : Bool) (value : UInt32) : List UInt8 :=
  if target then beBytes 4 value.toNat else leBytes 4 value.toNat

theorem writeUint32_eq (host target : Bool) (gdb : GdbProtocolData) (data : Nat) (value : UInt32) :
    ∃ b0 b1 b2 b3, targetBytes target value = [b0, b1, b2, b3] ∧
      writeUint32 host target gdb data value =
        some ((sprintf (sprintf (sprintf (sprintf gdb data (hexDigits 2 b0.toNat)) (data + 2)
          (hexDigits 2 b1.toNat)) (data + 4) (hexDigits 2 b2.toNat)) (data + 6)
          (hexDigits 2 b3.toNat)).store (data + 8) 0) := by
  obtain ⟨a0, a1, a2, a3, little⟩ : ∃ a0 a1 a2 a3, leBytes 4 value.toNat = [a0, a1, a2, a3] :=
    ⟨_, _, _, _, rfl⟩
  have big : beBytes 4 value.toNat = [a3, a2, a1, a0] := by rw [beBytes, little]; rfl
  cases target
  · refine ⟨a0, a1, a2, a3, little, ?_⟩
    cases host
    · rw [writeUint32, little, big]
      rfl
    · rw [writeUint32, little, big]
      rfl
  · refine ⟨a3, a2, a1, a0, big, ?_⟩
    cases host
    · rw [writeUint32, little, big]
      rfl
    · rw [writeUint32, little, big]
      rfl

/-- The packet has the text `bs` from index `i` on. -/
def GdbProtocolData.Holds (gdb : GdbProtocolData) (i : Nat) (bs : List UInt8) : Prop :=
  gdb.window i bs.length = bs

theorem holds_nil (gdb : GdbProtocolData) (i : Nat) : gdb.Holds i [] := rfl

theorem holds_store_behind (h : gdb.Holds i bs) (hj : i + bs.length ≤ j) (c : UInt8) :
    (gdb.store j c).Holds i bs := by
  rw [GdbProtocolData.Holds, store_eq_storeString, window_storeString_apart (Or.inl hj)]
  exact h

theorem holds_sprintf (h : gdb.Holds i bs) (hj : j = i + bs.length) (text : List UInt8) :
    (sprintf gdb j text).Holds i (bs ++ text) := by
  subst hj
  have before : (sprintf gdb (i + bs.length) text).window i bs.length = bs := by
    rw [sprintf, window_storeString_apart (Or.inl le_rfl)]
    exact h
  have here : (sprintf gdb (i + bs.length) text).window (i + bs.length) text.length = text := by
    rw [sprintf, ← storeString_append, window_storeString_apart (Or.inl le_rfl)]
    exact window_storeString _ _ _
  rw [GdbProtocolData.Holds, List.length_append, window_append, before, here]

theorem sprintf_transmitted (gdb : GdbProtocolData) (text : List UInt8) :
    (sprintf gdb i text).transmitted = gdb.transmitted := storeString_transmitted

/-- The four bytes are printed in target order, whatever the order of the host. -/
theorem writeUint32_spec (host target : Bool) (value : UInt32) (h : gdb.Holds i bs)
    (hj : j = i + bs.length) :
    ∃ gdb', writeUint32 host target gdb j value = some gdb' ∧
      gdb'.Holds i (bs ++ (targetBytes target value).flatMap fun b => hexDigits 2 b.toNat) ∧
      gdb'.transmitted = gdb.transmitted := by
  obtain ⟨b0, b1, b2, b3, word, run⟩ := writeUint32_eq host target gdb j value
  refine ⟨_, run, ?_, ?_⟩
  · have h0 := holds_sprintf h hj (hexDigits 2 b0.toNat)
    have h1 := holds_sprintf h0 (j := j + 2) (by simp [hj]; omega) (hexDigits 2 b1.toNat)
    have h2 := holds_sprintf h1 (j := j + 4) (by simp [hj]; omega) (hexDigits 2 b2.toNat)
    have h3 := holds_sprintf h2 (j := j + 6) (by simp [hj]; omega) (hexDigits 2 b3.toNat)
    have h4 := holds_store_behind h3 (j := j + 8) (by simp [hj]; omega) 0
    simpa only [word, List.flatMap_cons, List.flatMap_nil, List.append_nil, List.append_assoc]
      using h4
  · rw [store_eq_storeString, storeString_transmitted]
    simp only [sprintf_transmitted]

def registerPayload (target : Bool) (num : UInt8) (value : UInt32) : List UInt8 :=
  0x50 :: hexDigits 2 num.toNat ++ [0x3d] ++
    (targetBytes target value).flatMap fun b => hexDigits 2 b.toNat

theorem plain_registerPayload (target : Bool) (num : UInt8) (value : UInt32) :
    Plain (registerPayload target num value) := by
  refine Plain.append (Plain.append (Plain.cons (by decide) (plain_hexDigits _ _)) ?_) ?_
  · exact Plain.cons (by decide) plain_nil
  · intro c hc
    obtain ⟨b, -, hb⟩ := List.mem_flatMap.mp hc
    exact plain_hexDigits _ _ c hb

theorem decodeRegister_registerPayload (target : Bool) (num : UInt8) (value : UInt32) :
    decodeRegister target (registerPayload target num value) = some (num, value) := by
  obtain ⟨b0, b1, b2, b3, word, -⟩ := writeUint32_eq false target ⟨fun _ => 0, 0, [], []⟩ 0 value
  have byte (b : UInt8) : b.toNat % 16 ^ 2 = b.toNat := Nat.mod_eq_of_lt b.toNat_lt
  have number : UInt32.ofNat (if target = true then beNat [b0, b1, b2, b3] else
      leNat [b0, b1, b2, b3]) = value := by
    rw [← word, targetBytes]
    cases target
    · have := leNat_leBytes 4 value.toNat
      have bound : value.toNat < 256 ^ 4 := value.toNat_lt
      simp only [Bool.false_eq_true, if_false, this, Nat.mod_eq_of_lt bound, UInt32.ofNat_toNat]
    · exact word32_beBytes value
  simp only [decodeRegister, registerPayload, word, List.cons_append, List.append_assoc,
    expect_cons, readHex_hexDigits, byte, Nat.zero_mul, Nat.zero_add, Option.bind_eq_bind,
    Option.bind_some, List.nil_append, List.flatMap_cons, List.flatMap_nil, List.map_cons,
    List.map_nil, UInt8.ofNat_toNat, if_true, number]

theorem gdbSendBuffer_transmitted (h : gdb.Holds 1 bs) (len : gdb.len = bs.length) :
    (gdbSendBuffer gdb).transmitted = gdb.transmitted ++ [frame bs] := by
  rw [gdbSendBuffer_spec.1, len, h]

theorem gdbSendData_transmitted (gdb : GdbProtocolData) (data : List UInt8) :
    (gdbSendData gdb data).transmitted = gdb.transmitted ++ [frame data] := by
  have held := holds_sprintf (holds_nil gdb 1) (show bufferStart = 1 + 0 from rfl) data
  have sent := @gdbSendBuffer_transmitted
    { sprintf gdb bufferStart data with len := data.length } data held rfl
  rw [gdbSendData]
  exact sent.trans (congrArg (· ++ _) (sprintf_transmitted gdb data))

theorem gdbWriteRegister_transmitted (host target : Bool) (gdb : GdbProtocolData) (num : UInt8)
    (value : UInt32) : ∃ gdb', gdbWriteRegister host target gdb num value = some gdb' ∧
      gdb'.transmitted = gdb.transmitted ++ [frame (registerPayload target num value)] := by
  have header := holds_sprintf (holds_nil gdb 1) (show bufferStart = 1 + 0 from rfl)
    (0x50 :: hexDigits 2 num.toNat ++ [0x3d])
  obtain ⟨g, run, held, sent⟩ := writeUint32_spec host target value header
    (show bufferStart + 4 = _ by simp [bufferStart])
  have len : 12 = (registerPayload target num value).length := by
    cases target <;> rfl
  refine ⟨gdbSendBuffer { g with len := 12 }, ?_, ?_⟩
  · rw [gdbWriteRegister, run]
    rfl
  · have framed := @gdbSendBuffer_transmitted { g with len := 12 } _ held len
    exact framed.trans (congrArg (· ++ _) (sent.trans (sprintf_transmitted _ _)))

end register

/-- The receiver takes every packet that the sender writes, and its payload is the request: a
register payload gives back the register and its value, and there is a packet for each chunk of a
memory write, whose payload gives back the address and the bytes. A packet that fits leaves room for
the NUL behind it. -/
theorem transmitted_accepted (host target : Bool) (gdb : GdbProtocolData) :
    (∀ num value, ∃ gdb' payload, gdbWriteRegister host target gdb num value = some gdb' ∧
      gdb'.transmitted = gdb.transmitted ++ [frame payload] ∧ Plain payload ∧
      Accepted (frame payload) ∧ decodeRegister target payload = some (num, value)) ∧
    ((gdbCont gdb).transmitted = gdb.transmitted ++ [frame [0x63]] ∧ Plain [0x63] ∧
      Accepted (frame [0x63])) ∧
    ((gdbStep gdb).transmitted = gdb.transmitted ++ [frame [0x73]] ∧ Plain [0x73] ∧
      Accepted (frame [0x73])) ∧
    ∀ address memory size, ∃ (gdb' : GdbProtocolData) (writes : List MemoryWrite),
      gdbWriteMemory gdb address memory size = some gdb' ∧
      gdb'.transmitted = gdb.transmitted ++ (writes.map MemoryWrite.payload).map frame ∧
      Chunks address ((List.range size).map memory) writes ∧
      ∀ w ∈ writes, (frame w.payload).length < maxPacketSize →
        Plain w.payload ∧ Accepted (frame w.payload) ∧ decodePayload w.payload = some w := by
  have plainC : Plain [0x63] := Plain.cons (by decide) plain_nil
  have plainS : Plain [0x73] := Plain.cons (by decide) plain_nil
  refine ⟨?_, ⟨gdbSendData_transmitted gdb _, plainC, frame_accepted plainC⟩,
    ⟨gdbSendData_transmitted gdb _, plainS, frame_accepted plainS⟩, ?_⟩
  · intro num value
    obtain ⟨gdb', run, sent⟩ := gdbWriteRegister_transmitted host target gdb num value
    have plain := plain_registerPayload target num value
    exact ⟨gdb', _, run, sent, plain, frame_accepted plain,
      decodeRegister_registerPayload target num value⟩
  · intro address memory size
    obtain ⟨gdb', writes, run, sent, chunks⟩ := gdbWriteMemory_chunks gdb address memory size
    refine ⟨gdb', writes, run, sent, chunks, fun w hw _ => ?_⟩
    have plain := plain_memoryWrite w
    exact ⟨plain, frame_accepted plain, decodePayload_payload (chunks.length_lt hw)⟩

end ArmRunner
