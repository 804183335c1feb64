import ArmRunner.Lib.History
import ArmRunner.GdbReceiver

namespace ArmRunner

open CRun Wire Lexer History

def maxErrorSize : Nat := 1024

/-- `struct parser_data`: `buffer` is the text of the invalid data up to `len`. -/
structure ParserData where
  gdb : GdbProtocolData
  buffer : List UInt8

def handleError (data : ParserData) : ParserData :=
  if data.buffer.length ≠ 0 then ⟨gdbRequireRetransmission data.gdb, []⟩ else data

def addCharacterToError (data : ParserData) (c : UInt8) : ParserData :=
  let data := if maxErrorSize - 2 < data.buffer.length then handleError data else data
  { data with buffer := data.buffer ++ [c] }

/-- The action of a rule, and whether it returns `PACKET`. -/
def scanAction (data : ParserData) (t : ScanToken) : ParserData × Bool :=
  match t.rule with
  | .ack => (handleError data, false)
  | .retransmission =>
    let data := handleError data
    ({ data with gdb := gdbTransmitPacket data.gdb }, false)
  | .packet =>
    let data := handleError data
    let (gdb, result) := gdbPacketCheck data.gdb t.text
    ({ data with gdb := gdb }, result)
  | .character => (addCharacterToError data (t.text.headD 0), false)
  | .echo => (data, false)

/-- What makes the client write: a packet that it frames, a token that its scanner finds, or the
end of what arrives. -/
inductive Cause
  | framed (packet : List UInt8)
  | token (t : ScanToken)
  | ended

structure Event where
  cause : Cause
  writes : List (List UInt8)

/-- The client, with the tokens that its scanner has yet to find. It records what it has met so
far and what it wrote each time. -/
structure Client where
  data : ParserData
  tokens : List ScanToken
  history : List Event

def Client.record (c : Client) (cause : Cause) (data : ParserData) : Client :=
  let writes := data.gdb.transmitted.drop c.data.gdb.transmitted.length
  { c with data := data, history := c.history ++ [⟨cause, writes⟩] }

inductive Answer
  | packet
  | eof
  deriving DecidableEq, Repr

/-- `yylex`: the actions go on to the next token until one returns. -/
def yylexFrom : List ScanToken → Client → Client × Answer
  | [], c => ({ c.record .ended (handleError c.data) with tokens := [] }, .eof)
  | t :: ts, c =>
    let (data, result) := scanAction c.data t
    let c := { c.record (.token t) data with tokens := ts }
    if result then (c, .packet) else yylexFrom ts c

def gdbGetAnswer (c : Client) : Client × Answer := yylexFrom c.tokens c

/-- The client after it has sent a packet. -/
def Client.sent (c : Client) (gdb : GdbProtocolData) : Client :=
  c.record (.framed (gdb.window 0 gdb.len)) { c.data with gdb := gdb }

/-- The variables of the outer loop of `gdb_write_memory`. -/
structure MemoryState where
  client : Client
  address : UInt32
  srcBuffer : Nat
  size : Nat

def memoryTurn (memory : Nat → UInt8) (s : MemoryState) : Option MemoryState := do
  let w ← writeChunk memory ⟨s.client.data.gdb, s.address, s.srcBuffer, s.size⟩
  some ⟨(gdbGetAnswer (s.client.sent w.gdb)).1, w.address, w.srcBuffer, w.size⟩

inductive Request
  | writeRegister (num : UInt8) (value : UInt32)
  | writeMemory (address : UInt32) (memory : Nat → UInt8) (size : Nat)
  | cont
  | step

/-- The packets of the request fit in the array for them. -/
def Request.Fits : Request → Prop
  | .writeMemory _ memory size => size + ((List.range size).map memory).countP special ≤ 1000
  | _ => True

/-- A call of `gdb_write_register`, `gdb_write_memory`, `gdb_cont` or `gdb_step`. The last returns
its answer, which the client does not look at. -/
def Client.perform (host target : Bool) (c : Client) : Request → Option Client
  | .writeRegister num value => do
    let gdb ← gdbWriteRegister host target c.data.gdb num value
    some (gdbGetAnswer (c.sent gdb)).1
  | .writeMemory address memory size =>
    (whileLoop (fun s => 0 < s.size) (memoryTurn memory) (size + 1)
      ⟨c, address, 0, size⟩).map MemoryState.client
  | .cont => some (gdbGetAnswer (c.sent (gdbCont c.data.gdb))).1
  | .step => some (gdbGetAnswer (c.sent (gdbStep c.data.gdb))).1

/-- The payloads that a request is to send. -/
def Request.Payloads (target : Bool) : Request → List (List UInt8) → Prop
  | .writeRegister num value, payloads => payloads = [registerPayload target num value]
  | .writeMemory address memory size, payloads => ∃ writes,
      Chunks address ((List.range size).map memory) writes ∧
        payloads = writes.map MemoryWrite.payload
  | .cont, payloads => payloads = [[0x63]]
  | .step, payloads => payloads = [[0x73]]

/-- The client before its first request, for a packet of any content and the bytes to arrive. -/
def Client.start (packet : Nat → UInt8) (stream : List UInt8) : Client :=
  ⟨⟨⟨packet, 0, [], []⟩, []⟩, scan stream, []⟩

/-- The token is a packet whose sum is the one it gives. -/
def validPacket (t : ScanToken) : Bool :=
  t.rule == .packet && (packetSums t.text).1.toNat == (packetSums t.text).2

/-- A packet that is sent is taken as valid, wherever it arrives. -/
theorem frame_token {payload : List UInt8} (plain : Plain payload) (rest : List UInt8) :
    scan (frame payload ++ rest) = ⟨.packet, frame payload⟩ :: scan rest ∧
      validPacket ⟨.packet, frame payload⟩ = true := by
  have low : payload.sum.toNat % 16 < 16 := Nat.mod_lt _ (by omega)
  have high : payload.sum.toNat / 16 % 16 < 16 := Nat.mod_lt _ (by omega)
  refine ⟨?_, by simp [validPacket, (frame_accepted plain).sums]⟩
  rw [frame_eq_packetText]
  exact scan_packet_cons plain (isHex_hexDigit high) (isHex_hexDigit low) rest

/-- The tokens up to the `k`-th valid packet, or all of them. -/
def throughValid : List ScanToken → Nat → List ScanToken
  | _, 0 => []
  | [], _ + 1 => []
  | t :: ts, k + 1 => t :: throughValid ts (if validPacket t then k else k + 1)

def Event.token? (e : Event) : Option ScanToken :=
  match e.cause with
  | .token t => some t
  | _ => none

def Event.framed? (e : Event) : Option (List UInt8) :=
  match e.cause with
  | .framed packet => some packet
  | _ => none

/-- The tokens that the scanner has found. -/
def processed (h : List Event) : List ScanToken := h.filterMap Event.token?

/-- The packets that have been framed. -/
def framedPackets (h : List Event) : List (List UInt8) := h.filterMap Event.framed?

def garbageAfter (pending : Bool) (e : Event) : Bool :=
  match e.cause with
  | .framed _ => pending
  | .ended => false
  | .token t =>
    match t.rule with
    | .character => true
    | .echo => pending
    | _ => false

/-- Whether there is invalid data for which no retransmission has been required yet. -/
def garbagePending (h : List Event) : Bool := h.foldl garbageAfter false

/-- The `-` for the invalid data before a token. -/
def garbageRequest (h : List Event) : List (List UInt8) := if garbagePending h then [[0x2d]] else []

/-- What the client does at an event, by those before it. -/
def Answers (stream : List UInt8) (before : List Event) (e : Event) : Prop :=
  match e.cause with
  | .framed packet => e.writes = [packet] ∧
      processed before = throughValid (scan stream) (framedPackets before).length
  | .ended => e.writes = garbageRequest before ∧ processed before = scan stream
  | .token t =>
    match t.rule with
    | .ack => e.writes = garbageRequest before
    | .retransmission =>
      e.writes = garbageRequest before ++ [(framedPackets before).getLastD []]
    | .packet =>
      e.writes = garbageRequest before ++ [if validPacket t then [0x2b] else [0x2d]]
    | .character => e.writes = [] ∨ e.writes = [[0x2d]]
    | .echo => e.writes = []

theorem throughValid_succ {ts rest : List ScanToken} {k : Nat}
    (h : ts = throughValid ts k ++ rest) :
    throughValid ts (k + 1) = throughValid ts k ++ throughValid rest 1 := by
  induction ts generalizing k with
  | nil =>
    cases k with
    | zero => rw [throughValid, List.nil_append] at h; rw [← h]; rfl
    | succ k => rw [throughValid, List.nil_append] at h; rw [← h]; rfl
  | cons t ts ih =>
    cases k with
    | zero => rw [throughValid, List.nil_append] at h; rw [← h]; rfl
    | succ k =>
      rw [throughValid, List.cons_append, List.cons.injEq] at h
      rw [throughValid, throughValid, List.cons_append]
      split_ifs at h ⊢ with valid
      · exact congrArg (t :: ·) (ih h.2)
      · exact congrArg (t :: ·) (ih h.2)

section scanner

variable {gdb gdb' : GdbProtocolData} {data : ParserData} {t : ScanToken}

/-- Something has been written, and the packet is as before. -/
structure Wrote (gdb gdb' : GdbProtocolData) (texts : List (List UInt8)) : Prop where
  transmitted : gdb'.transmitted = gdb.transmitted ++ texts
  window : gdb'.window 0 gdb'.len = gdb.window 0 gdb.len

theorem Wrote.trans {g1 g2 g3 : GdbProtocolData} {xs ys : List (List UInt8)} (h : Wrote g1 g2 xs)
    (h' : Wrote g2 g3 ys) : Wrote g1 g3 (xs ++ ys) :=
  ⟨by rw [h'.transmitted, h.transmitted, List.append_assoc], by rw [h'.window, h.window]⟩

theorem wrote_nil (gdb : GdbProtocolData) : Wrote gdb gdb [] := ⟨by simp, rfl⟩

theorem wrote_write (gdb : GdbProtocolData) (text : List UInt8) :
    Wrote gdb (gdb.write text) [text] := ⟨rfl, rfl⟩

/-- A retransmission repeats what the packet holds. -/
theorem wrote_transmitPacket (gdb : GdbProtocolData) :
    Wrote gdb (gdbTransmitPacket gdb) [gdb.window 0 gdb.len] := ⟨rfl, rfl⟩

theorem wrote_packetCheck (gdb : GdbProtocolData) (text : List UInt8) :
    Wrote gdb (gdbPacketCheck gdb text).1
      [if (packetSums text).1.toNat = (packetSums text).2 then [0x2b] else [0x2d]] := by
  rw [gdbPacketCheck]
  dsimp only
  split_ifs
  · exact wrote_write gdb [0x2b]
  · exact wrote_write gdb [0x2d]

theorem packetCheck_result (gdb : GdbProtocolData) (text : List UInt8) :
    (gdbPacketCheck gdb text).2 = ((packetSums text).1.toNat == (packetSums text).2) := by
  rw [gdbPacketCheck]
  dsimp only
  split_ifs with h
  · exact (beq_iff_eq.mpr h).symm
  · exact (beq_eq_false_iff_ne.mpr h).symm

theorem handleError_spec (data : ParserData) : (handleError data).buffer = [] ∧
    Wrote data.gdb (handleError data).gdb (if data.buffer.length ≠ 0 then [[0x2d]] else []) := by
  rw [handleError]
  split_ifs with h
  · exact ⟨rfl, wrote_write data.gdb [0x2d]⟩
  · exact ⟨List.length_eq_zero_iff.mp (not_not.mp h), wrote_nil data.gdb⟩

theorem addCharacterToError_spec (data : ParserData) (c : UInt8) :
    (addCharacterToError data c).buffer.length ≠ 0 ∧ ∃ texts, (texts = [] ∨ texts = [[0x2d]]) ∧
      Wrote data.gdb (addCharacterToError data c).gdb texts := by
  obtain ⟨-, wrote⟩ := handleError_spec data
  rw [addCharacterToError]
  dsimp only
  refine ⟨by simp, ?_⟩
  split_ifs with full
  · refine ⟨_, ?_, wrote⟩
    split_ifs
    · exact Or.inr rfl
    · exact Or.inl rfl
  · exact ⟨[], Or.inl rfl, wrote_nil data.gdb⟩

end scanner

/-- The last packet framed is in the packet buffer, and each event so far is answered. -/
structure Tracks (stream : List UInt8) (c : Client) : Prop where
  writes : c.data.gdb.transmitted = c.history.flatMap Event.writes
  last : c.data.gdb.window 0 c.data.gdb.len = (framedPackets c.history).getLastD []
  garbage : garbagePending c.history = decide (c.data.buffer.length ≠ 0)
  each : Each (Answers stream) c.history
  rest : processed c.history ++ c.tokens = scan stream

/-- Between two requests. -/
structure Idle (stream : List UInt8) (c : Client) : Prop extends Tracks stream c where
  ended : processed c.history = throughValid (scan stream) (framedPackets c.history).length

/-- In a wait: it goes on to the next valid packet. -/
structure Waiting (stream : List UInt8) (c : Client) : Prop extends Tracks stream c where
  wait : processed c.history ++ throughValid c.tokens 1 =
    throughValid (scan stream) (framedPackets c.history).length

section client

variable {stream : List UInt8} {c : Client} {gdb : GdbProtocolData} {t : ScanToken}
  {ts : List ScanToken} {texts : List (List UInt8)} {data : ParserData} {cause : Cause}

theorem record_history (h : data.gdb.transmitted = c.data.gdb.transmitted ++ texts) :
    (c.record cause data).history = c.history ++ [⟨cause, texts⟩] := by
  rw [Client.record]
  simp only [h, List.drop_left]

theorem processed_concat (h : List Event) (e : Event) :
    processed (h ++ [e]) = processed h ++ e.token?.toList := by
  rw [processed, processed, List.filterMap_append]
  cases ht : e.token? <;> simp [ht]

theorem framedPackets_concat (h : List Event) (e : Event) :
    framedPackets (h ++ [e]) = framedPackets h ++ e.framed?.toList := by
  rw [framedPackets, framedPackets, List.filterMap_append]
  cases hp : e.framed? <;> simp [hp]

theorem garbagePending_concat (h : List Event) (e : Event) :
    garbagePending (h ++ [e]) = garbageAfter (garbagePending h) e := by
  rw [garbagePending, garbagePending, List.foldl_append]
  rfl

/-- What the action of a rule writes and leaves pending, and when it returns. -/
theorem scanAction_spec (stream : List UInt8) (data : ParserData) (t : ScanToken) :
    ∃ texts, Wrote data.gdb (scanAction data t).1.gdb texts ∧
      (scanAction data t).2 = validPacket t ∧
      decide ((scanAction data t).1.buffer.length ≠ 0) =
        garbageAfter (decide (data.buffer.length ≠ 0)) ⟨.token t, texts⟩ ∧
      ∀ before, garbagePending before = decide (data.buffer.length ≠ 0) →
        (framedPackets before).getLastD [] = data.gdb.window 0 data.gdb.len →
        Answers stream before ⟨.token t, texts⟩ := by
  obtain ⟨rule, text⟩ := t
  obtain ⟨empty, wrote⟩ := handleError_spec data
  have request (before : List Event) (h : garbagePending before = decide (data.buffer.length ≠ 0)) :
      (if data.buffer.length ≠ 0 then [[0x2d]] else []) = garbageRequest before := by
    simp only [garbageRequest, h, decide_eq_true_eq]
  cases rule with
  | ack =>
    refine ⟨_, wrote, by simp [scanAction, validPacket], by simp [scanAction, empty, garbageAfter],
      fun before pending _ => request before pending⟩
  | retransmission =>
    refine ⟨_, wrote.trans (wrote_transmitPacket _), by simp [scanAction, validPacket],
      by simp [scanAction, empty, garbageAfter], ?_⟩
    intro before pending last
    rw [request before pending, wrote.window, ← last]
    rfl
  | packet =>
    refine ⟨_, wrote.trans (wrote_packetCheck _ text), ?_,
      by simp [scanAction, empty, garbageAfter],
      ?_⟩
    · rw [scanAction]
      simp [packetCheck_result, validPacket]
    · intro before pending _
      rw [request before pending]
      simp [Answers, validPacket]
  | character =>
    obtain ⟨pending, texts, dash, wrote⟩ := addCharacterToError_spec data (text.headD 0)
    exact ⟨texts, wrote, by simp [scanAction, validPacket],
      by simpa [scanAction, garbageAfter] using pending, fun before _ _ => dash⟩
  | echo =>
    exact ⟨[], wrote_nil data.gdb, by simp [scanAction, validPacket],
      by simp [scanAction, garbageAfter], fun before _ _ => rfl⟩

/-- One more event: what it writes answers it, and the packet is still the last one framed. -/
theorem Tracks.record (h : Tracks stream c)
    (transmitted : data.gdb.transmitted = c.data.gdb.transmitted ++ texts)
    (last : data.gdb.window 0 data.gdb.len =
      (framedPackets (c.history ++ [⟨cause, texts⟩])).getLastD [])
    (garbage : decide (data.buffer.length ≠ 0) =
      garbageAfter (decide (c.data.buffer.length ≠ 0)) ⟨cause, texts⟩)
    (answers : Answers stream c.history ⟨cause, texts⟩)
    (rest : processed (c.history ++ [⟨cause, texts⟩]) ++ ts = scan stream) :
    Tracks stream { c.record cause data with tokens := ts } := by
  have history : (c.record cause data).history = c.history ++ [⟨cause, texts⟩] :=
    record_history transmitted
  refine ⟨?_, ?_, ?_, ?_, ?_⟩
  · rw [history, List.flatMap_append, ← h.writes, List.flatMap_singleton]
    exact transmitted
  · rw [history]
    exact last
  · rw [history, garbagePending_concat, h.garbage]
    exact garbage.symm
  · rw [history]
    exact each_concat h.each answers
  · rw [history]
    exact rest

/-- A token is processed: its action is recorded behind the others. -/
theorem Waiting.token (h : Waiting stream c) (ht : c.tokens = t :: ts) :
    (scanAction c.data t).2 = validPacket t ∧
      if validPacket t then
        Idle stream { c.record (.token t) (scanAction c.data t).1 with tokens := ts }
      else Waiting stream { c.record (.token t) (scanAction c.data t).1 with tokens := ts } := by
  obtain ⟨texts, wrote, result, pending, answers⟩ := scanAction_spec stream c.data t
  have history : (c.record (.token t) (scanAction c.data t).1).history =
      c.history ++ [⟨.token t, texts⟩] := record_history wrote.transmitted
  have found : processed (c.history ++ [⟨.token t, texts⟩]) = processed c.history ++ [t] :=
    processed_concat _ _
  have framed : framedPackets (c.history ++ [⟨.token t, texts⟩]) = framedPackets c.history := by
    rw [framedPackets_concat]
    exact List.append_nil _
  have rest : processed (c.history ++ [⟨.token t, texts⟩]) ++ ts = scan stream := by
    rw [found, List.append_assoc, List.singleton_append, ← ht, h.rest]
  have tracks := h.toTracks.record wrote.transmitted (by rw [framed, ← h.last, wrote.window])
    pending (answers _ h.garbage h.last.symm) rest
  refine ⟨result, ?_⟩
  have wait := h.wait
  rw [ht, throughValid] at wait
  split_ifs with valid
  · refine ⟨tracks, ?_⟩
    rw [history, found, framed, ← wait, if_pos valid]
    cases ts <;> rfl
  · refine ⟨tracks, ?_⟩
    rw [history, found, framed, ← wait, if_neg valid, List.append_assoc]
    rfl

theorem Waiting.ended (h : Waiting stream c) (ht : c.tokens = []) :
    Idle stream { c.record .ended (handleError c.data) with tokens := [] } := by
  obtain ⟨empty, wrote⟩ := handleError_spec c.data
  set texts : List (List UInt8) := if c.data.buffer.length ≠ 0 then [[0x2d]] else [] with htexts
  have history : (c.record .ended (handleError c.data)).history = c.history ++ [⟨.ended, texts⟩] :=
    record_history wrote.transmitted
  have found : processed (c.history ++ [⟨.ended, texts⟩]) = processed c.history :=
    (processed_concat _ _).trans (List.append_nil _)
  have framed : framedPackets (c.history ++ [⟨.ended, texts⟩]) = framedPackets c.history :=
    (framedPackets_concat _ _).trans (List.append_nil _)
  have all : processed c.history = scan stream := by
    rw [← h.rest, ht, List.append_nil]
  have request : texts = garbageRequest c.history := by
    simp only [htexts, garbageRequest, h.garbage, decide_eq_true_eq]
  have wait := h.wait
  rw [ht, throughValid, List.append_nil] at wait
  refine ⟨h.toTracks.record wrote.transmitted (by rw [framed, ← h.last, wrote.window])
    (by simp [empty, garbageAfter]) ⟨request, all⟩ (by rw [found, List.append_nil, all]), ?_⟩
  rw [history, found, framed, wait]

/-- A wait ends at the next valid packet, or at the end of what arrives. -/
theorem yylexFrom_idle (h : Waiting stream c) (ht : c.tokens = ts) :
    Idle stream (yylexFrom ts c).1 := by
  induction ts generalizing c with
  | nil => exact h.ended ht
  | cons t ts ih =>
    obtain ⟨result, next⟩ := h.token ht
    rw [yylexFrom]
    dsimp only
    rw [result]
    split_ifs at next ⊢ with valid
    · exact next
    · exact ih next rfl

theorem gdbGetAnswer_idle (h : Waiting stream c) : Idle stream (gdbGetAnswer c).1 :=
  yylexFrom_idle h rfl

end client

section requests

variable {stream : List UInt8} {c : Client} {gdb gdb' : GdbProtocolData} {host target : Bool}

/-- One packet has been sent, and the packet buffer holds it. -/
def Sends (gdb gdb' : GdbProtocolData) : Prop :=
  gdb'.transmitted = gdb.transmitted ++ [gdb'.window 0 gdb'.len]

theorem gdbSendBuffer_sends (h : gdb'.transmitted = gdb.transmitted) :
    Sends gdb (gdbSendBuffer gdb') := by
  rw [Sends, gdbSendBuffer_framed]
  simp only [gdbTransmitPacket, framed, storeString_transmitted, h]
  rfl

theorem gdbSendData_sends (gdb : GdbProtocolData) (data : List UInt8) :
    Sends gdb (gdbSendData gdb data) :=
  gdbSendBuffer_sends storeString_transmitted

theorem gdbWriteRegister_sends (host target : Bool) (gdb : GdbProtocolData) (num : UInt8)
    (value : UInt32) :
    ∃ gdb', gdbWriteRegister host target gdb num value = some gdb' ∧ Sends gdb gdb' := by
  obtain ⟨b0, b1, b2, b3, -, run⟩ := writeUint32_eq host target
    (sprintf gdb bufferStart (0x50 :: hexDigits 2 num.toNat ++ [0x3d])) (bufferStart + 4) value
  refine ⟨_, by rw [gdbWriteRegister, run]; rfl, gdbSendBuffer_sends ?_⟩
  simp only [store_eq_storeString, sprintf, storeString_transmitted]

theorem writeChunk_sends {memory : Nat → UInt8} {s : WriteState} (nonempty : 0 < s.size) :
    ∃ s', writeChunk memory s = some s' ∧ Sends s.gdb s'.gdb ∧ s'.size < s.size := by
  obtain ⟨k, s', run, turn⟩ := @writeChunk_turn memory s nonempty
  refine ⟨s', run, ?_, ?_⟩
  · obtain ⟨copied, copy, rest⟩ := Option.bind_eq_some_iff.mp run
    obtain ⟨c, start, spec, -⟩ := @copyBytes_spec memory s.gdb s.srcBuffer s.size nonempty
    obtain rfl : c = copied := Option.some.inj (start.symm.trans copy)
    cases Option.some.inj rest
    refine gdbSendBuffer_sends ?_
    simp only [store_eq_storeString, sprintf, storeString_transmitted, spec.packet]
  · have positive := turn.positive
    have inside := turn.inside
    have size := turn.size
    omega

theorem Idle.sent (h : Idle stream c) (sends : Sends c.data.gdb gdb) :
    Waiting stream (c.sent gdb) := by
  set packet := gdb.window 0 gdb.len with hpacket
  have history : (c.sent gdb).history = c.history ++ [⟨.framed packet, [packet]⟩] :=
    record_history sends
  have found : processed (c.history ++ [⟨.framed packet, [packet]⟩]) = processed c.history :=
    (processed_concat _ _).trans (List.append_nil _)
  have framed : framedPackets (c.history ++ [⟨.framed packet, [packet]⟩]) =
      framedPackets c.history ++ [packet] := framedPackets_concat _ _
  refine ⟨h.toTracks.record sends (by rw [framed, List.getLastD_concat]) rfl ⟨rfl, h.ended⟩
    (by rw [found, h.rest]), ?_⟩
  have rest := h.rest
  rw [history, found, framed, List.length_append, List.length_singleton]
  rw [h.ended] at rest ⊢
  exact (throughValid_succ rest.symm).symm

theorem yylexFrom_framedPackets (ts : List ScanToken) (c : Client) :
    framedPackets (yylexFrom ts c).1.history = framedPackets c.history := by
  induction ts generalizing c with
  | nil => exact (framedPackets_concat _ _).trans (List.append_nil _)
  | cons t ts ih =>
    have found : framedPackets (c.record (.token t) (scanAction c.data t).1).history =
        framedPackets c.history := (framedPackets_concat _ _).trans (List.append_nil _)
    rw [yylexFrom]
    dsimp only
    split_ifs
    · exact found
    · rw [ih]
      exact found

/-- The packet that is sent, and that alone, is framed. -/
theorem Sends.answered (sends : Sends c.data.gdb gdb) {payload : List UInt8}
    (sent : gdb.transmitted = c.data.gdb.transmitted ++ [frame payload]) :
    framedPackets (gdbGetAnswer (c.sent gdb)).1.history =
      framedPackets c.history ++ [frame payload] := by
  have window : gdb.window 0 gdb.len = frame payload := by
    simpa using sends.symm.trans sent
  rw [gdbGetAnswer, yylexFrom_framedPackets, ← window]
  exact framedPackets_concat _ _

theorem Idle.answered (h : Idle stream c) (sends : Sends c.data.gdb gdb) :
    Idle stream (gdbGetAnswer (c.sent gdb)).1 := gdbGetAnswer_idle (h.sent sends)

/-- Between two chunks of a memory write that the client `c` has begun. -/
structure Writing (stream : List UInt8) (c : Client) (memory : Nat → UInt8) (address : UInt32)
    (size : Nat) (writes : List MemoryWrite) (s : MemoryState) : Prop where
  idle : Idle stream s.client
  cut : Cutting address (chunk memory 0 size) writes s.address s.size
  source : s.srcBuffer = (writes.flatMap MemoryWrite.data).length
  framed : framedPackets s.client.history =
    framedPackets c.history ++ (writes.map MemoryWrite.payload).map frame

theorem Writing.memoryTurn {memory : Nat → UInt8} {address : UInt32} {size : Nat}
    {writes : List MemoryWrite} {s : MemoryState}
    (h : Writing stream c memory address size writes s) (nonempty : 0 < s.size) :
    ∃ w s', memoryTurn memory s = some s' ∧
      Writing stream c memory address size (writes ++ [w]) s' ∧ s'.size < s.size := by
  obtain ⟨k, w, run, turn⟩ := @writeChunk_turn memory
    ⟨s.client.data.gdb, s.address, s.srcBuffer, s.size⟩ nonempty
  obtain ⟨w', run', sends, smaller⟩ := @writeChunk_sends memory
    ⟨s.client.data.gdb, s.address, s.srcBuffer, s.size⟩ nonempty
  cases run.symm.trans run'
  obtain ⟨cut, source⟩ := Cutting.turn h.cut h.source turn
  refine ⟨_, ⟨(gdbGetAnswer (s.client.sent w.gdb)).1, w.address, w.srcBuffer, w.size⟩, ?_,
    ⟨h.idle.answered sends, cut, source, ?_⟩, smaller⟩
  · rw [ArmRunner.memoryTurn, run]
    rfl
  · rw [sends.answered turn.transmitted, h.framed, List.append_assoc, List.map_append,
      List.map_append]
    rfl

/-- Every request ends, between two waits, and has framed the packets that it is to send. -/
theorem Idle.perform (host target : Bool) (h : Idle stream c) (r : Request) :
    ∃ c' payloads, c.perform host target r = some c' ∧ Idle stream c' ∧
      r.Payloads target payloads ∧
      framedPackets c'.history = framedPackets c.history ++ payloads.map frame := by
  cases r with
  | writeRegister num value =>
    obtain ⟨gdb, run, sends⟩ := gdbWriteRegister_sends host target c.data.gdb num value
    obtain ⟨gdb', run', sent⟩ := gdbWriteRegister_transmitted host target c.data.gdb num value
    cases run.symm.trans run'
    refine ⟨_, _, ?_, h.answered sends, rfl, sends.answered sent⟩
    rw [Client.perform, run]
    rfl
  | writeMemory address memory size =>
    have start : Writing stream c memory address size [] ⟨c, address, 0, size⟩ := by
      have cut := cut_start address (chunk memory 0 size)
      rw [chunk_length] at cut
      exact ⟨h, cut, rfl, by simp⟩
    have ends : ∃ s, whileLoop (fun s => 0 < s.size) (ArmRunner.memoryTurn memory) (size + 1)
        ⟨c, address, 0, size⟩ = some s ∧
        (∃ writes, Writing stream c memory address size writes s) ∧
        decide (0 < s.size) = false := by
      refine whileLoop_total (fun s => ∃ writes, Writing stream c memory address size writes s)
        MemoryState.size ⟨[], start⟩ (Nat.lt_succ_self size) ?_
      rintro t ⟨writes, writing⟩ more
      obtain ⟨w, t', run, writing', smaller⟩ := writing.memoryTurn (of_decide_eq_true more)
      exact ⟨t', run, ⟨_, writing'⟩, smaller⟩
    obtain ⟨s, run, ⟨writes, writing⟩, done⟩ := ends
    have cut := writing.cut
    rw [Nat.eq_zero_of_not_pos (of_decide_eq_false done)] at cut
    have chunks := cut.chunks_of_done
    rw [chunk, ← List.range_eq_range'] at chunks
    exact ⟨s.client, _, by rw [Client.perform, run]; rfl, writing.idle, ⟨writes, chunks, rfl⟩,
      writing.framed⟩
  | cont =>
    exact ⟨_, _, rfl, h.answered (gdbSendData_sends _ _), rfl,
      (gdbSendData_sends _ _).answered (gdbSendData_transmitted _ _)⟩
  | step =>
    exact ⟨_, _, rfl, h.answered (gdbSendData_sends _ _), rfl,
      (gdbSendData_sends _ _).answered (gdbSendData_transmitted _ _)⟩

theorem start_idle (packet : Nat → UInt8) (stream : List UInt8) :
    Idle stream (Client.start packet stream) :=
  ⟨⟨rfl, rfl, rfl, each_nil, rfl⟩, by cases h : scan stream <;> rfl⟩

theorem requests_idle (host target : Bool) (h : Idle stream c) (requests : List Request) :
    ∃ c' parts, requests.foldlM (Client.perform host target) c = some c' ∧ Idle stream c' ∧
      List.Forall₂ (Request.Payloads target) requests parts ∧
      framedPackets c'.history = framedPackets c.history ++ parts.flatten.map frame := by
  induction requests generalizing c with
  | nil => exact ⟨c, [], rfl, h, .nil, by simp⟩
  | cons r rs ih =>
    obtain ⟨c1, payloads, first, idle, sends, framed⟩ := h.perform host target r
    obtain ⟨c2, parts, rest, idle', sends', framed'⟩ := ih idle
    refine ⟨c2, payloads :: parts, ?_, idle', .cons sends sends', ?_⟩
    · rw [List.foldlM_cons, first]
      exact rest
    · rw [framed', framed, List.flatten_cons, List.map_append, List.append_assoc]

end requests

end ArmRunner
