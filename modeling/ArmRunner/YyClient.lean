import ArmRunner.GdbClient
import ArmRunner.YyTokens

namespace ArmRunner

open CRun Slice Lexer

/-- The client with the scanner itself, which finds its tokens in what arrives. -/
structure BufferedClient where
  data : ParserData
  yy : YyGuts
  history : List Event

def BufferedClient.record (c : BufferedClient) (cause : Cause) (data : ParserData) :
    BufferedClient :=
  let writes := data.gdb.transmitted.drop c.data.gdb.transmitted.length
  { c with data := data, history := c.history ++ [⟨cause, writes⟩] }

/-- `yylex`, with `n` tokens at most. -/
def BufferedClient.yylex : Nat → BufferedClient → Option (BufferedClient × Answer)
  | 0, _ => none
  | n + 1, c => do
    let (found, yy) ← c.yy.nextToken.toOption
    match found with
    | none => some ({ c.record .ended (handleError c.data) with yy }, .eof)
    | some t =>
      let (data, result) := scanAction c.data t
      let c := { c.record (.token t) data with yy }
      if result then some (c, .packet) else BufferedClient.yylex n c

def BufferedClient.gdbGetAnswer (c : BufferedClient) : Option (BufferedClient × Answer) :=
  c.yylex (c.yy.input.bytes.length + c.yy.nChars + 1)

def BufferedClient.sent (c : BufferedClient) (gdb : GdbProtocolData) : BufferedClient :=
  c.record (.framed (gdb.window 0 gdb.len)) { c.data with gdb := gdb }

/-- A packet is sent and its answer is waited for. -/
def BufferedClient.exchange (c : BufferedClient) (gdb : GdbProtocolData) :
    Option BufferedClient := do
  let (c, _) ← (c.sent gdb).gdbGetAnswer
  some c

structure BufferedMemoryState where
  client : BufferedClient
  address : UInt32
  srcBuffer : Nat
  size : Nat

def BufferedClient.memoryTurn (memory : Nat → UInt8) (s : BufferedMemoryState) :
    Option BufferedMemoryState := do
  let w ← writeChunk memory ⟨s.client.data.gdb, s.address, s.srcBuffer, s.size⟩
  let client ← s.client.exchange w.gdb
  some ⟨client, w.address, w.srcBuffer, w.size⟩

def BufferedClient.perform (host target : Bool) (c : BufferedClient) :
    Request → Option BufferedClient
  | .writeRegister num value => do
    let gdb ← gdbWriteRegister host target c.data.gdb num value
    c.exchange gdb
  | .writeMemory address memory size =>
    (whileLoop (fun s => 0 < s.size) (memoryTurn memory) (size + 1)
      ⟨c, address, 0, size⟩).map BufferedMemoryState.client
  | .cont => c.exchange (gdbCont c.data.gdb)
  | .step => c.exchange (gdbStep c.data.gdb)

def BufferedClient.start (packet fresh : Nat → UInt8) (input : Connection) : BufferedClient :=
  ⟨⟨⟨packet, 0, [], []⟩, []⟩, .start fresh input, []⟩

/-- The client whose scanner has all the bytes is in the same state, and has the same tokens to
find. -/
structure Simulates (s : BufferedClient) (c : Client) : Prop where
  data : s.data = c.data
  history : s.history = c.history
  tokens : ∃ p, s.yy.Rests p ∧ c.tokens = scan (p ++ s.yy.input.bytes)

structure SimulatesMemory (m : BufferedMemoryState) (m' : MemoryState) : Prop where
  client : Simulates m.client m'.client
  address : m.address = m'.address
  srcBuffer : m.srcBuffer = m'.srcBuffer
  size : m.size = m'.size

section simulation

variable {s : BufferedClient} {c : Client} {gdb : GdbProtocolData} {host target : Bool}

theorem YyGuts.Rests.length_le {yy : YyGuts} {p : List UInt8} (h : yy.Rests p) :
    p.length ≤ yy.nChars := by
  obtain ⟨chBuf, -, holds⟩ := h
  have nChars := holds.nChars
  dsimp only at nChars
  rw [List.length_nil] at nChars
  omega

theorem Simulates.record {yy : YyGuts} {ts : List ScanToken} (h : Simulates s c) (cause : Cause)
    (data : ParserData) (tokens : ∃ p, yy.Rests p ∧ ts = scan (p ++ yy.input.bytes)) :
    Simulates { s.record cause data with yy } { c.record cause data with tokens := ts } where
  data := rfl
  history := by
    rw [BufferedClient.record, Client.record]
    dsimp only
    rw [h.data, h.history]
  tokens := tokens

theorem Simulates.yylex {p : List UInt8} {n : Nat} (h : Simulates s c) (rests : s.yy.Rests p)
    (tokens : c.tokens = scan (p ++ s.yy.input.bytes))
    (enough : (p ++ s.yy.input.bytes).length < n) :
    ∃ s', s.yylex n = some (s', (yylexFrom c.tokens c).2) ∧
      Simulates s' (yylexFrom c.tokens c).1 := by
  induction n generalizing s c p with
  | zero => omega
  | succ n ih =>
    obtain ⟨found, yy, run, finds⟩ := rests.nextToken
    obtain ⟨p1, rests1, step⟩ := finds.scan
    have option : s.yy.nextToken.toOption = some (found, yy) := by rw [run]; rfl
    rw [BufferedClient.yylex, option, Option.bind_eq_bind, Option.bind_some]
    cases found with
    | none =>
      obtain ⟨none, left⟩ := step
      rw [tokens, none, yylexFrom]
      dsimp only
      rw [h.data]
      exact ⟨_, rfl, h.record .ended _ ⟨p1, rests1, by rw [left]; rfl⟩⟩
    | some t =>
      obtain ⟨first, shorter⟩ := step
      have next := h.record (.token t) (scanAction c.data t).1 ⟨p1, rests1, rfl⟩
      rw [tokens, first, yylexFrom]
      dsimp only
      rw [h.data]
      split_ifs with result
      · exact ⟨_, rfl, next⟩
      · exact ih next rests1 rfl (by dsimp only; omega)

theorem Simulates.gdbGetAnswer (h : Simulates s c) :
    ∃ s', s.gdbGetAnswer = some (s', (ArmRunner.gdbGetAnswer c).2) ∧
      Simulates s' (ArmRunner.gdbGetAnswer c).1 := by
  obtain ⟨p, rests, tokens⟩ := h.tokens
  have short := rests.length_le
  exact h.yylex rests tokens (by rw [List.length_append]; omega)

theorem Simulates.exchange (h : Simulates s c) (gdb : GdbProtocolData) :
    ∃ s', s.exchange gdb = some s' ∧ Simulates s' (ArmRunner.gdbGetAnswer (c.sent gdb)).1 := by
  have sent : Simulates (s.sent gdb) (c.sent gdb) := by
    have cause := h.record (.framed (gdb.window 0 gdb.len)) { c.data with gdb := gdb } h.tokens
    rw [BufferedClient.sent, Client.sent, h.data]
    exact cause
  obtain ⟨s', run, simulates⟩ := sent.gdbGetAnswer
  exact ⟨s', by rw [BufferedClient.exchange, run]; rfl, simulates⟩

/-- A turn of the loop over the memory is the same in both. -/
theorem SimulatesMemory.memoryTurn {memory : Nat → UInt8} {m : BufferedMemoryState}
    {m' m1 : MemoryState} (h : SimulatesMemory m m')
    (run : ArmRunner.memoryTurn memory m' = some m1) :
    ∃ m2, BufferedClient.memoryTurn memory m = some m2 ∧ SimulatesMemory m2 m1 := by
  obtain ⟨w, chunk, run⟩ := Option.bind_eq_some_iff.mp run
  cases run
  obtain ⟨s', exchanged, simulates⟩ := h.client.exchange w.gdb
  refine ⟨⟨s', w.address, w.srcBuffer, w.size⟩, ?_, simulates, rfl, rfl, rfl⟩
  rw [BufferedClient.memoryTurn, h.client.data, h.address, h.srcBuffer, h.size, chunk,
    Option.bind_eq_bind, Option.bind_some, exchanged]
  rfl

theorem Simulates.perform {c' : Client} {r : Request} (h : Simulates s c)
    (run : c.perform host target r = some c') :
    ∃ s', s.perform host target r = some s' ∧ Simulates s' c' := by
  cases r with
  | writeRegister num value =>
    obtain ⟨gdb, register, run⟩ := Option.bind_eq_some_iff.mp run
    cases run
    obtain ⟨s', exchanged, simulates⟩ := h.exchange gdb
    refine ⟨s', ?_, simulates⟩
    rw [BufferedClient.perform, h.data, register]
    exact exchanged
  | writeMemory address memory size =>
    obtain ⟨m, loop, run⟩ := Option.map_eq_some_iff.mp run
    have start : SimulatesMemory ⟨s, address, 0, size⟩ ⟨c, address, 0, size⟩ := ⟨h, rfl, rfl, rfl⟩
    have follows : ∃ m', whileLoop (fun s => 0 < s.size) (BufferedClient.memoryTurn memory)
        (size + 1) ⟨s, address, 0, size⟩ = some m' ∧ SimulatesMemory m' m :=
      whileLoop_simulates SimulatesMemory (fun _ _ related => by rw [related.size])
        (fun _ _ _ related turn => related.memoryTurn turn) start loop
    obtain ⟨m', loop', simulates⟩ := follows
    refine ⟨m'.client, ?_, run ▸ simulates.client⟩
    rw [BufferedClient.perform, loop']
    rfl
  | cont =>
    cases run
    obtain ⟨s', exchanged, simulates⟩ := h.exchange (gdbCont c.data.gdb)
    exact ⟨s', by rw [BufferedClient.perform, h.data, exchanged], simulates⟩
  | step =>
    cases run
    obtain ⟨s', exchanged, simulates⟩ := h.exchange (gdbStep c.data.gdb)
    exact ⟨s', by rw [BufferedClient.perform, h.data, exchanged], simulates⟩

theorem Simulates.requests {c' : Client} {requests : List Request} (h : Simulates s c)
    (run : requests.foldlM (Client.perform host target) c = some c') :
    ∃ s', requests.foldlM (BufferedClient.perform host target) s = some s' ∧ Simulates s' c' := by
  induction requests generalizing s c with
  | nil =>
    cases run
    exact ⟨s, rfl, h⟩
  | cons r rs ih =>
    rw [List.foldlM_cons] at run
    obtain ⟨c1, first, run⟩ := Option.bind_eq_some_iff.mp run
    obtain ⟨s1, first', h1⟩ := h.perform first
    obtain ⟨s', rest, h'⟩ := ih h1 run
    refine ⟨s', ?_, h'⟩
    rw [List.foldlM_cons, first']
    exact rest

/-- However the bytes arrive, the client meets the same events and writes the same texts as if the
scanner had them all. -/
theorem buffered_requests (host target : Bool) (packet fresh : Nat → UInt8) (input : Connection)
    (requests : List { r : Request // r.Fits }) (small : input.bytes.length + 2 < 2 ^ 30) :
    ∃ s c, (requests.map Subtype.val).foldlM (BufferedClient.perform host target)
        (.start packet fresh input) = some s ∧
      (requests.map Subtype.val).foldlM (Client.perform host target)
        (.start packet input.bytes) = some c ∧
      s.data = c.data ∧ s.history = c.history := by
  obtain ⟨c, -, run, -⟩ :=
    requests_idle host target (start_idle packet input.bytes) (requests.map Subtype.val)
  have start : Simulates (.start packet fresh input) (Client.start packet input.bytes) :=
    ⟨rfl, rfl, [], YyGuts.start_rests fresh small, rfl⟩
  obtain ⟨s, run', simulates⟩ := start.requests run
  exact ⟨s, c, run', run, simulates.data, simulates.history⟩

/-- A step whose answer arrives in three pieces. -/
theorem buffered_requests_step : ∃ s c,
    [Request.step].foldlM (BufferedClient.perform true true) (.start (fun _ => 0) (fun _ => 0xcc)
      ⟨[[0x2b, 0x24], [0x4f, 0x4b, 0x23], [0x39, 0x61]], by decide⟩) = some s ∧
    [Request.step].foldlM (Client.perform true true)
      (.start (fun _ => 0) [0x2b, 0x24, 0x4f, 0x4b, 0x23, 0x39, 0x61]) = some c ∧
    s.data = c.data ∧ s.history = c.history :=
  buffered_requests _ _ _ _ _ [⟨.step, trivial⟩] (by decide)

end simulation

/-- The bytes that have been read and that no token has taken. -/
def YyGuts.pending (yy : YyGuts) : List UInt8 :=
  slice (yy.chBuf.set yy.cBufP yy.holdChar) yy.cBufP yy.nChars

/-- The scanner after any number of its tokens. -/
inductive YyReached (fresh : Nat → UInt8) (input : Connection) : YyGuts → Prop
  | start : YyReached fresh input (.start fresh input)
  | nextToken {yy yy' : YyGuts} {found : Option ScanToken} (before : YyReached fresh input yy)
      (run : yy.nextToken = .ok (found, yy')) : YyReached fresh input yy'

section prompt

variable {yy : YyGuts} {p : List UInt8} {fresh : Nat → UInt8} {input : Connection}

theorem YyGuts.Rests.pending (h : yy.Rests p) : yy.pending = p := by
  obtain ⟨chBuf, restored, holds⟩ := h
  obtain ⟨-, rfl⟩ := assign_eq_ok.mp restored
  have whole := (holds.resplit (show p ++ [] = [] ++ p by simp)).slice_text
  have nChars := holds.nChars
  dsimp only at nChars whole
  rw [List.length_nil, Nat.add_zero] at nChars
  rw [YyGuts.pending, nChars]
  exact whole

theorem YyReached.rests (h : YyReached fresh input yy) (small : input.bytes.length + 2 < 2 ^ 30) :
    ∃ p, yy.Rests p := by
  induction h with
  | start => exact ⟨[], YyGuts.start_rests fresh small⟩
  | nextToken before run ih =>
    obtain ⟨p, rests⟩ := ih
    obtain ⟨found, yy', run', finds⟩ := rests.nextToken
    obtain ⟨p', rests', -⟩ := finds.scan
    rw [run] at run'
    cases run'
    exact ⟨p', rests'⟩

theorem yylex_prompt {s : BufferedClient} {n : Nat} {ps qs : List (List UInt8)}
    (rests : s.yy.Rests p) (pieces : s.yy.input.pieces = ps ++ qs)
    (answer : ∃ t ∈ scan (p ++ ps.flatten), validPacket t = true)
    (enough : (p ++ ps.flatten).length < n) :
    ∃ s', s.yylex n = some (s', .packet) ∧ qs <:+ s'.yy.input.pieces := by
  induction n generalizing s p ps with
  | zero => omega
  | succ n ih =>
    obtain ⟨t, complete, valid⟩ := answer
    have packet : t.rule = .packet := by
      rw [validPacket, Bool.and_eq_true] at valid
      exact eq_of_beq valid.1
    obtain ⟨found, yy', run, finds⟩ := rests.nextToken
    obtain ⟨t1, p1, ps', rfl, rests1, left, first, shorter⟩ := finds.prompt pieces complete packet
    have option : s.yy.nextToken.toOption = some (some t1, yy') := by rw [run]; rfl
    obtain ⟨-, -, result, -⟩ := scanAction_spec [] s.data t1
    rw [BufferedClient.yylex, option, Option.bind_eq_bind, Option.bind_some]
    dsimp only
    rw [result]
    split_ifs with ends
    · exact ⟨_, rfl, ps', left.symm⟩
    · have later : t ∈ scan (p1 ++ ps'.flatten) := by
        rw [first] at complete
        rcases List.mem_cons.mp complete with rfl | later
        · exact absurd valid ends
        · exact later
      exact ih rests1 left ⟨t, later, valid⟩ (by omega)

/-- Where an answer is complete in what is pending and the first pieces that arrive, the client
returns with it: it waits for none of the others. -/
theorem gdbGetAnswer_prompt (fresh : Nat → UInt8) (input : Connection) (yy : YyGuts)
    (data : ParserData) (history : List Event) (ps qs : List (List UInt8))
    (small : input.bytes.length + 2 < 2 ^ 30) (reached : YyReached fresh input yy)
    (pieces : yy.input.pieces = ps ++ qs)
    (answer : ∃ t ∈ scan (yy.pending ++ ps.flatten), validPacket t = true) :
    ∃ s, BufferedClient.gdbGetAnswer ⟨data, yy, history⟩ = some (s, .packet) ∧
      qs <:+ s.yy.input.pieces := by
  obtain ⟨p, rests⟩ := reached.rests small
  rw [rests.pending] at answer
  have short := rests.length_le
  have bytes : yy.input.bytes.length = ps.flatten.length + qs.flatten.length := by
    rw [Connection.bytes, pieces, List.flatten_append, List.length_append]
  exact yylex_prompt rests pieces answer (by rw [List.length_append]; dsimp only; omega)

/-- A packet in three pieces, with another byte in a fourth. -/
theorem gdbGetAnswer_prompt_pieces : ∃ s, BufferedClient.gdbGetAnswer
      ⟨⟨⟨fun _ => 0, 0, [], []⟩, []⟩, .start (fun _ => 0xcc)
        ⟨[[0x24, 0x4f], [0x4b, 0x23, 0x39], [0x61], [0x2b]], by decide⟩, []⟩ = some (s, .packet) ∧
    [[0x2b]] <:+ s.yy.input.pieces := by
  refine gdbGetAnswer_prompt _ _ _ _ [] [[0x24, 0x4f], [0x4b, 0x23, 0x39], [0x61]] [[0x2b]]
    (by decide) .start rfl ?_
  have packet := scan_packet_cons (p := [0x4f, 0x4b]) (by decide +kernel)
    (show isHex 0x39 = true by decide) (show isHex 0x61 = true by decide) []
  have none (yy : YyGuts) (h : yy.cBufP = yy.nChars) : yy.pending = [] := by
    rw [YyGuts.pending, h, slice_self]
  rw [none _ rfl]
  exact ⟨_, packet ▸ List.mem_cons_self, by decide +kernel⟩

end prompt

end ArmRunner
