import ArmRunner.GdbClient
import Mathlib.Algebra.Order.Floor.Div

namespace ArmRunner

open CRun Lexer

/-- `struct parser_data`, with all of its buffer. -/
structure ParserState where
  gdb : GdbProtocolData
  buffer : List UInt8
  len : Nat

def ParserState.handleError (data : ParserState) : Run ParserState :=
  if data.len ≠ 0 then do
    let buffer ← assign data.buffer data.len 0
    .ok ⟨gdbRequireRetransmission data.gdb, buffer, 0⟩
  else .ok data

def ParserState.addCharacterToError (data : ParserState) (c : UInt8) : Run ParserState := do
  let data ← if maxErrorSize - 2 < data.len then data.handleError else .ok data
  let buffer ← assign data.buffer data.len c
  .ok { data with buffer := buffer, len := data.len + 1 }

/-- The action of a rule, and whether it returns `PACKET`. -/
def ParserState.scanAction (data : ParserState) (t : ScanToken) : Run (ParserState × Bool) :=
  match t.rule with
  | .ack => do
    let data ← data.handleError
    .ok (data, false)
  | .retransmission => do
    let data ← data.handleError
    .ok ({ data with gdb := gdbTransmitPacket data.gdb }, false)
  | .packet => do
    let data ← data.handleError
    let (gdb, result) := gdbPacketCheck data.gdb t.text
    .ok ({ data with gdb := gdb }, result)
  | .character => do
    let data ← data.addCharacterToError (t.text.headD 0)
    .ok (data, false)
  | .echo => .ok (data, false)

/-- What the scanner does at a token, or at the end of the input where there is none. -/
def ParserState.close (data : ParserState) : Option ScanToken → Run ParserState
  | some t => do
    let (data, _) ← data.scanAction t
    .ok data
  | none => data.handleError

/-- A call of `yylex` that returns `PACKET` leaves the client to do what it does with its packet
before the next call, here the `k`-th. -/
def scanTurn (client : Nat → GdbProtocolData → GdbProtocolData) (s : Nat × ParserState)
    (t : ScanToken) : Run (Nat × ParserState) := do
  let (data, result) ← s.2.scanAction t
  if result then .ok (s.1 + 1, { data with gdb := client s.1 data.gdb }) else .ok (s.1, data)

/-- The data of the scanner at first, with any bytes in the buffer. -/
def ParserState.start (gdb : GdbProtocolData) (content : Nat → UInt8) : ParserState :=
  ⟨gdb, (List.range maxErrorSize).map content, 0⟩

/-- The calls of `yylex` up to the last of the tokens. -/
def scanTokens (client : Nat → GdbProtocolData → GdbProtocolData) (data : ParserState)
    (ts : List ScanToken) : Run (Nat × ParserState) :=
  ts.foldlM (scanTurn client) (0, data)

/-- The calls of `yylex` up to the end of the input. -/
def scanStream (client : Nat → GdbProtocolData → GdbProtocolData) (data : ParserState)
    (stream : List UInt8) : Run ParserState := do
  let (_, data) ← scanTokens client data (scan stream)
  data.close none

def isCharacter (t : ScanToken) : Bool := t.rule == .character

/-- A `+`, a `-` or a packet. -/
def closingToken (t : ScanToken) : Bool :=
  match t.rule with
  | .character => false
  | .echo => false
  | _ => true

/-- A maximal run of tokens of a stream that are no `+`, `-` or packet. It may be empty. -/
structure IsRun (stream : List UInt8) (before run after : List ScanToken) : Prop where
  tokens : scan stream = before ++ run ++ after
  others : ∀ t ∈ run, closingToken t = false
  opened : ∀ t, before.getLast? = some t → closingToken t = true
  closed : ∀ t, after.head? = some t → closingToken t = true

/-- What the action of a token writes itself, behind `handle_error`. -/
def reply (gdb : GdbProtocolData) : Option ScanToken → List (List UInt8)
  | some t =>
    match t.rule with
    | .retransmission => [gdb.window 0 gdb.len]
    | .packet => [if (packetSums t.text).1.toNat = (packetSums t.text).2 then [0x2b] else [0x2d]]
    | _ => []
  | none => []

/-- From the state `first` before a run, through the state `last` behind it, the texts `requests`
are written before the next token, or the end of the input, is acted on. -/
def Answered (first last : ParserState) (next : Option ScanToken) (requests : List (List UInt8)) :
    Prop :=
  ∃ data, last.close next = .ok data ∧
    data.gdb.transmitted = first.gdb.transmitted ++ requests ++ reply last.gdb next

/-- The requests for a run of so many bytes: one for each full buffer and one for the rest. -/
def runRequests (n : Nat) : List (List UInt8) := List.replicate (n ⌈/⌉ (maxErrorSize - 1)) [0x2d]

section actions

variable {data first : ParserState} {t : ScanToken}

/-- What is left of the data when the error buffer holds only its text. -/
def ParserState.text (data : ParserState) : ParserData := ⟨data.gdb, data.buffer.take data.len⟩

/-- The NUL that `handle_error` stores and a byte behind the text stay in the buffer. -/
structure Bounded (data : ParserState) : Prop where
  size : data.buffer.length = maxErrorSize
  len_le : data.len ≤ maxErrorSize - 1

/-- The request for the invalid data in the buffer. -/
def flush (data : ParserState) : List (List UInt8) := if data.len ≠ 0 then [[0x2d]] else []

theorem Bounded.text_length (h : Bounded data) : data.text.buffer.length = data.len := by
  have len_le := h.len_le
  simp only [ParserState.text, List.length_take, h.size]
  simp only [maxErrorSize] at len_le ⊢
  omega

theorem handleError_run (h : Bounded data) : ∃ data', data.handleError = .ok data' ∧
    data'.len = 0 ∧ data'.buffer.length = maxErrorSize ∧
    Wrote data.gdb data'.gdb (flush data) ∧ data'.text = handleError data.text := by
  have len_le := h.len_le
  have size := h.size
  have text := h.text_length
  rw [ParserState.handleError, handleError, flush, text]
  by_cases pending : data.len ≠ 0
  · have inside : data.len < data.buffer.length := by
      rw [size]
      simp only [maxErrorSize] at len_le ⊢
      omega
    rw [if_pos pending, if_pos pending, if_pos pending, assign_of_lt 0 inside, ok_bind]
    refine ⟨_, rfl, rfl, ?_, wrote_write data.gdb [0x2d], rfl⟩
    simp only [List.length_set, size]
  · rw [if_neg pending, if_neg pending, if_neg pending]
    exact ⟨data, rfl, by omega, size, wrote_nil data.gdb, rfl⟩

/-- The flush for a full buffer comes before the store. -/
theorem addCharacterToError_run (h : Bounded data) (c : UInt8) :
    ∃ data', data.addCharacterToError c = .ok data' ∧ Bounded data' ∧
      data'.text = addCharacterToError data.text c ∧
      ∃ requests, Wrote data.gdb data'.gdb requests ∧
        ((data'.len = data.len + 1 ∧ requests = []) ∨
          (data.len = maxErrorSize - 1 ∧ data'.len = 1 ∧ requests = [[0x2d]])) := by
  have len_le := h.len_le
  have size := h.size
  have text := h.text_length
  -- a store behind the text makes the text longer
  have stored (d : ParserState) (hs : d.buffer.length = maxErrorSize) (hl : d.len < maxErrorSize) :
      assign d.buffer d.len c = .ok (d.buffer.set d.len c) ∧
        (d.buffer.set d.len c).take (d.len + 1) = d.buffer.take d.len ++ [c] := by
    have inside : d.len < d.buffer.length := by omega
    refine ⟨assign_of_lt c inside, ?_⟩
    rw [List.take_add_one, List.getElem?_set_self inside, List.take_set_of_le le_rfl]
    rfl
  rw [ParserState.addCharacterToError, addCharacterToError, text]
  by_cases full : maxErrorSize - 2 < data.len
  · obtain ⟨d, run, len, size', wrote, abstract⟩ := handleError_run h
    have last : data.len = maxErrorSize - 1 := by
      simp only [maxErrorSize] at full len_le ⊢
      omega
    obtain ⟨store, grown⟩ := stored d size' (by rw [len]; decide)
    rw [if_pos full, if_pos full, run, ok_bind]
    simp only [store, ok_bind]
    refine ⟨_, rfl, ⟨by simpa using size', ?_⟩, ?_, [[0x2d]], ?_, Or.inr ⟨last, ?_, rfl⟩⟩
    · simp only [len]
      decide
    · rw [← abstract]
      simp only [ParserState.text, grown]
    · rw [flush, if_pos (by rw [last]; decide)] at wrote
      exact wrote
    · simp only [len]
  · have room : data.len < maxErrorSize - 1 := by
      simp only [maxErrorSize] at full ⊢
      omega
    obtain ⟨store, grown⟩ := stored data size (by simp only [maxErrorSize] at room ⊢; omega)
    rw [if_neg full, if_neg full, ok_bind]
    simp only [store, ok_bind]
    refine ⟨_, rfl, ⟨by simpa using size, room⟩, ?_, [], wrote_nil _, Or.inl ⟨rfl, rfl⟩⟩
    simp only [ParserState.text, grown]

/-- The action of a token that ends a run empties the buffer, and what it writes itself comes behind
the request for what was in it. -/
theorem Bounded.acted (h : Bounded data) (ht : closingToken t = true) :
    ∃ data' result, data.scanAction t = .ok (data', result) ∧ Bounded data' ∧ data'.len = 0 ∧
      Wrote data.gdb data'.gdb (flush data ++ reply data.gdb (some t)) ∧
      (data'.text, result) = scanAction data.text t := by
  obtain ⟨d, handled, len, size, wrote, abstract⟩ := handleError_run h
  have bounded (gdb : GdbProtocolData) : Bounded { d with gdb := gdb } :=
    ⟨size, by rw [len]; omega⟩
  obtain ⟨rule, bytes⟩ := t
  cases rule with
  | ack =>
    refine ⟨d, false, ?_, bounded d.gdb, len, wrote.trans (wrote_nil _), ?_⟩
    · simp only [ParserState.scanAction, handled, ok_bind]
    · simp only [scanAction, ← abstract]
  | retransmission =>
    refine ⟨_, false, ?_, bounded (gdbTransmitPacket d.gdb), len, ?_, ?_⟩
    · simp only [ParserState.scanAction, handled, ok_bind]
    · rw [reply, ← wrote.window]
      exact wrote.trans (wrote_transmitPacket d.gdb)
    · simp only [scanAction, ← abstract]
      rfl
  | packet =>
    refine ⟨_, (gdbPacketCheck d.gdb bytes).2, ?_, bounded (gdbPacketCheck d.gdb bytes).1, len,
      wrote.trans (wrote_packetCheck d.gdb bytes), ?_⟩
    · simp only [ParserState.scanAction, handled, ok_bind]
    · simp only [scanAction, ← abstract]
      rfl
  | character => cases ht
  | echo => cases ht

/-- The action of any token keeps the buffer, and does what it does with the text alone. -/
theorem Bounded.action (h : Bounded data) (t : ScanToken) :
    ∃ data' result, data.scanAction t = .ok (data', result) ∧ Bounded data' ∧
      (closingToken t = true → data'.len = 0) ∧ (data'.text, result) = scanAction data.text t := by
  by_cases closing : closingToken t = true
  · obtain ⟨d, result, action, bounded, len, -, abstract⟩ := h.acted closing
    exact ⟨d, result, action, bounded, fun _ => len, abstract⟩
  · obtain ⟨rule, bytes⟩ := t
    cases rule with
    | character =>
      obtain ⟨d, added, bounded, abstract, -⟩ := addCharacterToError_run h (bytes.headD 0)
      refine ⟨d, false, ?_, bounded, fun h => absurd h closing, ?_⟩
      · simp only [ParserState.scanAction, added, ok_bind]
      · simp only [scanAction, abstract]
    | echo => exact ⟨data, false, rfl, h, fun h => absurd h closing, rfl⟩
    | ack => exact absurd rfl closing
    | retransmission => exact absurd rfl closing
    | packet => exact absurd rfl closing

/-- From the state `first` on, `n` bytes of invalid data have been taken: those in the buffer are
the ones for which nothing has been requested yet. -/
structure Gathered (first : ParserState) (n : Nat) (data : ParserState) : Prop extends
    Bounded data where
  count : ∃ full, n = (maxErrorSize - 1) * full + data.len ∧
    data.gdb.transmitted = first.gdb.transmitted ++ List.replicate full [0x2d]
  started : n ≠ 0 → data.len ≠ 0

theorem Bounded.gathered (h : Bounded data) (empty : data.len = 0) : Gathered data 0 data :=
  ⟨h, ⟨0, by simp [empty], by simp⟩, by simp⟩

theorem Gathered.character {n : Nat} (h : Gathered first n data) (ht : t.rule = .character) :
    ∃ data', data.scanAction t = .ok (data', false) ∧ Gathered first (n + 1) data' := by
  obtain ⟨data', run, bounded, -, requests, wrote, stored⟩ :=
    addCharacterToError_run h.toBounded (t.text.headD 0)
  obtain ⟨full, count, transmitted⟩ := h.count
  refine ⟨data', ?_, ⟨bounded, ?_, ?_⟩⟩
  · simp only [ParserState.scanAction, ht, run, ok_bind]
  · rcases stored with ⟨len, rfl⟩ | ⟨last, len, rfl⟩
    · exact ⟨full, by omega, by rw [wrote.transmitted, transmitted, List.append_nil]⟩
    · refine ⟨full + 1, ?_, ?_⟩
      · rw [count, last, len, Nat.mul_add, Nat.mul_one]
      · rw [wrote.transmitted, transmitted, List.append_assoc, List.replicate_succ']
  · omega

/-- Behind the request for what is left in the buffer there is one for each full buffer and one for
the rest. -/
theorem Gathered.flush {n : Nat} (h : Gathered first n data) :
    data.gdb.transmitted ++ flush data = first.gdb.transmitted ++ runRequests n := by
  obtain ⟨full, count, transmitted⟩ := h.count
  have len_le := h.len_le
  have started := h.started
  rw [ArmRunner.flush, runRequests, transmitted, Nat.ceilDiv_eq_add_pred_div]
  simp only [maxErrorSize, Nat.reduceSub] at count len_le ⊢
  by_cases left : data.len ≠ 0
  · have ceil : (n + 1023 - 1) / 1023 = full + 1 := by omega
    rw [if_pos left, ceil, List.replicate_succ', List.append_assoc]
  · have ceil : (n + 1023 - 1) / 1023 = full := by omega
    rw [if_neg left, ceil, List.append_nil]

theorem Gathered.close {n : Nat} (h : Gathered first n data) {next : Option ScanToken}
    (ends : ∀ t, next = some t → closingToken t = true) :
    Answered first data next (runRequests n) := by
  cases next with
  | none =>
    obtain ⟨d, handled, -, -, wrote, -⟩ := handleError_run h.toBounded
    exact ⟨d, handled, by rw [wrote.transmitted, h.flush, reply, List.append_nil]⟩
  | some t =>
    obtain ⟨d, result, run, -, -, wrote, -⟩ := h.toBounded.acted (ends t rfl)
    refine ⟨d, by rw [ParserState.close, run, ok_bind], ?_⟩
    rw [wrote.transmitted, ← List.append_assoc, h.flush]

end actions

section runs

variable {client : Nat → GdbProtocolData → GdbProtocolData} {gdb : GdbProtocolData}
  {content : Nat → UInt8} {stream : List UInt8} {data first : ParserState}
  {ts before run after : List ScanToken}

theorem start_bounded (gdb : GdbProtocolData) (content : Nat → UInt8) :
    Bounded (ParserState.start gdb content) :=
  ⟨by simp [ParserState.start], Nat.zero_le _⟩

/-- A token that does not end a run is taken without a return to the client. -/
theorem Gathered.turn {n : Nat} (h : Gathered first n data)
    (client : Nat → GdbProtocolData → GdbProtocolData) {t : ScanToken}
    (ht : closingToken t = false) (k : Nat) :
    ∃ data', scanTurn client (k, data) t = .ok (k, data') ∧
      Gathered first (n + [t].countP isCharacter) data' := by
  obtain ⟨rule, bytes⟩ := t
  cases rule with
  | character =>
    obtain ⟨data', action, taken⟩ := h.character (t := ⟨.character, bytes⟩) rfl
    exact ⟨data', by rw [scanTurn, action]; rfl, taken⟩
  | echo => exact ⟨data, rfl, h⟩
  | ack => cases ht
  | retransmission => cases ht
  | packet => cases ht

theorem Gathered.tokens (h : Gathered data 0 data)
    (client : Nat → GdbProtocolData → GdbProtocolData) (k : Nat)
    (others : ∀ t ∈ run, closingToken t = false) :
    ∃ data', run.foldlM (scanTurn client) (k, data) = .ok (k, data') ∧
      Gathered data (run.countP isCharacter) data' := by
  induction run using List.reverseRecOn with
  | nil => exact ⟨data, rfl, h⟩
  | append_singleton run t ih =>
    obtain ⟨d, before, taken⟩ := ih fun t ht => others t (by simp [ht])
    obtain ⟨d', turn, taken'⟩ := taken.turn client (others t (by simp)) k
    refine ⟨d', ?_, by rwa [List.countP_append]⟩
    rw [List.foldlM_append, before, ok_bind, List.foldlM_cons, turn]
    rfl

/-- What the client does between two calls leaves the buffer as it is. -/
theorem Bounded.turn (h : Bounded data) (client : Nat → GdbProtocolData → GdbProtocolData)
    (k : Nat) (t : ScanToken) :
    ∃ k' data', scanTurn client (k, data) t = .ok (k', data') ∧ Bounded data' ∧
      (closingToken t = true → data'.len = 0) := by
  obtain ⟨d, result, action, bounded, empty, -⟩ := h.action t
  rw [scanTurn, action, ok_bind]
  cases result with
  | false => exact ⟨k, d, rfl, bounded, empty⟩
  | true =>
    exact ⟨k + 1, { d with gdb := client k d.gdb }, rfl, ⟨bounded.size, bounded.len_le⟩, empty⟩

theorem scanTokens_bounded (client : Nat → GdbProtocolData → GdbProtocolData)
    (gdb : GdbProtocolData) (content : Nat → UInt8) (ts : List ScanToken) :
    ∃ k data, scanTokens client (.start gdb content) ts = .ok (k, data) ∧ Bounded data ∧
      ((∀ t, ts.getLast? = some t → closingToken t = true) → data.len = 0) := by
  induction ts using List.reverseRecOn with
  | nil => exact ⟨0, _, rfl, start_bounded gdb content, fun _ => rfl⟩
  | append_singleton ts t ih =>
    obtain ⟨k, data, run, bounded, -⟩ := ih
    obtain ⟨k', data', turn, bounded', empty⟩ := bounded.turn client k t
    refine ⟨k', data', ?_, bounded', fun last => empty (last t (by simp))⟩
    rw [scanTokens] at run ⊢
    rw [List.foldlM_append, run, ok_bind, List.foldlM_cons, turn]
    rfl

/-- Every run is answered before what ends it, by as many requests as its length asks for. -/
theorem IsRun.answered (h : IsRun stream before run after)
    (client : Nat → GdbProtocolData → GdbProtocolData) (gdb : GdbProtocolData)
    (content : Nat → UInt8) : ∃ k first last,
      scanTokens client (.start gdb content) before = .ok (k, first) ∧
      scanTokens client (.start gdb content) (before ++ run) = .ok (k, last) ∧
      Answered first last after.head? (runRequests (run.countP isCharacter)) := by
  obtain ⟨k, first, start, bounded, empty⟩ := scanTokens_bounded client gdb content before
  obtain ⟨last, ends, taken⟩ := (bounded.gathered (empty h.opened)).tokens client k h.others
  refine ⟨k, first, last, start, ?_, taken.close h.closed⟩
  rw [scanTokens] at start ⊢
  rw [List.foldlM_append, start, ok_bind, ends]

theorem scanStream_empties (client : Nat → GdbProtocolData → GdbProtocolData)
    (gdb : GdbProtocolData) (content : Nat → UInt8) (stream : List UInt8) :
    ∃ data, scanStream client (.start gdb content) stream = .ok data ∧ data.len = 0 := by
  obtain ⟨k, data, run, bounded, -⟩ := scanTokens_bounded client gdb content (scan stream)
  obtain ⟨d, handled, len, -⟩ := handleError_run bounded
  exact ⟨d, by rw [scanStream, run, ok_bind]; exact handled, len⟩

/-- The text of the invalid data never reaches the end of its buffer, is empty behind every `+`,
`-` and packet and at the end of the input, and for every run a `-` is written for each full buffer
and one for its rest, before what ends the run is acted on. -/
theorem scanStream_errorBuffer (client : Nat → GdbProtocolData → GdbProtocolData)
    (gdb : GdbProtocolData) (content : Nat → UInt8) (stream : List UInt8) :
    (∀ ts, ts <+: scan stream → ∃ k data,
      scanTokens client (.start gdb content) ts = .ok (k, data) ∧
      data.buffer.length = maxErrorSize ∧ data.len ≤ maxErrorSize - 1 ∧
      ∀ t, ts.getLast? = some t → closingToken t = true → data.len = 0) ∧
    (∃ data, scanStream client (.start gdb content) stream = .ok data ∧ data.len = 0) ∧
    ∀ before run after, IsRun stream before run after → ∃ k first last,
      scanTokens client (.start gdb content) before = .ok (k, first) ∧
      scanTokens client (.start gdb content) (before ++ run) = .ok (k, last) ∧
      Answered first last after.head?
        (List.replicate (run.countP isCharacter ⌈/⌉ (maxErrorSize - 1)) [0x2d]) := by
  refine ⟨?_, scanStream_empties client gdb content stream,
    fun _ _ _ h => h.answered client gdb content⟩
  intro ts _
  obtain ⟨k, data, run, bounded, empty⟩ := scanTokens_bounded client gdb content ts
  refine ⟨k, data, run, bounded.size, bounded.len_le, fun t last closing => empty ?_⟩
  rintro t' last'
  cases last.symm.trans last'
  exact closing

/-- For each run of invalid data that is not empty a `-` is written before the next token is acted
on or the end of the input is reported. -/
def RequestsGarbage (client : Nat → GdbProtocolData → GdbProtocolData) (gdb : GdbProtocolData)
    (content : Nat → UInt8) (stream : List UInt8) : Prop :=
  ∀ before run after, IsRun stream before run after → run ≠ [] → ∃ k first last requests,
    scanTokens client (.start gdb content) before = .ok (k, first) ∧
    scanTokens client (.start gdb content) (before ++ run) = .ok (k, last) ∧
    Answered first last after.head? requests ∧ [0x2d] ∈ requests

/-- A byte of a run is taken by the rule for invalid data unless it is a newline. -/
theorem IsRun.character (h : IsRun stream before run after) {t : ScanToken} (ht : t ∈ run) :
    isCharacter t = true ↔ t.text ≠ [0x0a] := by
  have other := h.others t ht
  have found : t ∈ scan stream := by
    rw [h.tokens]
    simp [ht]
  have first := tokens_firstMatch found
  rcases firstMatch_ne_none.mp (by rw [first]; simp) with packet | ⟨c, text⟩
  · rw [firstMatch_packet packet] at first
    rw [closingToken, ← Option.some.inj first] at other
    cases other
  · rw [text, firstMatch_byte] at first
    have rule := Option.some.inj first
    rw [closingToken, ← rule] at other
    rw [isCharacter, ← rule, text]
    unfold byteRule at other ⊢
    split_ifs at other ⊢ with plus minus newline
    · simp [newline]
    · simp [newline]

theorem dash_mem_runRequests {n : Nat} : [0x2d] ∈ runRequests n ↔ 0 < n := by
  rw [runRequests, List.mem_replicate, Nat.ceilDiv_eq_add_pred_div, and_iff_left rfl]
  simp only [maxErrorSize, Nat.reduceSub]
  omega

/-- The texts written before what ends a run are determined by the run. -/
theorem IsRun.requests (h : IsRun stream before run after) {k : Nat} {last : ParserState}
    {requests : List (List UInt8)}
    (start : scanTokens client (.start gdb content) before = .ok (k, first))
    (ends : scanTokens client (.start gdb content) (before ++ run) = .ok (k, last))
    (answered : Answered first last after.head? requests) :
    requests = runRequests (run.countP isCharacter) := by
  obtain ⟨k', first', last', start', ends', data', close', transmitted'⟩ :=
    h.answered client gdb content
  cases start.symm.trans start'
  cases ends.symm.trans ends'
  obtain ⟨data, close, transmitted⟩ := answered
  cases close.symm.trans close'
  have same := transmitted.symm.trans transmitted'
  rw [List.append_assoc, List.append_assoc, List.append_cancel_left_eq,
    List.append_cancel_right_eq] at same
  exact same

/-- Every run is answered exactly when each has a byte other than the newline, which the default
rule prints. -/
theorem requestsGarbage_iff (client : Nat → GdbProtocolData → GdbProtocolData)
    (gdb : GdbProtocolData) (content : Nat → UInt8) (stream : List UInt8) :
    RequestsGarbage client gdb content stream ↔
      ∀ before run after, IsRun stream before run after → run ≠ [] →
        ∃ t ∈ run, t.text ≠ [0x0a] := by
  have bytes {before run after : List ScanToken} (h : IsRun stream before run after) :
      0 < run.countP isCharacter ↔ ∃ t ∈ run, t.text ≠ [0x0a] := by
    rw [List.countP_pos_iff]
    exact exists_congr fun t => and_congr_right fun ht => h.character ht
  constructor
  · intro all before run after h nonempty
    obtain ⟨k, first, last, requests, start, ends, answered, dash⟩ :=
      all before run after h nonempty
    rw [h.requests start ends answered, dash_mem_runRequests] at dash
    exact (bytes h).mp dash
  · intro some before run after h nonempty
    obtain ⟨k, first, last, start, ends, answered⟩ := h.answered client gdb content
    exact ⟨k, first, last, _, start, ends, answered,
      dash_mem_runRequests.mpr ((bytes h).mpr (some before run after h nonempty))⟩

/-- A newline before an acknowledgement is printed, and nothing asks for it again. -/
theorem not_requestsGarbage_newline :
    ¬RequestsGarbage (fun _ gdb => gdb) ⟨fun _ => 0, 0, [], []⟩ (fun _ => 0) [0x0a, 0x2b] := by
  have newline : IsRun [0x0a, 0x2b] [] [⟨.echo, [0x0a]⟩] [⟨.ack, [0x2b]⟩] := by
    refine ⟨by decide +kernel, by decide, by simp, ?_⟩
    rintro t ack
    cases ack
    rfl
  intro all
  obtain ⟨k, first, last, requests, start, ends, answered, dash⟩ := all _ _ _ newline (by simp)
  rw [newline.requests start ends answered] at dash
  revert dash
  decide

end runs

end ArmRunner
