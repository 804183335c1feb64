import ArmRunner.GdbClient

namespace ArmRunner

open CRun Wire Lexer

/-- What the simulator keeps: its registers and its memory. -/
structure Target where
  registers : UInt8 → UInt32
  memory : UInt32 → UInt8

/-- Bytes are stored from an address on. -/
def Target.store (t : Target) (address : UInt32) : List UInt8 → Target
  | [] => t
  | b :: bs =>
    { t with memory := Function.update t.memory address b }.store (address + 1) bs

def Target.setRegister (t : Target) (num : UInt8) (value : UInt32) : Target :=
  { t with registers := Function.update t.registers num value }

/-- A simulator, which is no part of the program: how it goes on when it hears a text and what it
tells then, what it holds, the answer that it gave last, and what a run and a step make of what it
holds. -/
structure Simulator (σ : Type) where
  hear : σ → List UInt8 → σ
  tells : σ → List UInt8 → List (List UInt8)
  target : σ → Target
  answer : σ → List UInt8
  cont : Target → Target
  step : Target → Target

/-- A packet in form, but its sum is not the one it gives. -/
def WrongSum (text : List UInt8) : Prop :=
  ∃ p h1 h2, Plain p ∧ isHex h1 = true ∧ isHex h2 = true ∧ text = packetText p h1 h2 ∧
    (packetSums text).1.toNat ≠ (packetSums text).2

/-- The payload of a packet that fits in the client's array. -/
def ShortPayload (payload : List UInt8) : Prop := Plain payload ∧ payload.length ≤ 1019

/-- A request before the run that a simulator can serve: it has the registers of an ARM. -/
def Request.Served : Request → Prop
  | .writeRegister num _ => num < 16
  | .writeMemory address memory size => (Request.writeMemory address memory size).Fits
  | .cont => False
  | .step => True

namespace Simulator

variable {σ : Type} (sim : Simulator σ)

/-- What a request is to do. -/
def apply (t : Target) : Request → Target
  | .writeRegister num value => t.setRegister num value
  | .writeMemory address memory size => t.store address ((List.range size).map memory)
  | .cont => sim.cont t
  | .step => sim.step t

/-- What is assumed of a simulator that goes by the protocol. It asks again for a packet with a wrong
sum, repeats its last answer when the client asks for that, and acknowledges and answers the packets
that are whole, but it may exit with a run instead of an answer. Of a packet it does what the
protocol says. -/
structure Serves (target : Bool) : Prop where
  quiet : ∀ s, sim.tells s [0x2b] = []
  again : ∀ s, sim.tells s [0x2d] = [frame (sim.answer s)]
  refuses : ∀ s text, WrongSum text → sim.tells s text = [[0x2d]]
  rests : ∀ s text, text = [0x2b] ∨ text = [0x2d] ∨ WrongSum text →
    sim.target (sim.hear s text) = sim.target s ∧ sim.answer (sim.hear s text) = sim.answer s
  answers : ∀ s payload, ShortPayload payload → payload ≠ [0x63] →
    sim.tells s (frame payload) = [[0x2b], frame (sim.answer (sim.hear s (frame payload)))]
  runs : ∀ s, sim.tells s (frame [0x63]) = [[0x2b], frame (sim.answer (sim.hear s (frame [0x63])))] ∨
    sim.tells s (frame [0x63]) = [[0x2b]]
  plain : ∀ s payload, ShortPayload payload → Plain (sim.answer (sim.hear s (frame payload)))
  register : ∀ s, ∀ num < 16, ∀ value,
    sim.target (sim.hear s (frame (registerPayload target num value))) =
      (sim.target s).setRegister num value
  memory : ∀ s (w : MemoryWrite), (escaped w.data).length ≤ 1000 →
    sim.target (sim.hear s (frame w.payload)) = (sim.target s).store w.address w.data
  cont : ∀ s, sim.target (sim.hear s (frame [0x63])) = sim.cont (sim.target s)
  step : ∀ s, sim.target (sim.hear s (frame [0x73])) = sim.step (sim.target s)

/-- Texts are heard one after the other. -/
def hearAll (s : σ) (texts : List (List UInt8)) : σ := texts.foldl sim.hear s

def tellsAll : σ → List (List UInt8) → List (List UInt8)
  | _, [] => []
  | s, text :: texts => sim.tells s text ++ tellsAll (sim.hear s text) texts

end Simulator

/-- What the link damages while a packet is exchanged: the copies of it that arrive first, and the
answers that arrive first. -/
structure Damage where
  copies : List (List UInt8)
  answers : List (List UInt8)
  copies_damaged : ∀ text ∈ copies, WrongSum text
  answers_damaged : ∀ text ∈ answers, WrongSum text

/-- The exchange of a packet, up to an answer that arrives whole, or up to the end of a simulator
that gives none. -/
structure Round where
  payload : List UInt8
  answer : Option (List UInt8)
  damage : Damage

namespace Round

variable (r : Round)

def packet : List UInt8 := frame r.payload

/-- The answers that the client asks for again, and the one that it takes. -/
def taken : List (List UInt8) :=
  match r.answer with
  | some _ => List.replicate r.damage.answers.length [0x2d] ++ [[0x2b]]
  | none => []

/-- What the client writes, what the simulator hears of it and says, and what arrives of that. -/
def written : List (List UInt8) :=
  List.replicate (r.damage.copies.length + 1) r.packet ++ r.taken

def heard : List (List UInt8) := r.damage.copies ++ [r.packet] ++ r.taken

def said : List (List UInt8) :=
  List.replicate r.damage.copies.length [0x2d] ++ [[0x2b]] ++
    match r.answer with
    | some answer => List.replicate (r.damage.answers.length + 1) (frame answer)
    | none => []

def arrived : List (List UInt8) :=
  List.replicate r.damage.copies.length [0x2d] ++ [[0x2b]] ++
    match r.answer with
    | some answer => r.damage.answers ++ [frame answer]
    | none => []

end Round

/-- How a session with some payloads goes over the link: there is an exchange for each, the first
damaged as `damage 0` says and so on, and the simulator says in them what arrives, damaged, at the
client. -/
structure Carries {σ : Type} (sim : Simulator σ) (s : σ) (damage : Nat → Damage)
    (payloads : List (List UInt8)) (rounds : List Round) : Prop where
  payloads : rounds.map Round.payload = payloads
  damage : rounds.map Round.damage = (List.range rounds.length).map damage
  said : sim.tellsAll s (rounds.flatMap Round.heard) = rounds.flatMap Round.said

section wait

variable {c : Client} {r packet : List UInt8} {texts : List (List UInt8)} {ts : List ScanToken}

/-- The client waits, with no invalid data. -/
structure Calm (c : Client) (packet : List UInt8) (texts : List (List UInt8)) : Prop where
  buffer : c.data.buffer = []
  window : c.data.gdb.window 0 c.data.gdb.len = packet
  transmitted : c.data.gdb.transmitted = texts

/-- What a token makes a client write that waits with a packet. -/
def Prompts (packet : List UInt8) (t : ScanToken) (more : List (List UInt8)) : Prop :=
  t.rule = .retransmission ∧ more = [packet] ∨ t.rule = .ack ∧ more = [] ∨
    t.rule = .packet ∧ validPacket t = false ∧ more = [[0x2d]]

theorem handleError_calm {data : ParserData} (h : data.buffer = []) : handleError data = data := by
  rw [handleError, h]
  rfl

theorem Calm.check (h : Calm c packet texts) (text : List UInt8) : ∃ data,
    scanAction c.data ⟨.packet, text⟩ = (data, validPacket ⟨.packet, text⟩) ∧ data.buffer = [] ∧
      data.gdb.window 0 data.gdb.len = packet ∧
      data.gdb.transmitted = texts ++ [if validPacket ⟨.packet, text⟩ then [0x2b] else [0x2d]] := by
  have wrote := wrote_packetCheck c.data.gdb text
  have result := packetCheck_result c.data.gdb text
  have valid : validPacket ⟨.packet, text⟩ =
      ((packetSums text).1.toNat == (packetSums text).2) := rfl
  refine ⟨{ c.data with gdb := (gdbPacketCheck c.data.gdb text).1 }, ?_, h.buffer, ?_, ?_⟩
  · rw [scanAction]
    dsimp only
    rw [handleError_calm h.buffer, valid, ← result]
  · rw [← h.window, ← wrote.window]
  · rw [← h.transmitted, valid]
    simp only [beq_iff_eq]
    exact wrote.transmitted

theorem Calm.token {t : ScanToken} {more : List (List UInt8)} (h : Calm c packet texts)
    (prompts : Prompts packet t more) (ts : List ScanToken) :
    ∃ c', Calm c' packet (texts ++ more) ∧ yylexFrom (t :: ts) c = yylexFrom ts c' := by
  obtain ⟨rule, text⟩ := t
  rcases prompts with ⟨rfl, rfl⟩ | ⟨rfl, rfl⟩ | ⟨rfl, invalid, rfl⟩
  · refine ⟨_, ⟨?_, ?_, ?_⟩, rfl⟩
    · exact (congrArg ParserData.buffer (handleError_calm h.buffer)).trans h.buffer
    · rw [← h.window]
      dsimp only [scanAction, Client.record]
      rw [handleError_calm h.buffer]
      rfl
    · rw [← h.transmitted, ← h.window]
      dsimp only [scanAction, Client.record]
      rw [handleError_calm h.buffer]
      rfl
  · refine ⟨_, ⟨?_, ?_, ?_⟩, rfl⟩
    · exact (congrArg ParserData.buffer (handleError_calm h.buffer)).trans h.buffer
    · rw [← h.window]
      dsimp only [scanAction, Client.record]
      rw [handleError_calm h.buffer]
    · rw [← h.transmitted, List.append_nil]
      dsimp only [scanAction, Client.record]
      rw [handleError_calm h.buffer]
  · obtain ⟨data, action, buffer, window, transmitted⟩ := h.check text
    rw [invalid] at action transmitted
    refine ⟨{ c.record (.token ⟨.packet, text⟩) data with tokens := ts }, ⟨buffer, window, ?_⟩, ?_⟩
    · exact transmitted
    · rw [yylexFrom, action]
      rfl

theorem Calm.tokens {us : List ScanToken} {mores : List (List (List UInt8))}
    (h : Calm c packet texts) (prompts : List.Forall₂ (Prompts packet) us mores)
    (ts : List ScanToken) : ∃ c', Calm c' packet (texts ++ mores.flatten) ∧
      yylexFrom (us ++ ts) c = yylexFrom ts c' := by
  induction prompts generalizing c texts with
  | nil => exact ⟨c, by simpa using h, rfl⟩
  | cons first rest ih =>
    obtain ⟨c1, calm, same⟩ := h.token first (_ ++ ts)
    obtain ⟨c2, calm', same'⟩ := ih calm
    refine ⟨c2, ?_, ?_⟩
    · rw [List.flatten_cons, ← List.append_assoc]
      exact calm'
    · rw [List.cons_append, same, same']

/-- An answer that is taken ends the wait. -/
theorem Calm.answered {text : List UInt8} (h : Calm c packet texts)
    (valid : validPacket ⟨.packet, text⟩ = true) (ts : List ScanToken) :
    ∃ c', yylexFrom (⟨.packet, text⟩ :: ts) c = (c', .packet) ∧ c'.tokens = ts ∧
      c'.data.buffer = [] ∧ c'.data.gdb.transmitted = texts ++ [[0x2b]] := by
  obtain ⟨data, action, buffer, -, transmitted⟩ := h.check text
  rw [valid] at action transmitted
  refine ⟨{ c.record (.token ⟨.packet, text⟩) data with tokens := ts }, ?_, rfl, buffer, ?_⟩
  · rw [yylexFrom, action]
    rfl
  · exact transmitted

end wait

section round

variable {r : Round} {rest : List UInt8} {c : Client} {gdb : GdbProtocolData}

/-- The answer is there, and no byte in it ends the packet. -/
def Round.Answered (r : Round) : Prop := ∃ answer, r.answer = some answer ∧ Plain answer

theorem forall₂_replicate {α β : Type} {R : α → β → Prop} {xs : List α} {b : β}
    (h : ∀ x ∈ xs, R x b) : List.Forall₂ R xs (List.replicate xs.length b) := by
  induction xs with
  | nil => exact .nil
  | cons x xs ih => exact .cons (h x (by simp)) (ih fun y hy => h y (by simp [hy]))

theorem wrongSum_token {text : List UInt8} (h : WrongSum text) (rest : List UInt8) :
    scan (text ++ rest) = ⟨.packet, text⟩ :: scan rest ∧ validPacket ⟨.packet, text⟩ = false := by
  obtain ⟨p, h1, h2, plain, hex1, hex2, rfl, sums⟩ := h
  exact ⟨scan_packet_cons plain hex1 hex2 rest, by simp [validPacket, sums]⟩

theorem scan_dashes (n : Nat) (rest : List UInt8) :
    scan ((List.replicate n [0x2d]).flatten ++ rest) =
      List.replicate n ⟨.retransmission, [0x2d]⟩ ++ scan rest := by
  induction n with
  | zero => rfl
  | succ n ih =>
    rw [List.replicate_succ, List.flatten_cons, List.append_assoc, List.singleton_append,
      scan_byte_cons (by decide), ih]
    rfl

theorem scan_answers {texts : List (List UInt8)} (h : ∀ text ∈ texts, WrongSum text)
    (rest : List UInt8) :
    scan (texts.flatten ++ rest) = texts.map (fun text => ⟨.packet, text⟩) ++ scan rest := by
  induction texts with
  | nil => rfl
  | cons text texts ih =>
    rw [List.flatten_cons, List.append_assoc, (wrongSum_token (h text (by simp)) _).1,
      ih fun text' there => h text' (by simp [there])]
    rfl

/-- The tokens for the copies of a packet, up to the one that arrives whole. -/
theorem scan_copies (n : Nat) (rest : List UInt8) :
    scan ((List.replicate n [0x2d] ++ ([[0x2b]] : List (List UInt8))).flatten ++ rest) =
      List.replicate n ⟨.retransmission, [0x2d]⟩ ++ (⟨.ack, [0x2b]⟩ :: scan rest) := by
  rw [List.flatten_append, List.append_assoc, scan_dashes, List.flatten_singleton,
    List.singleton_append, scan_byte_cons (by decide)]
  rfl

/-- The wait with a packet, up to the copy of it that arrives whole. -/
theorem Calm.copies {packet : List UInt8} {texts : List (List UInt8)} (h : Calm c packet texts)
    (n : Nat) (ts : List ScanToken) :
    ∃ c', Calm c' packet (texts ++ List.replicate n packet) ∧
      yylexFrom (List.replicate n ⟨.retransmission, [0x2d]⟩ ++ (⟨.ack, [0x2b]⟩ :: ts)) c =
        yylexFrom ts c' := by
  have prompts : List.Forall₂ (Prompts packet)
      (List.replicate n (⟨.retransmission, [0x2d]⟩ : ScanToken)) (List.replicate n [packet]) := by
    have count := List.length_replicate (n := n) (a := (⟨.retransmission, [0x2d]⟩ : ScanToken))
    nth_rewrite 2 [← count]
    apply forall₂_replicate
    intro t there
    rw [List.eq_of_mem_replicate there]
    exact Or.inl ⟨rfl, rfl⟩
  obtain ⟨c1, calm1, same1⟩ := h.tokens prompts (⟨.ack, [0x2b]⟩ :: ts)
  obtain ⟨c2, calm2, same2⟩ := calm1.token (t := ⟨.ack, [0x2b]⟩) (Or.inr (Or.inl ⟨rfl, rfl⟩)) ts
  rw [List.flatten_replicate_singleton, List.append_nil] at calm2
  exact ⟨c2, calm2, same1.trans same2⟩

/-- The wait for the answer that arrives whole. -/
theorem Calm.answers {packet answer : List UInt8} {texts answers : List (List UInt8)}
    (h : Calm c packet texts) (damaged : ∀ text ∈ answers, WrongSum text) (plain : Plain answer)
    (ts : List ScanToken) : ∃ c',
      yylexFrom (answers.map (fun text => ⟨.packet, text⟩) ++ (⟨.packet, frame answer⟩ :: ts)) c =
        (c', .packet) ∧ c'.tokens = ts ∧ c'.data.buffer = [] ∧
      c'.data.gdb.transmitted =
        texts ++ (List.replicate answers.length [0x2d] ++ [[0x2b]]) := by
  have prompts : List.Forall₂ (Prompts packet) (answers.map fun text => ⟨.packet, text⟩)
      (List.replicate answers.length [[0x2d]]) := by
    rw [List.forall₂_map_left_iff]
    apply forall₂_replicate
    intro text there
    exact Or.inr (Or.inr ⟨rfl, (wrongSum_token (damaged text there) []).2, rfl⟩)
  obtain ⟨c1, calm1, same⟩ := h.tokens prompts (⟨.packet, frame answer⟩ :: ts)
  obtain ⟨c2, ends, tokens, buffer, transmitted⟩ := calm1.answered (frame_token plain []).2 ts
  refine ⟨c2, same.trans ends, tokens, buffer, ?_⟩
  rw [transmitted, List.flatten_replicate_singleton, List.append_assoc]

theorem calm_sent (buffer : c.data.buffer = []) (sends : Sends c.data.gdb gdb)
    (packet : gdb.window 0 gdb.len = r.packet) :
    Calm (c.sent gdb) r.packet (c.data.gdb.transmitted ++ [r.packet]) :=
  ⟨buffer, packet, packet ▸ sends⟩

/-- The exchange of a packet that the client sends. -/
theorem gdbGetAnswer_round (buffer : c.data.buffer = []) (sends : Sends c.data.gdb gdb)
    (packet : gdb.window 0 gdb.len = r.packet) (answered : r.Answered)
    (tokens : c.tokens = scan (r.arrived.flatten ++ rest)) :
    (gdbGetAnswer (c.sent gdb)).2 = .packet ∧
      (gdbGetAnswer (c.sent gdb)).1.tokens = scan rest ∧
      (gdbGetAnswer (c.sent gdb)).1.data.buffer = [] ∧
      (gdbGetAnswer (c.sent gdb)).1.data.gdb.transmitted =
        c.data.gdb.transmitted ++ r.written := by
  obtain ⟨answer, given, plain⟩ := answered
  obtain ⟨c1, calm, same⟩ := (calm_sent buffer sends packet).copies r.damage.copies.length
    (r.damage.answers.map (fun text => ⟨.packet, text⟩) ++ (⟨.packet, frame answer⟩ :: scan rest))
  obtain ⟨c2, ends, tokens2, buffer2, transmitted⟩ :=
    calm.answers r.damage.answers_damaged plain (scan rest)
  have arrived : scan (r.arrived.flatten ++ rest) =
      List.replicate r.damage.copies.length ⟨.retransmission, [0x2d]⟩ ++ (⟨.ack, [0x2b]⟩ ::
        (r.damage.answers.map (fun text => ⟨.packet, text⟩) ++
          (⟨.packet, frame answer⟩ :: scan rest))) := by
    rw [Round.arrived, given]
    dsimp only
    rw [List.flatten_append, List.append_assoc, scan_copies, List.flatten_append, List.append_assoc,
      scan_answers r.damage.answers_damaged, List.flatten_singleton, (frame_token plain rest).1]
  have run : gdbGetAnswer (c.sent gdb) = (c2, .packet) := by
    have all : (c.sent gdb).tokens = c.tokens := rfl
    rw [gdbGetAnswer, all, tokens, arrived, same, ends]
  rw [run]
  refine ⟨rfl, tokens2, buffer2, ?_⟩
  rw [transmitted, Round.written, Round.taken, given, List.replicate_succ]
  simp only [List.append_assoc, List.cons_append, List.nil_append]

/-- The exchange with which the simulator exits. -/
theorem gdbGetAnswer_exit (buffer : c.data.buffer = []) (sends : Sends c.data.gdb gdb)
    (packet : gdb.window 0 gdb.len = r.packet) (exits : r.answer = none)
    (tokens : c.tokens = scan r.arrived.flatten) :
    (gdbGetAnswer (c.sent gdb)).1.data.gdb.transmitted = c.data.gdb.transmitted ++ r.written := by
  obtain ⟨c1, calm, same⟩ := (calm_sent buffer sends packet).copies r.damage.copies.length []
  have arrived : scan r.arrived.flatten =
      List.replicate r.damage.copies.length ⟨.retransmission, [0x2d]⟩ ++ [⟨.ack, [0x2b]⟩] := by
    have all := scan_copies r.damage.copies.length []
    rw [Round.arrived, exits]
    simpa [scan, tokens] using all
  have all : (c.sent gdb).tokens = c.tokens := rfl
  rw [gdbGetAnswer, all, tokens, arrived, same, yylexFrom]
  dsimp only [Client.record]
  rw [handleError_calm calm.buffer, calm.transmitted, Round.written, Round.taken, exits,
    List.replicate_succ]
  simp only [List.append_assoc, List.cons_append, List.nil_append, List.append_nil]

end round

end ArmRunner
