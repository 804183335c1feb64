import ArmRunner.GdbExchanges

namespace ArmRunner

open Wire Words Lexer

section simulator

variable {σ : Type} {sim : Simulator σ} {target : Bool} {s s' : σ} {payload : List UInt8}
  {payloads : List (List UInt8)}

/-- Texts that leave the simulator as it is. -/
def Quiet (text : List UInt8) : Prop := text = [0x2b] ∨ text = [0x2d] ∨ WrongSum text

/-- The simulator hears the payloads in their turn, and else nothing that changes what it holds. -/
def Simulator.Heard (sim : Simulator σ) : σ → List (List UInt8) → σ → Prop
  | s, [], s' => sim.target s' = sim.target s
  | s, payload :: payloads, s' =>
    ∃ s1, sim.target s1 = sim.target s ∧ sim.Heard (sim.hear s1 (frame payload)) payloads s'

theorem tellsAll_append (xs ys : List (List UInt8)) (s : σ) :
    sim.tellsAll s (xs ++ ys) = sim.tellsAll s xs ++ sim.tellsAll (sim.hearAll s xs) ys := by
  induction xs generalizing s with
  | nil => rfl
  | cons x xs ih =>
    rw [List.cons_append, Simulator.tellsAll, ih, Simulator.tellsAll, List.append_assoc]
    rfl

theorem hearAll_append (xs ys : List (List UInt8)) (s : σ) :
    sim.hearAll s (xs ++ ys) = sim.hearAll (sim.hearAll s xs) ys :=
  List.foldl_append

theorem Simulator.Serves.rests_all (serves : sim.Serves target) {texts : List (List UInt8)}
    (quiet : ∀ text ∈ texts, Quiet text) (s : σ) :
    sim.target (sim.hearAll s texts) = sim.target s ∧
      sim.answer (sim.hearAll s texts) = sim.answer s := by
  induction texts generalizing s with
  | nil => exact ⟨rfl, rfl⟩
  | cons text texts ih =>
    obtain ⟨target, answer⟩ := serves.rests s text (quiet text (by simp))
    obtain ⟨target', answer'⟩ := ih (fun text' there => quiet text' (by simp [there]))
      (sim.hear s text)
    exact ⟨target'.trans target, answer'.trans answer⟩

theorem Simulator.Serves.tells_all (serves : sim.Serves target) {texts said : List (List UInt8)}
    {answer : List UInt8} (quiet : ∀ text ∈ texts, Quiet text)
    (tells : ∀ s, sim.answer s = answer → ∀ text ∈ texts, sim.tells s text = said)
    (last : sim.answer s = answer) :
    sim.tellsAll s texts = (List.replicate texts.length said).flatten := by
  induction texts generalizing s with
  | nil => rfl
  | cons text texts ih =>
    have rest := (serves.rests s text (quiet text (by simp))).2
    rw [Simulator.tellsAll, tells s last text (by simp),
      ih (fun text' there => quiet text' (by simp [there]))
        (fun s last text' there => tells s last text' (by simp [there])) (rest.trans last)]
    rfl

theorem Simulator.Serves.copies (serves : sim.Serves target) (d : Damage) (s : σ) :
    sim.tellsAll s d.copies = List.replicate d.copies.length [0x2d] ∧
      sim.target (sim.hearAll s d.copies) = sim.target s := by
  have quiet (text : List UInt8) (there : text ∈ d.copies) : Quiet text :=
    Or.inr (Or.inr (d.copies_damaged text there))
  refine ⟨?_, (serves.rests_all quiet s).1⟩
  have refuses (s' : σ) (_ : sim.answer s' = sim.answer s) (text : List UInt8)
      (there : text ∈ d.copies) : sim.tells s' text = [[0x2d]] :=
    serves.refuses s' text (d.copies_damaged text there)
  have all := serves.tells_all quiet refuses rfl
  rwa [List.flatten_replicate_singleton] at all

/-- An exchange that the simulator answers. -/
theorem Simulator.Serves.answered (serves : sim.Serves target) {d : Damage} {answer : List UInt8}
    (whole : sim.tells (sim.hearAll s d.copies) (frame payload) = [[0x2b], frame answer])
    (last : sim.answer (sim.hear (sim.hearAll s d.copies) (frame payload)) = answer) :
    sim.tellsAll s (Round.heard ⟨payload, some answer, d⟩) =
        Round.said ⟨payload, some answer, d⟩ ∧
      sim.target (sim.hearAll s (Round.heard ⟨payload, some answer, d⟩)) =
        sim.target (sim.hear (sim.hearAll s d.copies) (frame payload)) := by
  have quiet (text : List UInt8)
      (there : text ∈ List.replicate d.answers.length ([0x2d] : List UInt8)) : Quiet text :=
    Or.inr (Or.inl (List.eq_of_mem_replicate there))
  have again : sim.tellsAll (sim.hear (sim.hearAll s d.copies) (frame payload))
      (List.replicate d.answers.length [0x2d]) =
      List.replicate d.answers.length (frame answer) := by
    have repeats (s' : σ) (here : sim.answer s' = answer) (text : List UInt8)
        (there : text ∈ List.replicate d.answers.length ([0x2d] : List UInt8)) :
        sim.tells s' text = [frame answer] := by
      rw [List.eq_of_mem_replicate there, serves.again, here]
    have all := serves.tells_all quiet repeats last
    rwa [List.length_replicate, List.flatten_replicate_singleton] at all
  obtain ⟨copies, -⟩ := serves.copies d s
  set s2 := sim.hear (sim.hearAll s d.copies) (frame payload) with hs2
  have one : sim.hearAll (sim.hearAll s d.copies) [frame payload] = s2 := rfl
  obtain ⟨rests, -⟩ := serves.rests_all quiet s2
  constructor
  · rw [Round.heard, Round.said, Round.taken]
    dsimp only
    rw [tellsAll_append, tellsAll_append, hearAll_append, Round.packet, one, tellsAll_append, again,
      copies]
    simp only [Simulator.tellsAll, whole, serves.quiet, List.append_nil, List.append_assoc,
      List.replicate_succ, List.cons_append, List.nil_append]
  · rw [Round.heard, Round.taken]
    dsimp only
    rw [hearAll_append, hearAll_append, hearAll_append, Round.packet, one]
    exact (serves.rests _ [0x2b] (Or.inl rfl)).1.trans rests

/-- An exchange with which the simulator exits. -/
theorem Simulator.Serves.exits (serves : sim.Serves target) {d : Damage}
    (whole : sim.tells (sim.hearAll s d.copies) (frame payload) = [[0x2b]]) :
    sim.tellsAll s (Round.heard ⟨payload, none, d⟩) = Round.said ⟨payload, none, d⟩ ∧
      sim.target (sim.hearAll s (Round.heard ⟨payload, none, d⟩)) =
        sim.target (sim.hear (sim.hearAll s d.copies) (frame payload)) := by
  obtain ⟨copies, -⟩ := serves.copies d s
  constructor
  · rw [Round.heard, Round.said, Round.taken]
    dsimp only
    rw [List.append_nil, List.append_nil, tellsAll_append, copies, Round.packet]
    simp only [Simulator.tellsAll, whole, List.append_nil]
  · rw [Round.heard, Round.taken]
    dsimp only
    rw [List.append_nil, hearAll_append]
    rfl

theorem carries_nil (sim : Simulator σ) (s : σ) (damage : Nat → Damage) :
    Carries sim s damage [] [] :=
  ⟨rfl, rfl, rfl⟩

theorem Carries.concat {damage : Nat → Damage} {rounds : List Round} {r : Round}
    (h : Carries sim s damage payloads rounds) (same : r.payload = payload)
    (damaged : r.damage = damage rounds.length)
    (said : sim.tellsAll (sim.hearAll s (rounds.flatMap Round.heard)) r.heard = r.said) :
    Carries sim s damage (payloads ++ [payload]) (rounds ++ [r]) := by
  refine ⟨?_, ?_, ?_⟩
  · rw [List.map_append, h.payloads, List.map_singleton, same]
  · rw [List.map_append, h.damage, List.map_singleton, damaged, List.length_append,
      List.length_singleton, List.range_succ, List.map_append, List.map_singleton]
  · rw [List.flatMap_append, List.flatMap_append, tellsAll_append, h.said, List.flatMap_singleton,
      List.flatMap_singleton, said]

theorem Heard.concat (heard : sim.Heard s payloads s') {s1 : σ}
    (rests : sim.target s1 = sim.target s') {s2 : σ}
    (last : sim.target s2 = sim.target (sim.hear s1 (frame payload))) :
    sim.Heard s (payloads ++ [payload]) s2 := by
  induction payloads generalizing s with
  | nil => exact ⟨s1, rests.trans heard, last⟩
  | cons first payloads ih =>
    obtain ⟨s0, same, heard⟩ := heard
    exact ⟨s0, same, ih heard⟩

theorem Heard.split {more : List (List UInt8)} (heard : sim.Heard s (payloads ++ more) s') :
    ∃ s1, sim.Heard s payloads s1 ∧ sim.Heard s1 more s' := by
  induction payloads generalizing s with
  | nil => exact ⟨s, rfl, heard⟩
  | cons first payloads ih =>
    obtain ⟨s0, same, heard⟩ := heard
    obtain ⟨s1, before, behind⟩ := ih heard
    exact ⟨s1, ⟨s0, same, before⟩, behind⟩

theorem Simulator.Serves.rounds (serves : sim.Serves target)
    (short : ∀ p ∈ payloads, ShortPayload p ∧ p ≠ [0x63]) (damage : Nat → Damage) (s : σ) :
    ∃ rounds, Carries sim s damage payloads rounds ∧ (∀ r ∈ rounds, r.Answered) ∧
      sim.Heard s payloads (sim.hearAll s (rounds.flatMap Round.heard)) := by
  induction payloads using List.reverseRecOn with
  | nil => exact ⟨[], carries_nil sim s damage, by simp, rfl⟩
  | append_singleton payloads payload ih =>
    obtain ⟨rounds, carries, answered, heard⟩ := ih fun p hp => short p (by simp [hp])
    obtain ⟨fits, other⟩ := short payload (by simp)
    set s1 := sim.hearAll s (rounds.flatMap Round.heard) with hs1
    set d := damage rounds.length with hd
    have whole := serves.answers (sim.hearAll s1 d.copies) payload fits other
    have plain := serves.plain (sim.hearAll s1 d.copies) payload fits
    obtain ⟨said, last⟩ := serves.answered whole rfl
    refine ⟨rounds ++ [⟨payload, some _, d⟩], carries.concat rfl hd said, ?_, ?_⟩
    · intro r hr
      rcases List.mem_append.mp hr with hr | hr
      · exact answered r hr
      · rw [List.mem_singleton.mp hr]
        exact ⟨_, rfl, plain⟩
    · rw [List.flatMap_append, hearAll_append, List.flatMap_singleton]
      exact Heard.concat heard (serves.copies d s1).2 last

theorem Simulator.Serves.run (serves : sim.Serves target) (d : Damage) (s : σ) :
    ∃ r : Round, r.payload = [0x63] ∧ r.damage = d ∧ (r.Answered ∨ r.answer = none) ∧
      sim.tellsAll s r.heard = r.said ∧
      sim.target (sim.hearAll s r.heard) = sim.cont (sim.target s) := by
  obtain ⟨-, rests⟩ := serves.copies d s
  have fits : ShortPayload [0x63] := ⟨plain_cont, by decide⟩
  have cont := serves.cont (sim.hearAll s d.copies)
  rw [rests] at cont
  rcases serves.runs (sim.hearAll s d.copies) with whole | whole
  · obtain ⟨said, last⟩ := serves.answered whole rfl
    exact ⟨⟨[0x63], some _, d⟩, rfl, rfl, Or.inl ⟨_, rfl, serves.plain _ _ fits⟩, said,
      last.trans cont⟩
  · obtain ⟨said, last⟩ := serves.exits whole
    exact ⟨⟨[0x63], none, d⟩, rfl, rfl, Or.inr rfl, said, last.trans cont⟩

theorem Simulator.Serves.heard_writes (serves : sim.Serves target) {writes : List MemoryWrite}
    (short : ∀ w ∈ writes, (escaped w.data).length ≤ 1000)
    (heard : sim.Heard s (writes.map MemoryWrite.payload) s') :
    sim.target s' = writes.foldl (fun t w => t.store w.address w.data) (sim.target s) := by
  induction writes generalizing s with
  | nil => exact heard
  | cons w writes ih =>
    obtain ⟨s1, same, heard⟩ := heard
    rw [ih (fun v hv => short v (by simp [hv])) heard, serves.memory s1 w (short w (by simp)), same]
    rfl

/-- What the packets of a request make of the simulator is what the request is to do. -/
theorem Simulator.Serves.heard_request (serves : sim.Serves target) {r : Request}
    (served : r.Served) (sent : r.Payloads target payloads) (heard : sim.Heard s payloads s') :
    sim.target s' = sim.apply (sim.target s) r := by
  cases r with
  | writeRegister num value =>
    obtain rfl : payloads = [registerPayload target num value] := sent
    obtain ⟨s1, same, last⟩ := heard
    rw [show sim.target s' = _ from last, serves.register s1 num served value, same]
    rfl
  | writeMemory address memory size =>
    obtain ⟨writes, chunks, rfl⟩ := sent
    rw [serves.heard_writes (fun w hw => escaped_le_of_fits served chunks hw) heard,
      stores_writes chunks]
    rfl
  | cont => exact served.elim
  | step =>
    obtain rfl : payloads = [[0x73]] := sent
    obtain ⟨s1, same, last⟩ := heard
    rw [show sim.target s' = _ from last, serves.step, same]
    rfl

theorem Simulator.Serves.heard_requests (serves : sim.Serves target) {requests : List Request}
    {parts : List (List (List UInt8))} (served : ∀ r ∈ requests, r.Served)
    (sent : List.Forall₂ (Request.Payloads target) requests parts)
    (heard : sim.Heard s parts.flatten s') :
    sim.target s' = requests.foldl sim.apply (sim.target s) := by
  induction sent generalizing s with
  | nil => exact heard
  | cons first rest ih =>
    rw [List.flatten_cons] at heard
    obtain ⟨s1, before, behind⟩ := Heard.split heard
    rw [ih (fun r hr => served r (by simp [hr])) behind,
      serves.heard_request (served _ (by simp)) first before]
    rfl

theorem short_of_served {requests : List Request} {parts : List (List (List UInt8))}
    (served : ∀ r ∈ requests, r.Served)
    (sent : List.Forall₂ (Request.Payloads target) requests parts) :
    ∀ p ∈ parts.flatten, ShortPayload p ∧ p ≠ [0x63] := by
  induction sent with
  | nil => simp
  | cons first rest ih =>
    intro p hp
    rw [List.flatten_cons] at hp
    rcases List.mem_append.mp hp with hp | hp
    · exact (served _ (by simp)).short first p hp
    · exact ih (fun r hr => served r (by simp [hr])) p hp

end simulator

/-- The requests of a session, which ends with a run. -/
def withRun (requests : List { r : Request // r.Served }) : List Request :=
  requests.map Subtype.val ++ [.cont]

/-- A session of any client over the link. -/
theorem Simulator.Serves.session {σ : Type} {sim : Simulator σ} {target : Bool}
    (serves : sim.Serves target) (host : Bool) (requests : List { r : Request // r.Served })
    (damage : Nat → Damage) (s : σ) : ∃ parts rounds,
      List.Forall₂ (Request.Payloads target) (withRun requests) parts ∧
      Carries sim s damage parts.flatten rounds ∧
      sim.target (sim.hearAll s (rounds.flatMap Round.heard)) =
        (withRun requests).foldl sim.apply (sim.target s) ∧
      ∀ c : Client, c.data.buffer = [] → c.tokens = scan (rounds.flatMap Round.arrived).flatten →
        ∃ c', (withRun requests).foldlM (Client.perform host target) c = some c' ∧
          c'.data.gdb.transmitted = c.data.gdb.transmitted ++ rounds.flatMap Round.written := by
  have served : ∀ r ∈ requests.map Subtype.val, r.Served := by
    intro r hr
    obtain ⟨r, -, rfl⟩ := List.mem_map.mp hr
    exact r.2
  obtain ⟨parts, exchanges, sent⟩ := exchanges_requests host target (requests.map Subtype.val)
  obtain ⟨rounds, carries, answered, heard⟩ :=
    serves.rounds (short_of_served served sent) damage s
  obtain ⟨r, cont, damaged, ends, said, last⟩ :=
    serves.run (damage rounds.length) (sim.hearAll s (rounds.flatMap Round.heard))
  refine ⟨parts ++ [[[0x63]]], rounds ++ [r], List.rel_append sent (.cons rfl .nil), ?_, ?_, ?_⟩
  · rw [List.flatten_append]
    exact carries.concat cont damaged said
  · rw [List.flatMap_append, hearAll_append, List.flatMap_singleton, last,
      serves.heard_requests served sent heard, withRun, List.foldl_append]
    rfl
  · intro c buffer tokens
    rw [List.flatMap_append, List.flatten_append, List.flatMap_singleton] at tokens
    obtain ⟨c1, run1, buffer1, tokens1, transmitted1⟩ :=
      exchanges c rounds r.arrived.flatten buffer carries.payloads answered tokens
    obtain ⟨c2, run2, transmitted2⟩ := perform_cont host target buffer1 cont ends tokens1
    refine ⟨c2, ?_, ?_⟩
    · rw [withRun, List.foldlM_append]
      exact Option.bind_eq_some_iff.mpr ⟨c1, run1, by simpa using run2⟩
    · rw [transmitted2, transmitted1, List.flatMap_append, List.flatMap_singleton,
        List.append_assoc]

section sample

/-- The payload of a packet whose sum is the one it gives. -/
def received (text : List UInt8) : Option (List UInt8) :=
  if scan text = [⟨.packet, text⟩] ∧ (packetSums text).1.toNat = (packetSums text).2 then
    some (text.tail.take (text.length - 4))
  else none

theorem received_frame {payload : List UInt8} (plain : Plain payload) :
    received (frame payload) = some payload := by
  have accepted := frame_accepted plain
  have text : (frame payload).tail.take ((frame payload).length - 4) = payload := by
    have length : (frame payload).length - 4 = payload.length := by simp [frame]
    rw [length]
    exact List.take_left
  rw [received, if_pos ⟨accepted.token, accepted.sums⟩, text]

/-- What a simulator keeps. -/
structure Remote where
  target : Target
  answer : List UInt8

/-- The simulator receives a payload: it stores, or runs, and answers `OK`, or `S05` to a step. -/
def Remote.receive (target : Bool) (cont step : Target → Target) (r : Remote)
    (payload : List UInt8) : Remote :=
  if payload = [0x63] then ⟨cont r.target, [0x4f, 0x4b]⟩
  else if payload = [0x73] then ⟨step r.target, [0x53, 0x30, 0x35]⟩
  else
    match decodePayload payload, decodeRegister target payload with
    | some w, _ => ⟨r.target.store w.address w.data, [0x4f, 0x4b]⟩
    | none, some (num, value) => ⟨r.target.setRegister num value, [0x4f, 0x4b]⟩
    | none, none => ⟨r.target, [0x4f, 0x4b]⟩

/-- A simulator that exits with the run. -/
def remoteSimulator (target : Bool) (cont step : Target → Target) : Simulator Remote where
  hear r text :=
    match received text with
    | some payload => r.receive target cont step payload
    | none => r
  tells r text :=
    if text = [0x2b] then []
    else if text = [0x2d] then [frame r.answer]
    else
      match received text with
      | some payload =>
        if payload = [0x63] then [[0x2b]]
        else [[0x2b], frame (r.receive target cont step payload).answer]
      | none => [[0x2d]]
  target := Remote.target
  answer := Remote.answer
  cont := cont
  step := step

variable {target : Bool} {cont step : Target → Target}

theorem received_wrongSum {text : List UInt8} (h : WrongSum text) : received text = none := by
  obtain ⟨p, h1, h2, -, -, -, rfl, sums⟩ := h
  rw [received, if_neg fun both => sums both.2]

theorem hear_frame (r : Remote) {payload : List UInt8} (plain : Plain payload) :
    (remoteSimulator target cont step).hear r (frame payload) =
      r.receive target cont step payload := by
  simp only [remoteSimulator, received_frame plain]

theorem tells_frame (r : Remote) {payload : List UInt8} (plain : Plain payload) :
    (remoteSimulator target cont step).tells r (frame payload) =
      if payload = [0x63] then [[0x2b]]
      else [[0x2b], frame (r.receive target cont step payload).answer] := by
  have ack : frame payload ≠ [0x2b] := by simp [frame]
  have dash : frame payload ≠ [0x2d] := by simp [frame]
  simp only [remoteSimulator, received_frame plain, if_neg ack, if_neg dash]

theorem plain_ok : Plain [0x4f, 0x4b] :=
  Plain.cons (by decide) (Plain.cons (by decide) plain_nil)

theorem receive_plain (r : Remote) (payload : List UInt8) :
    Plain (r.receive target cont step payload).answer := by
  rw [Remote.receive]
  split_ifs
  · exact plain_ok
  · exact Plain.cons (by decide) (Plain.cons (by decide) (Plain.cons (by decide) plain_nil))
  · split <;> exact plain_ok

theorem remoteSimulator_serves (target : Bool) (cont step : Target → Target) :
    (remoteSimulator target cont step).Serves target := by
  refine ⟨fun _ => rfl, fun _ => rfl, ?_, ?_, ?_, ?_, ?_, ?_, ?_, ?_, ?_⟩
  · intro r text wrong
    have none := received_wrongSum wrong
    obtain ⟨p, h1, h2, -, -, -, rfl, -⟩ := wrong
    have ack : packetText p h1 h2 ≠ [0x2b] := by simp [packetText]
    have dash : packetText p h1 h2 ≠ [0x2d] := by simp [packetText]
    simp only [remoteSimulator, none, if_neg ack, if_neg dash]
  · intro r text quiet
    have none : received text = none := by
      rcases quiet with rfl | rfl | wrong
      · decide
      · decide
      · exact received_wrongSum wrong
    simp only [remoteSimulator, none, and_self]
  · intro r payload short other
    rw [tells_frame r short.1, if_neg other, hear_frame r short.1]
    rfl
  · intro r
    right
    rw [tells_frame r plain_cont, if_pos rfl]
  · intro r payload short
    rw [hear_frame r short.1]
    exact receive_plain r payload
  · intro r num _ value
    have run : registerPayload target num value ≠ [0x63] := by simp [registerPayload]
    have step : registerPayload target num value ≠ [0x73] := by simp [registerPayload]
    have other : decodePayload (registerPayload target num value) = none := by
      simp [decodePayload, registerPayload, expect]
    rw [hear_frame r (plain_registerPayload target num value), Remote.receive, if_neg run,
      if_neg step, other, decodeRegister_registerPayload]
    rfl
  · intro r w short
    have run : w.payload ≠ [0x63] := by simp [MemoryWrite.payload, chunkHeader]
    have step : w.payload ≠ [0x73] := by simp [MemoryWrite.payload, chunkHeader]
    rw [escaped, escape_length] at short
    rw [hear_frame r (plain_memoryWrite w), Remote.receive, if_neg run, if_neg step,
      decodePayload_payload (by omega)]
    rfl
  · intro r
    rw [hear_frame r plain_cont]
    rfl
  · intro r
    rw [hear_frame r plain_step]
    rfl

/-- A packet with the payload `OK` and the sum 00. -/
def wrongText : List UInt8 := packetText [0x4f, 0x4b] 0x30 0x30

theorem wrongText_wrongSum : WrongSum wrongText :=
  ⟨[0x4f, 0x4b], 0x30, 0x30, plain_ok, rfl, rfl, rfl, by decide⟩

/-- A copy and an answer arrive damaged. -/
def sampleDamage : Damage where
  copies := [wrongText]
  answers := [wrongText]
  copies_damaged := by
    intro text there
    rw [List.mem_singleton.mp there]
    exact wrongText_wrongSum
  answers_damaged := by
    intro text there
    rw [List.mem_singleton.mp there]
    exact wrongText_wrongSum

/-- The words of the sample loop as they lie in memory. -/
def sampleCode (host : Bool) : List UInt8 :=
  [0x0500a0e3, 0x010050e2, 0xfdffff1a, 0x563412ef].flatMap
    (if host then beBytes 4 else leBytes 4)

theorem sampleCode_fits (host : Bool) :
    (Request.writeMemory 0x58 (fun i => (sampleCode host).getD i 0) 16).Fits := by
  rw [Request.Fits]
  cases host <;> decide

/-- The sample loop leaves 0 in register 0, and ends before its last word. -/
def sampleLoop (t : Target) : Target := (t.setRegister 0 0).setRegister 15 0x64

/-- The sample loop is stored, and register 15 set to its start. -/
def sampleRequests (host : Bool) : List { r : Request // r.Served } :=
  [⟨.writeMemory 0x58 (fun i => (sampleCode host).getD i 0) 16, sampleCode_fits host⟩,
    ⟨.writeRegister 15 0x58, show (15 : UInt8) < 16 by decide⟩]

def zeroTarget : Target := ⟨fun _ => 0, fun _ => 0⟩

end sample

/-- Whatever copies of the packets and whatever answers the link damages, the requests go through:
each packet is written once and once more for every `-`, and a simulator that goes by the protocol
ends as if each request had been done once, in their order. -/
theorem session_executes {σ : Type} (sim : Simulator σ) (host target : Bool)
    (serves : sim.Serves target) (packet : Nat → UInt8) (requests : List { r : Request // r.Served })
    (damage : Nat → Damage) (s : σ) : ∃ parts rounds c,
      List.Forall₂ (Request.Payloads target) (withRun requests) parts ∧
      Carries sim s damage parts.flatten rounds ∧
      (withRun requests).foldlM (Client.perform host target)
        (Client.start packet (rounds.flatMap Round.arrived).flatten) = some c ∧
      c.data.gdb.transmitted = rounds.flatMap Round.written ∧
      sim.target (sim.hearAll s (rounds.flatMap Round.heard)) =
        (withRun requests).foldl sim.apply (sim.target s) := by
  obtain ⟨parts, rounds, sent, carries, ends, each⟩ := serves.session host requests damage s
  obtain ⟨c, run, transmitted⟩ :=
    each (Client.start packet (rounds.flatMap Round.arrived).flatten) rfl rfl
  exact ⟨parts, rounds, c, sent, carries, run, transmitted, ends⟩

theorem session_executes_sampleRequests : ∃ parts rounds c,
    List.Forall₂ (Request.Payloads true) (withRun (sampleRequests false)) parts ∧
    Carries (remoteSimulator true sampleLoop id) ⟨zeroTarget, []⟩ (fun _ => sampleDamage)
      parts.flatten rounds ∧
    (withRun (sampleRequests false)).foldlM (Client.perform false true)
      (Client.start (fun _ => 0) (rounds.flatMap Round.arrived).flatten) = some c ∧
    c.data.gdb.transmitted = rounds.flatMap Round.written ∧
    (remoteSimulator true sampleLoop id).target ((remoteSimulator true sampleLoop id).hearAll
      ⟨zeroTarget, []⟩ (rounds.flatMap Round.heard)) =
        (withRun (sampleRequests false)).foldl (remoteSimulator true sampleLoop id).apply
          zeroTarget :=
  session_executes (remoteSimulator true sampleLoop id) false true
    (remoteSimulator_serves true sampleLoop id) (fun _ => 0) (sampleRequests false)
    (fun _ => sampleDamage) ⟨zeroTarget, []⟩

end ArmRunner
