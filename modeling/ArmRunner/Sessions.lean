import ArmRunner.GdbSession
import ArmRunner.Interface

namespace ArmRunner

open CRun Words Lexer Interface

/-- What a program asks of a simulator that it is connected to, before it lets it run. -/
inductive Command
  | writeRegister (num : UInt8) (value : UInt32)
  | writeMemory (address : UInt32) (memory : Nat → UInt8) (size : Nat)
  | step

/-- The commands of a program that goes by the interface: it is through with a simulator when a step
answers that it has exited, and else it ends with `arm_run`. -/
def Interface.commands (host target : Bool) (simulator : Nat) :
    List Command → Interface → Run Interface
  | [], w => w.armRun simulator
  | .writeRegister num value :: cs, w =>
    w.armWriteRegister host target simulator num value >>= commands host target simulator cs
  | .writeMemory address memory size :: cs, w =>
    w.armWriteMemory simulator address memory size >>= commands host target simulator cs
  | .step :: cs, w => do
    let (answer, w) ← w.armStep simulator
    if answer = .eof then .ok w else commands host target simulator cs w

/-- The packets of the command fit in the array for them. -/
def Command.Fits : Command → Prop
  | .writeMemory address memory size => (Request.writeMemory address memory size).Fits
  | _ => True

structure Session where
  attempts : List Attempt
  packet : Nat → UInt8
  commands : List Command
  answers : ∃ stream, .connected stream ∈ attempts
  fits : ∀ command ∈ commands, command.Fits

def Interface.session (host target : Bool) (w : Interface) (s : Session) : Run Interface := do
  let (simulator, w) ← w.armConnect s.attempts s.packet
  w.commands host target simulator s.commands

/-- What comes from the address that is connected. -/
def firstStream : List Attempt → List UInt8
  | [] => []
  | .connected stream :: _ => stream
  | _ :: attempts => firstStream attempts

/-- The same commands, for a client of its own. -/
def Client.commands (host target : Bool) : List Command → Client → Option Client
  | [], c => c.perform host target .cont
  | .writeRegister num value :: cs, c =>
    c.perform host target (.writeRegister num value) >>= commands host target cs
  | .writeMemory address memory size :: cs, c =>
    c.perform host target (.writeMemory address memory size) >>= commands host target cs
  | .step :: cs, c =>
    let (c, answer) := gdbGetAnswer (c.sent (gdbStep c.data.gdb))
    if answer = .eof then some c else commands host target cs c

def sampleRun (host target : Bool) (w : Interface) (attempts : List Attempt)
    (packet : Nat → UInt8) : Run Interface := do
  let address := 0x58
  let size := 16
  let (simulator, w) ← w.armConnect attempts packet
  let w ← w.armWriteMemory simulator address (fun i => (sampleCode host).getD i 0) size
  let w ← w.armWriteRegister host target simulator 15 address
  w.armRun simulator

section session

variable {host target : Bool} {w w' : Interface} {h p s n : Nat} {c : Client}
  {gdb : GdbProtocolData}

/-- The interface goes as one client does: the simulator `h` with the data `p` is the one that the
scanner `s` reads for. -/
structure Attached (w : Interface) (h p s : Nat) (c : Client) : Prop where
  arm : w.arms.Holds h p
  gdb : w.gdbs.Holds p c.data.gdb
  scanner : w.scanner = some s
  tokens : w.scanners.Holds s c.tokens
  dataGdb : w.dataGdb = some p
  buffer : c.data.buffer = w.buffer

theorem Kept.refl (w : Interface) (p s : Nat) : Kept w w p s :=
  ⟨rfl, rfl, rfl, rfl, Arena.Same.refl _ _, Arena.Same.refl _ _⟩

theorem Kept.trans {w2 : Interface} (k : Kept w w' p s) (k' : Kept w' w2 p s) : Kept w w2 p s :=
  ⟨k'.descriptors.trans k.descriptors, k'.arms.trans k.arms, k'.scanner.trans k.scanner,
    k'.dataGdb.trans k.dataGdb, k.gdbs.trans k'.gdbs, k.scanners.trans k'.scanners⟩

theorem Attached.exchange (a : Attached w h p s c)
    {send : GdbProtocolData → Option GdbProtocolData} (sends : send c.data.gdb = some gdb) :
    ∃ w', w.exchange p send = .ok ((gdbGetAnswer (c.sent gdb)).2, w') ∧ Kept w w' p s ∧
      Attached w' h p s (gdbGetAnswer (c.sent gdb)).1 := by
  have same : (c.sent gdb).data = ⟨gdb, w.buffer⟩ := by
    rw [← a.buffer]
    rfl
  obtain ⟨w', run, kept, tokens, held, buffer⟩ :=
    exchange_same a.scanner a.tokens a.dataGdb a.gdb sends same
  exact ⟨w', run, kept, kept.arms.symm ▸ a.arm, held, kept.scanner.trans a.scanner, tokens,
    kept.dataGdb.trans a.dataGdb, buffer.symm⟩

theorem Attached.memoryLoop {memory : Nat → UInt8} {m : ArmMemoryState} {t : MemoryState}
    (a : Attached m.interface h p s t.client) (address : m.address = t.address)
    (src : m.srcBuffer = t.srcBuffer) (size : m.size = t.size) (enough : t.size ≤ n) :
    ∃ t' m', whileLoop (fun t => 0 < t.size) (memoryTurn memory) (n + 1) t = some t' ∧
      armMemoryLoop memory p n m = .ok m' ∧ Kept m.interface m'.interface p s ∧
      Attached m'.interface h p s t'.client := by
  induction n generalizing m t with
  | zero =>
    refine ⟨t, m, ?_, rfl, Kept.refl _ p s, a⟩
    rw [whileLoop, if_neg (by simp; omega)]
  | succ n ih =>
    by_cases more : 0 < t.size
    · obtain ⟨c, chunk, -, smaller⟩ := @writeChunk_sends memory
        ⟨t.client.data.gdb, t.address, t.srcBuffer, t.size⟩ more
      obtain ⟨w', run, kept, attached⟩ :=
        @Attached.exchange m.interface h p s t.client c.gdb a (fun _ => some c.gdb) rfl
      have turn : armMemoryTurn memory p m = .ok ⟨w', c.address, c.srcBuffer, c.size⟩ := by
        rw [armMemoryTurn, Arena.load_eq_ok.mpr a.gdb, ok_bind, address, src, size, chunk]
        dsimp only
        rw [run, ok_bind]
      have turn' : memoryTurn memory t = some
          ⟨(gdbGetAnswer (t.client.sent c.gdb)).1, c.address, c.srcBuffer, c.size⟩ := by
        rw [memoryTurn, chunk]
        rfl
      obtain ⟨t', m', rest, rest', kept', attached'⟩ := @ih ⟨w', c.address, c.srcBuffer, c.size⟩
        ⟨(gdbGetAnswer (t.client.sent c.gdb)).1, c.address, c.srcBuffer, c.size⟩ attached rfl rfl rfl
        (by simp only at smaller ⊢; omega)
      refine ⟨t', m', ?_, ?_, kept.trans kept', attached'⟩
      · rw [whileLoop, if_pos (decide_eq_true more), turn']
        exact rest
      · rw [armMemoryLoop, size, if_pos more, turn, ok_bind, rest']
    · refine ⟨t, m, ?_, ?_, Kept.refl _ p s, a⟩
      · rw [whileLoop, if_neg (by simpa using more)]
      · rw [armMemoryLoop, size, if_neg more]

/-- What is left of a simulator: its blocks are freed, and all others are as before. -/
structure Finished (w w' : Interface) (h p s : Nat) (c : Client) : Prop where
  descriptors : w'.descriptors = w.descriptors
  arms : w.arms.Same w'.arms h
  arm : ∃ x, w'.arms.cells[h]? = some ⟨x, false⟩
  gdbs : w.gdbs.Same w'.gdbs p
  gdb : w'.gdbs.cells[p]? = some ⟨c.data.gdb, false⟩
  scanners : w.scanners.Same w'.scanners s
  scanner : ∃ tokens, w'.scanners.cells[s]? = some ⟨tokens, false⟩

theorem Finished.after {w2 : Interface} (f : Finished w' w2 h p s c) (k : Kept w w' p s) :
    Finished w w2 h p s c :=
  ⟨f.descriptors.trans k.descriptors, k.arms ▸ f.arms, f.arm, k.gdbs.trans f.gdbs, f.gdb,
    k.scanners.trans f.scanners, f.scanner⟩

theorem Attached.cleanup (a : Attached w h p s c) :
    ∃ w', w.cleanup h = .ok w' ∧ Finished w w' h p s c := by
  obtain ⟨scanners, freed, gone, same⟩ := a.tokens.free
  obtain ⟨gdbs, freedGdb, goneGdb, sameGdb⟩ := a.gdb.free
  obtain ⟨arms, freedArm, goneArm, sameArm⟩ := a.arm.free
  refine ⟨{ w with scanners := scanners, gdbs := gdbs, arms := arms }, ?_,
    ⟨rfl, sameArm, ⟨p, goneArm⟩, sameGdb, goneGdb, same, ⟨c.tokens, gone⟩⟩⟩
  rw [Interface.cleanup, Arena.load_eq_ok.mpr a.arm, ok_bind, a.scanner, pointer, ok_bind, freed,
    ok_bind, freedGdb, ok_bind, freedArm, ok_bind]

/-- A command that both go through, with what they do afterwards. -/
theorem Finished.bind {f : Run Interface} {g : Interface → Run Interface} {f' : Option Client}
    {g' : Client → Option Client}
    (first : ∃ c' w', f' = some c' ∧ f = .ok w' ∧ Kept w w' p s ∧ Attached w' h p s c')
    (rest : ∀ c' w', Attached w' h p s c' →
      ∃ c2 w2, g' c' = some c2 ∧ g w' = .ok w2 ∧ Finished w' w2 h p s c2) :
    ∃ c2 w2, (f' >>= g') = some c2 ∧ (f >>= g) = .ok w2 ∧ Finished w w2 h p s c2 := by
  obtain ⟨c', w', run', run, kept, attached⟩ := first
  obtain ⟨c2, w2, behind', behind, finished⟩ := rest c' w' attached
  exact ⟨c2, w2, by rw [run']; exact behind', by rw [run, ok_bind, behind], finished.after kept⟩

/-- The commands do for the simulator what they do for a client of its own. -/
theorem Attached.commands (host target : Bool) (a : Attached w h p s c) (cs : List Command) :
    ∃ c' w', c.commands host target cs = some c' ∧ w.commands host target h cs = .ok w' ∧
      Finished w w' h p s c' := by
  induction cs generalizing w c with
  | nil =>
    obtain ⟨w1, run, kept, attached⟩ :=
      @Attached.exchange w h p s c (gdbCont c.data.gdb) a (fun data => some (gdbCont data)) rfl
    obtain ⟨w2, cleaned, finished⟩ := attached.cleanup
    refine ⟨_, w2, rfl, ?_, finished.after kept⟩
    rw [Interface.commands, armRun, Arena.load_eq_ok.mpr a.arm, ok_bind, run]
    exact cleaned
  | cons command cs ih =>
    cases command with
    | writeRegister num value =>
      refine Finished.bind ?_ fun c' w' attached => ih attached
      obtain ⟨gdb, sends, -⟩ := gdbWriteRegister_sends host target c.data.gdb num value
      obtain ⟨w1, run, kept, attached⟩ := @Attached.exchange w h p s c gdb a
        (fun data => gdbWriteRegister host target data num value) sends
      refine ⟨_, w1, by rw [Client.perform, sends]; rfl, ?_, kept, attached⟩
      rw [armWriteRegister, Arena.load_eq_ok.mpr a.arm, ok_bind, run]
      rfl
    | writeMemory address memory size =>
      refine Finished.bind ?_ fun c' w' attached => ih attached
      obtain ⟨t, m, loop', loop, kept, attached⟩ :=
        @Attached.memoryLoop h p s size memory ⟨w, address, 0, size⟩ ⟨c, address, 0, size⟩ a
          rfl rfl rfl (Nat.le_refl size)
      refine ⟨t.client, m.interface, by rw [Client.perform, loop']; rfl, ?_, kept, attached⟩
      rw [armWriteMemory, Arena.load_eq_ok.mpr a.arm, ok_bind, loop]
      rfl
    | step =>
      obtain ⟨w1, run, kept, attached⟩ :=
        @Attached.exchange w h p s c (gdbStep c.data.gdb) a (fun data => some (gdbStep data)) rfl
      have step : w.armStep h = if (gdbGetAnswer (c.sent (gdbStep c.data.gdb))).2 = .eof then do
          let w ← w1.cleanup h
          .ok ((gdbGetAnswer (c.sent (gdbStep c.data.gdb))).2, w)
        else .ok ((gdbGetAnswer (c.sent (gdbStep c.data.gdb))).2, w1) := by
        rw [armStep, Arena.load_eq_ok.mpr a.arm, ok_bind, run]
        rfl
      rw [Client.commands, Interface.commands, step]
      split_ifs with exited
      · obtain ⟨w2, cleaned, finished⟩ := attached.cleanup
        refine ⟨_, w2, if_pos exited, ?_, finished.after kept⟩
        rw [cleaned]
        simp [exited]
      · obtain ⟨c', w', rest', rest, finished⟩ := ih attached
        refine ⟨c', w', (if_neg exited).trans rest', ?_, finished.after kept⟩
        rw [ok_bind]
        simp only [exited, if_false]
        exact rest

/-- One more simulator has come and gone. Its descriptor stays open. -/
structure Grown (w w' : Interface) (c : Client) : Prop where
  descriptors : w'.descriptors.count true = w.descriptors.count true + 1
  arms : ∃ x, w'.arms.cells = w.arms.cells ++ [⟨x, false⟩]
  gdbs : w'.gdbs.cells = w.gdbs.cells ++ [⟨c.data.gdb, false⟩]
  scanners : ∃ tokens, w'.scanners.cells = w.scanners.cells ++ [⟨tokens, false⟩]

theorem connectLoop_spec {attempts : List Attempt} (descriptors : List Bool)
    (answers : ∃ stream, .connected stream ∈ attempts) : ∃ descriptors',
      connectLoop attempts descriptors = .ok (firstStream attempts, descriptors') ∧
      descriptors'.count true = descriptors.count true + 1 := by
  induction attempts generalizing descriptors with
  | nil => simp at answers
  | cons attempt attempts ih =>
    cases attempt with
    | noSocket => exact ih descriptors (by simpa using answers)
    | refused =>
      obtain ⟨descriptors', reached, one⟩ := ih (descriptors ++ [false]) (by simpa using answers)
      exact ⟨descriptors', reached, by simpa using one⟩
    | connected stream => exact ⟨descriptors ++ [true], rfl, by simp⟩

theorem armConnect_attached {attempts : List Attempt} (packet : Nat → UInt8) (w : Interface)
    (answers : ∃ stream, .connected stream ∈ attempts) : ∃ w1,
      w.armConnect attempts packet = .ok (w.arms.cells.length, w1) ∧
      Attached w1 w.arms.cells.length w.gdbs.cells.length w.scanners.cells.length
        (Client.start packet (firstStream attempts)) ∧
      ∀ w' c, Finished w1 w' w.arms.cells.length w.gdbs.cells.length w.scanners.cells.length c →
        Grown w w' c := by
  obtain ⟨descriptors, reached, one⟩ := connectLoop_spec w.descriptors answers
  refine ⟨_, by rw [armConnect, reached]; rfl, ⟨?_, ?_, rfl, ?_, rfl, rfl⟩, ?_⟩
  · exact Arena.malloc_holds w.arms w.gdbs.cells.length
  · exact Arena.malloc_holds w.gdbs ⟨packet, 0, [], []⟩
  · exact Arena.malloc_holds w.scanners (scan (firstStream attempts))
  · intro w' c f
    obtain ⟨x, arm⟩ := f.arm
    obtain ⟨tokens, scanner⟩ := f.scanner
    exact ⟨by rw [f.descriptors]; exact one, ⟨x, f.arms.malloc arm⟩, f.gdbs.malloc f.gdb,
      ⟨tokens, f.scanners.malloc scanner⟩⟩

theorem session_spec (host target : Bool) (w : Interface) (s : Session) : ∃ c w',
    (Client.start s.packet (firstStream s.attempts)).commands host target s.commands = some c ∧
    w.session host target s = .ok w' ∧ Grown w w' c := by
  obtain ⟨w1, connected, attached, grown⟩ := armConnect_attached s.packet w s.answers
  obtain ⟨c, w', run', run, finished⟩ := attached.commands host target s.commands
  exact ⟨c, w', run', by rw [Interface.session, connected]; exact run, grown w' c finished⟩

/-- Programs that are through with a simulator before they connect another one never fault: in each
session the simulator is sent what a client of its own sends, and in the end every block is freed,
while every descriptor is still open. -/
theorem sessions_separate (host target : Bool) (sessions : List Session) : ∃ w,
    sessions.foldlM (Interface.session host target) Interface.start = .ok w ∧
    true ∉ w.arms.lives ∧ true ∉ w.gdbs.lives ∧ true ∉ w.scanners.lives ∧
    w.descriptors.count true = sessions.length ∧
    List.Forall₂ (fun (s : Session) (block : Cell GdbProtocolData) => ∃ c,
      (Client.start s.packet (firstStream s.attempts)).commands host target s.commands = some c ∧
      block.value = c.data.gdb) sessions w.gdbs.cells := by
  induction sessions using List.reverseRecOn with
  | nil => exact ⟨.start, rfl, by simp [Interface.start, Arena.empty, Arena.lives]⟩
  | append_singleton sessions s ih =>
    obtain ⟨w, run, arms, gdbs, scanners, descriptors, each⟩ := ih
    obtain ⟨c, w', run', last, grown⟩ := session_spec host target w s
    obtain ⟨x, arms'⟩ := grown.arms
    obtain ⟨tokens, scanners'⟩ := grown.scanners
    refine ⟨w', ?_, ?_, ?_, ?_, ?_, ?_⟩
    · rw [List.foldlM_append, run, ok_bind, List.foldlM_cons, last]
      rfl
    · simpa [Arena.lives, arms'] using arms
    · simpa [Arena.lives, grown.gdbs] using gdbs
    · simpa [Arena.lives, scanners'] using scanners
    · rw [grown.descriptors, descriptors, List.length_append, List.length_singleton]
    · rw [grown.gdbs]
      exact List.rel_append each (.cons ⟨c, run', rfl⟩ .nil)

theorem firstStream_refused (k : Nat) (stream : List UInt8) :
    firstStream (List.replicate k .refused ++ [.connected stream]) = stream := by
  induction k with
  | zero => rfl
  | succ k ih => exact ih

/-- The sample program, however many addresses refuse at first and whatever the link damages: a
simulator that goes by the protocol ends as if it had stored the code at its address, set the
program counter to it and run. -/
theorem sampleRun_executes {σ : Type} (sim : Simulator σ) (host target : Bool)
    (serves : sim.Serves target) (packet : Nat → UInt8) (w : Interface) (damage : Nat → Damage)
    (refused : Nat) (s : σ) : ∃ parts rounds w' c,
      List.Forall₂ (Request.Payloads target) (withRun (sampleRequests host)) parts ∧
      Carries sim s damage parts.flatten rounds ∧
      sampleRun host target w (List.replicate refused .refused ++
        [.connected (rounds.flatMap Round.arrived).flatten]) packet = .ok w' ∧
      Grown w w' c ∧ c.data.gdb.transmitted = rounds.flatMap Round.written ∧
      sim.target (sim.hearAll s (rounds.flatMap Round.heard)) =
        sim.cont (((sim.target s).store 0x58 (sampleCode host)).setRegister 15 0x58) := by
  obtain ⟨parts, rounds, sent, carries, ends, each⟩ :=
    serves.session host (sampleRequests host) damage s
  set stream := (rounds.flatMap Round.arrived).flatten with hstream
  obtain ⟨c, run, transmitted⟩ := each (Client.start packet stream) rfl rfl
  obtain ⟨w1, connected, attached, grown⟩ := armConnect_attached packet w
    (show ∃ s, Attempt.connected s ∈ List.replicate refused .refused ++ [.connected stream] from
      ⟨stream, by simp⟩)
  rw [firstStream_refused refused stream] at attached
  obtain ⟨c', w', run', sample, finished⟩ := attached.commands host target
    [.writeMemory 0x58 (fun i => (sampleCode host).getD i 0) 16, .writeRegister 15 0x58]
  obtain rfl : c = c' := Option.some.inj (run.symm.trans (Eq.trans (by
    simp [withRun, sampleRequests, Client.commands]) run'))
  have code : (List.range 16).map (fun i => (sampleCode host).getD i 0) = sampleCode host := by
    cases host <;> rfl
  refine ⟨parts, rounds, w', c, sent, carries, ?_, grown w' c finished, transmitted, ?_⟩
  · rw [sampleRun, connected]
    exact sample
  · rw [ends]
    simp only [withRun, sampleRequests, List.map_cons, List.map_nil, List.cons_append,
      List.nil_append, List.foldl_cons, List.foldl_nil, Simulator.apply, code]

theorem sampleRun_executes_remote : ∃ parts rounds w' c,
    List.Forall₂ (Request.Payloads true) (withRun (sampleRequests false)) parts ∧
    Carries (remoteSimulator true sampleLoop id) ⟨zeroTarget, []⟩ (fun _ => sampleDamage)
      parts.flatten rounds ∧
    sampleRun false true .start (List.replicate 1 .refused ++
      [.connected (rounds.flatMap Round.arrived).flatten]) (fun _ => 0) = .ok w' ∧
    Grown .start w' c ∧ c.data.gdb.transmitted = rounds.flatMap Round.written ∧
    (remoteSimulator true sampleLoop id).target ((remoteSimulator true sampleLoop id).hearAll
      ⟨zeroTarget, []⟩ (rounds.flatMap Round.heard)) =
        sampleLoop ((zeroTarget.store 0x58 (sampleCode false)).setRegister 15 0x58) :=
  sampleRun_executes (remoteSimulator true sampleLoop id) false true
    (remoteSimulator_serves true sampleLoop id) (fun _ => 0) .start (fun _ => sampleDamage) 1
    ⟨zeroTarget, []⟩

end session

end ArmRunner
