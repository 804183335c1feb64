import ArmRunner.Lib.Arena
import ArmRunner.GdbClient

namespace ArmRunner

open CRun Lexer

/-- How it goes with one of the addresses that `Getaddrinfo` finds. -/
inductive Attempt
  | noSocket
  | refused
  | connected (stream : List UInt8)

/-- What the client keeps for its simulators: whether each descriptor is still open, the three kinds
of blocks, and the variables of `scanner.l`, which there are only once. A scanner keeps the tokens
that it has yet to find. -/
structure Interface where
  descriptors : List Bool
  arms : Arena Nat
  gdbs : Arena GdbProtocolData
  scanners : Arena (List ScanToken)
  scanner : Option Nat
  dataGdb : Option Nat
  buffer : List UInt8

namespace Interface

def start : Interface := ⟨[], .empty, .empty, .empty, none, none, []⟩

/-- A pointer that is not NULL. -/
def pointer (p : Option Nat) : Run Nat :=
  match p with
  | some p => .ok p
  | none => .error .fault

/-- The loop of `arm_connect` over the addresses. Without one that answers it calls `error`. -/
def connectLoop : List Attempt → List Bool → Run (List UInt8 × List Bool)
  | [], _ => .error .exit
  | .noSocket :: attempts, descriptors => connectLoop attempts descriptors
  | .refused :: attempts, descriptors => connectLoop attempts (descriptors ++ [false])
  | .connected stream :: _, descriptors => .ok (stream, descriptors ++ [true])

/-- `packet` is what the block for the packet holds when it is allocated. -/
def gdbInitData (w : Interface) (packet : Nat → UInt8) : Nat × Interface :=
  let (gdb, gdbs) := w.gdbs.malloc ⟨packet, 0, [], []⟩
  (gdb, { w with gdbs := gdbs })

def initGdbScanner (w : Interface) (gdb : Nat) (stream : List UInt8) : Interface :=
  let (scanner, scanners) := w.scanners.malloc (scan stream)
  { w with scanners := scanners, scanner := some scanner, dataGdb := some gdb, buffer := [] }

def armConnect (w : Interface) (attempts : List Attempt) (packet : Nat → UInt8) :
    Run (Nat × Interface) := do
  let (stream, descriptors) ← connectLoop attempts w.descriptors
  let (gdb, w) := gdbInitData { w with descriptors := descriptors } packet
  let (arm, arms) := w.arms.malloc gdb
  .ok (arm, initGdbScanner { w with arms := arms } gdb stream)

/-- `gdb_get_answer`: whichever simulator is meant, the scanner that was made last reads, and the
data of `scanner.l` tell whom it writes to. -/
def getAnswer (w : Interface) : Run (Answer × Interface) := do
  let scanner ← pointer w.scanner
  let tokens ← w.scanners.load scanner
  let gdb ← pointer w.dataGdb
  let data ← w.gdbs.load gdb
  let (c, answer) := yylexFrom tokens ⟨⟨data, w.buffer⟩, tokens, []⟩
  let scanners ← w.scanners.store scanner c.tokens
  let gdbs ← w.gdbs.store gdb c.data.gdb
  .ok (answer, { w with scanners := scanners, gdbs := gdbs, buffer := c.data.buffer })

/-- A packet is sent, and its answer read. The loops of the senders end, so that there is always
something to send. -/
def exchange (w : Interface) (gdb : Nat) (send : GdbProtocolData → Option GdbProtocolData) :
    Run (Answer × Interface) := do
  let data ← w.gdbs.load gdb
  match send data with
  | none => .error .fault
  | some data => do
    let gdbs ← w.gdbs.store gdb data
    getAnswer { w with gdbs := gdbs }

/-- The variables of the outer loop of `gdb_write_memory`. -/
structure ArmMemoryState where
  interface : Interface
  address : UInt32
  srcBuffer : Nat
  size : Nat

def armMemoryTurn (memory : Nat → UInt8) (gdb : Nat) (s : ArmMemoryState) : Run ArmMemoryState := do
  let data ← s.interface.gdbs.load gdb
  match writeChunk memory ⟨data, s.address, s.srcBuffer, s.size⟩ with
  | none => .error .fault
  | some c => do
    let (_, w) ← s.interface.exchange gdb fun _ => some c.gdb
    .ok ⟨w, c.address, c.srcBuffer, c.size⟩

/-- Each turn sends a byte at least, so that there are at most `size` of them. -/
def armMemoryLoop (memory : Nat → UInt8) (gdb : Nat) : Nat → ArmMemoryState → Run ArmMemoryState
  | 0, s => .ok s
  | n + 1, s =>
    if 0 < s.size then armMemoryTurn memory gdb s >>= armMemoryLoop memory gdb n else .ok s

def armWriteRegister (host target : Bool) (w : Interface) (simulator : Nat) (num : UInt8)
    (value : UInt32) : Run Interface := do
  let gdb ← w.arms.load simulator
  let (_, w) ← w.exchange gdb fun data => gdbWriteRegister host target data num value
  .ok w

def armWriteMemory (w : Interface) (simulator : Nat) (address : UInt32) (memory : Nat → UInt8)
    (size : Nat) : Run Interface := do
  let gdb ← w.arms.load simulator
  let s ← armMemoryLoop memory gdb size ⟨w, address, 0, size⟩
  .ok s.interface

/-- `destroy_gdb_scanner` takes the scanner that was made last too. No descriptor is closed. -/
def cleanup (w : Interface) (simulator : Nat) : Run Interface := do
  let gdb ← w.arms.load simulator
  let scanner ← pointer w.scanner
  let scanners ← w.scanners.free scanner
  let gdbs ← w.gdbs.free gdb
  let arms ← w.arms.free simulator
  .ok { w with scanners := scanners, gdbs := gdbs, arms := arms }

def armRun (w : Interface) (simulator : Nat) : Run Interface := do
  let gdb ← w.arms.load simulator
  let (_, w) ← w.exchange gdb fun data => some (gdbCont data)
  w.cleanup simulator

def armStep (w : Interface) (simulator : Nat) : Run (Answer × Interface) := do
  let gdb ← w.arms.load simulator
  let (answer, w) ← w.exchange gdb fun data => some (gdbStep data)
  if answer = .eof then do
    let w ← w.cleanup simulator
    .ok (answer, w)
  else .ok (answer, w)

end Interface

open Interface

/-- A call of a function of the interface, with the number of the simulator it is given. -/
inductive Call
  | connect (attempts : List Attempt) (packet : Nat → UInt8)
  | writeRegister (simulator : Nat) (num : UInt8) (value : UInt32)
  | writeMemory (simulator : Nat) (address : UInt32) (memory : Nat → UInt8) (size : Nat)
  | run (simulator : Nat)
  | step (simulator : Nat)

/-- The packets of the call fit in the array for them. -/
def Call.Fits : Call → Prop
  | .writeMemory _ address memory size => (Request.writeMemory address memory size).Fits
  | _ => True

def Interface.call (host target : Bool) (w : Interface) : Call → Run Interface
  | .connect attempts packet => do
    let (_, w) ← w.armConnect attempts packet
    .ok w
  | .writeRegister simulator num value => w.armWriteRegister host target simulator num value
  | .writeMemory simulator address memory size => w.armWriteMemory simulator address memory size
  | .run simulator => w.armRun simulator
  | .step simulator => do
    let (_, w) ← w.armStep simulator
    .ok w

section answer

variable {w w' : Interface} {p g s n : Nat} {data data' : GdbProtocolData}
  {tokens : List ScanToken}

/-- The wait depends on the data and the tokens alone, and not on the events before it. -/
theorem yylexFrom_data (ts : List ScanToken) {c c' : Client} (same : c.data = c'.data) :
    (yylexFrom ts c).1.data = (yylexFrom ts c').1.data ∧
      (yylexFrom ts c).1.tokens = (yylexFrom ts c').1.tokens ∧
      (yylexFrom ts c).2 = (yylexFrom ts c').2 := by
  induction ts generalizing c c' with
  | nil =>
    rw [yylexFrom, yylexFrom, same]
    exact ⟨rfl, rfl, rfl⟩
  | cons t ts ih =>
    rw [yylexFrom, yylexFrom, same]
    dsimp only
    split_ifs
    · exact ⟨rfl, rfl, rfl⟩
    · exact ih rfl

/-- What a wait may change: the data of the simulator `p` and the tokens of the scanner `s`. -/
structure Kept (w w' : Interface) (p s : Nat) : Prop where
  descriptors : w'.descriptors = w.descriptors
  arms : w'.arms = w.arms
  scanner : w'.scanner = w.scanner
  dataGdb : w'.dataGdb = w.dataGdb
  gdbs : w.gdbs.Same w'.gdbs p
  scanners : w.scanners.Same w'.scanners s

theorem getAnswer_spec (scanner : w.scanner = some s) (found : w.scanners.Holds s tokens)
    (gdb : w.dataGdb = some g) (held : w.gdbs.Holds g data) {c : Client}
    (same : c.data = ⟨data, w.buffer⟩) : ∃ w',
      w.getAnswer = .ok ((yylexFrom tokens c).2, w') ∧ Kept w w' g s ∧
      w'.scanners.Holds s (yylexFrom tokens c).1.tokens ∧
      w'.gdbs.Holds g (yylexFrom tokens c).1.data.gdb ∧
      w'.buffer = (yylexFrom tokens c).1.data.buffer := by
  obtain ⟨data', tokens', answer⟩ := @yylexFrom_data tokens c ⟨⟨data, w.buffer⟩, tokens, []⟩ same
  rw [data', tokens', answer]
  set out := yylexFrom tokens ⟨⟨data, w.buffer⟩, tokens, []⟩ with hout
  obtain ⟨scanners, stored, left, sameScanners⟩ := found.store out.1.tokens
  obtain ⟨gdbs, stored', left', sameGdbs⟩ := held.store out.1.data.gdb
  refine ⟨{ w with scanners := scanners, gdbs := gdbs, buffer := out.1.data.buffer }, ?_,
    ⟨rfl, rfl, rfl, rfl, sameGdbs, sameScanners⟩, left, left', rfl⟩
  rw [getAnswer, scanner, gdb]
  simp only [pointer, ok_bind, Arena.load_eq_ok.mpr found, Arena.load_eq_ok.mpr held]
  rw [← hout, stored, ok_bind, stored', ok_bind]

/-- The packet of one simulator is sent, and the answer is written to the same one. -/
theorem exchange_same (scanner : w.scanner = some s) (found : w.scanners.Holds s tokens)
    (gdb : w.dataGdb = some g) (held : w.gdbs.Holds g data)
    {send : GdbProtocolData → Option GdbProtocolData} (sends : send data = some data')
    {c : Client} (same : c.data = ⟨data', w.buffer⟩) : ∃ w',
      w.exchange g send = .ok ((yylexFrom tokens c).2, w') ∧ Kept w w' g s ∧
      w'.scanners.Holds s (yylexFrom tokens c).1.tokens ∧
      w'.gdbs.Holds g (yylexFrom tokens c).1.data.gdb ∧
      w'.buffer = (yylexFrom tokens c).1.data.buffer := by
  obtain ⟨gdbs, stored, held', sameGdbs⟩ := held.store data'
  obtain ⟨w', run, kept, left, left', buffer⟩ :=
    @getAnswer_spec { w with gdbs := gdbs } g s data' tokens scanner found gdb held' c same
  refine ⟨w', ?_, ⟨kept.descriptors, kept.arms, kept.scanner, kept.dataGdb,
    sameGdbs.trans kept.gdbs, kept.scanners⟩, left, left', buffer⟩
  rw [exchange, Arena.load_eq_ok.mpr held, ok_bind, sends]
  dsimp only
  rw [stored, ok_bind, run]

/-- What is left as it is, whichever simulator an exchange is for. -/
structure Steady (w w' : Interface) : Prop where
  descriptors : w'.descriptors = w.descriptors
  arms : w'.arms = w.arms
  scanner : w'.scanner = w.scanner
  dataGdb : w'.dataGdb = w.dataGdb
  gdbs : w'.gdbs.lives = w.gdbs.lives
  scanners : w'.scanners.lives = w.scanners.lives
  others : ∀ s, w.scanner = some s → w.scanners.Same w'.scanners s

theorem Steady.refl (w : Interface) : Steady w w :=
  ⟨rfl, rfl, rfl, rfl, rfl, rfl, fun s _ => Arena.Same.refl w.scanners s⟩

theorem Steady.trans {w'' : Interface} (h : Steady w w') (h' : Steady w' w'') : Steady w w'' :=
  ⟨h'.descriptors.trans h.descriptors, h'.arms.trans h.arms, h'.scanner.trans h.scanner,
    h'.dataGdb.trans h.dataGdb, h'.gdbs.trans h.gdbs, h'.scanners.trans h.scanners,
    fun s hs => (h.others s hs).trans (h'.others s (h.scanner.trans hs))⟩

/-- The scanner and the simulator that it writes to are there. -/
structure Reading (w : Interface) : Prop where
  scanner : ∃ s tokens, w.scanner = some s ∧ w.scanners.Holds s tokens
  gdb : ∃ g, w.dataGdb = some g ∧ w.gdbs.lives[g]? = some true

theorem Reading.steady (h : Reading w) (steady : Steady w w') : Reading w' := by
  obtain ⟨s, tokens, scanner, found⟩ := h.scanner
  obtain ⟨g, gdb, live⟩ := h.gdb
  obtain ⟨tokens', found'⟩ :=
    Arena.lives_iff.mp (steady.scanners.symm ▸ Arena.lives_iff.mpr ⟨tokens, found⟩)
  exact ⟨⟨s, tokens', steady.scanner.trans scanner, found'⟩,
    ⟨g, steady.dataGdb.trans gdb, steady.gdbs.symm ▸ live⟩⟩

/-- The packet of one simulator is sent, and the answer may be read by another. -/
theorem exchange_steady (h : Reading w) (held : w.gdbs.Holds p data)
    {send : GdbProtocolData → Option GdbProtocolData} (sends : send data = some data') :
    ∃ answer w', w.exchange p send = .ok (answer, w') ∧ Steady w w' := by
  obtain ⟨s, tokens, scanner, found⟩ := h.scanner
  obtain ⟨g, gdb, live⟩ := h.gdb
  obtain ⟨gdbs, stored, held', sameGdbs⟩ := held.store data'
  have lives := sameGdbs.lives_holds held held'
  obtain ⟨last, heldLast⟩ := Arena.lives_iff.mp (lives ▸ live)
  obtain ⟨w', run, kept, left, left', -⟩ :=
    @getAnswer_spec { w with gdbs := gdbs } g s last tokens scanner found gdb heldLast
      ⟨⟨last, w.buffer⟩, tokens, []⟩ rfl
  refine ⟨(yylexFrom tokens ⟨⟨last, w.buffer⟩, tokens, []⟩).2, w', ?_, kept.descriptors, kept.arms,
    kept.scanner, kept.dataGdb, (kept.gdbs.lives_holds heldLast left').trans lives,
    kept.scanners.lives_holds found left, ?_⟩
  · rw [exchange, Arena.load_eq_ok.mpr held, ok_bind, sends]
    dsimp only
    rw [stored, ok_bind, run]
  · intro s' scanner'
    obtain rfl : s = s' := Option.some.inj (scanner.symm.trans scanner')
    exact kept.scanners

theorem exchange_faults (none : ∀ s tokens, w.scanner = some s → ¬ w.scanners.Holds s tokens)
    (p : Nat) (send : GdbProtocolData → Option GdbProtocolData) :
    w.exchange p send = .error .fault := by
  have wait (gdbs : Arena GdbProtocolData) :
      ({ w with gdbs := gdbs } : Interface).getAnswer = .error .fault := by
    rw [getAnswer]
    dsimp only
    cases scanner : w.scanner with
    | none => rfl
    | some s =>
      rw [pointer, ok_bind, Arena.load_faults fun tokens => none s tokens scanner]
      rfl
  rw [exchange]
  cases loaded : w.gdbs.load p with
  | error e => rw [Arena.load_error loaded, error_bind]
  | ok data =>
    rw [ok_bind]
    cases send data with
    | none => rfl
    | some data' =>
      obtain ⟨gdbs, stored, -⟩ := (Arena.load_eq_ok.mp loaded).store data'
      dsimp only
      rw [stored, ok_bind, wait]

theorem armMemoryLoop_steady {memory : Nat → UInt8} {m : ArmMemoryState} (h : Reading m.interface)
    (live : m.interface.gdbs.lives[p]? = some true) :
    ∃ m', armMemoryLoop memory p n m = .ok m' ∧ Steady m.interface m'.interface := by
  induction n generalizing m with
  | zero => exact ⟨m, rfl, Steady.refl _⟩
  | succ n ih =>
    rw [armMemoryLoop]
    split_ifs with more
    · obtain ⟨data, held⟩ := Arena.lives_iff.mp live
      obtain ⟨c, chunk, -, -⟩ := @writeChunk_sends memory ⟨data, m.address, m.srcBuffer, m.size⟩ more
      obtain ⟨answer, w', run, steady⟩ :=
        @exchange_steady m.interface p data c.gdb h held (fun _ => some c.gdb) rfl
      have turn : armMemoryTurn memory p m = .ok ⟨w', c.address, c.srcBuffer, c.size⟩ := by
        rw [armMemoryTurn, Arena.load_eq_ok.mpr held, ok_bind, chunk]
        dsimp only
        rw [run, ok_bind]
      obtain ⟨m', rest, steady'⟩ := @ih ⟨w', c.address, c.srcBuffer, c.size⟩ (h.steady steady)
        (steady.gdbs.symm ▸ live)
      exact ⟨m', by rw [turn, ok_bind, rest], steady.trans steady'⟩
    · exact ⟨m, rfl, Steady.refl _⟩

end answer

section calls

variable {host target : Bool} {w w' : Interface} {h n : Nat}

/-- The number of the last of `n` blocks. -/
def lastOf : Nat → Option Nat
  | 0 => none
  | n + 1 => some n

/-- How the blocks belong together: a simulator has the data of its number, and the variables of
`scanner.l` are those of the last one. Its data are there as long as its scanner is. -/
structure Sound (w : Interface) : Prop where
  values : ∀ h (c : Cell Nat), w.arms.cells[h]? = some c → c.value = h
  gdbs : w.gdbs.lives = w.arms.lives
  length : w.scanners.cells.length = w.arms.cells.length
  scanner : w.scanner = lastOf w.arms.cells.length
  dataGdb : w.dataGdb = lastOf w.arms.cells.length
  recent : ∀ s, w.scanner = some s → w.scanners.lives[s]? = some true → w.arms.lives[s]? = some true

/-- The scanner that was made last has not been destroyed. -/
def Ready (w : Interface) : Prop := ∃ s, w.scanner = some s ∧ w.scanners.lives[s]? = some true

/-- What a call needs: an address that answers, or a simulator that has not been cleaned up, and
for an exchange the scanner. -/
def Call.Allowed (w : Interface) : Call → Prop
  | .connect attempts _ => ∃ stream, .connected stream ∈ attempts
  | .writeRegister simulator _ _ => w.arms.lives[simulator]? = some true ∧ Ready w
  | .writeMemory simulator _ _ size =>
    w.arms.lives[simulator]? = some true ∧ (0 < size → Ready w)
  | .run simulator => w.arms.lives[simulator]? = some true ∧ Ready w
  | .step simulator => w.arms.lives[simulator]? = some true ∧ Ready w

theorem start_sound : Sound .start :=
  ⟨by simp [Interface.start, Arena.empty], rfl, rfl, rfl, rfl, by simp [Interface.start]⟩

theorem Sound.steady (h : Sound w) (steady : Steady w w') : Sound w' := by
  have length := congrArg List.length steady.scanners
  simp only [Arena.lives, List.length_map] at length
  refine ⟨steady.arms ▸ h.values, ?_, ?_, ?_, ?_, ?_⟩
  · rw [steady.gdbs, steady.arms, h.gdbs]
  · rw [length, steady.arms, h.length]
  · rw [steady.scanner, steady.arms, h.scanner]
  · rw [steady.dataGdb, steady.arms, h.dataGdb]
  · intro s scanner live
    rw [steady.scanner] at scanner
    rw [steady.scanners] at live
    rw [steady.arms]
    exact h.recent s scanner live

theorem Sound.reading (h : Sound w) (ready : Ready w) : Reading w := by
  obtain ⟨s, scanner, live⟩ := ready
  obtain ⟨tokens, found⟩ := Arena.lives_iff.mp live
  refine ⟨⟨s, tokens, scanner, found⟩, ⟨s, ?_, ?_⟩⟩
  · rw [h.dataGdb, ← h.scanner, scanner]
  · rw [h.gdbs]
    exact h.recent s scanner live

/-- The pointer to its data is the number of the simulator. -/
theorem Sound.load (hw : Sound w) (live : w.arms.lives[h]? = some true) :
    w.arms.Holds h h ∧ ∃ data, w.gdbs.Holds h data := by
  obtain ⟨x, held⟩ := Arena.lives_iff.mp live
  obtain rfl : x = h := hw.values h ⟨x, true⟩ held
  exact ⟨held, Arena.lives_iff.mp (by rw [hw.gdbs, live])⟩

/-- A call with the first fault it meets: nothing has been read before. -/
theorem load_dead (dead : w.arms.lives[h]? ≠ some true) : w.arms.load h = .error .fault :=
  Arena.load_faults fun x held => dead (Arena.lives_iff.mpr ⟨x, held⟩)

theorem not_ready (none : ¬ Ready w) (s : Nat) (tokens : List ScanToken)
    (scanner : w.scanner = some s) : ¬ w.scanners.Holds s tokens :=
  fun held => none ⟨s, scanner, Arena.lives_iff.mpr ⟨tokens, held⟩⟩

/-- The blocks of a simulator and the last scanner are freed. -/
theorem Sound.cleanup (hw : Sound w) (live : w.arms.lives[h]? = some true) (ready : Ready w) :
    ∃ w', w.cleanup h = .ok w' ∧ Sound w' ∧ w'.arms.cells.length = w.arms.cells.length ∧
      ∀ s, w.scanner = some s → w.scanners.Same w'.scanners s := by
  obtain ⟨heldArm, data, heldGdb⟩ := hw.load live
  obtain ⟨s, scanner, liveScanner⟩ := ready
  obtain ⟨tokens, found⟩ := Arena.lives_iff.mp liveScanner
  obtain ⟨scanners, freed, gone, same⟩ := found.free
  obtain ⟨gdbs, freedGdb, goneGdb, sameGdb⟩ := heldGdb.free
  obtain ⟨arms, freedArm, goneArm, sameArm⟩ := heldArm.free
  have livesArm := sameArm.lives heldArm goneArm
  refine ⟨{ w with scanners := scanners, gdbs := gdbs, arms := arms }, ?_, ⟨?_, ?_, ?_, ?_, ?_, ?_⟩,
    sameArm.length, ?_⟩
  · rw [Interface.cleanup, Arena.load_eq_ok.mpr heldArm, ok_bind, scanner, pointer, ok_bind, freed,
      ok_bind, freedGdb, ok_bind, freedArm, ok_bind]
  · intro k c found'
    by_cases it : k = h
    · rw [it, goneArm] at found'
      cases found'
      exact it.symm
    · exact hw.values k c ((sameArm.others k it).symm.trans found')
  · rw [sameGdb.lives heldGdb goneGdb, livesArm, hw.gdbs]
  · rw [same.length, sameArm.length, hw.length]
  · rw [hw.scanner, sameArm.length]
  · rw [hw.dataGdb, sameArm.length]
  · intro s' scanner' live'
    obtain rfl : s = s' := Option.some.inj (scanner.symm.trans scanner')
    obtain ⟨x, held⟩ := Arena.lives_iff.mp live'
    rw [Arena.Holds, gone] at held
    cases held
  · intro s' scanner'
    obtain rfl : s = s' := Option.some.inj (scanner.symm.trans scanner')
    exact same

/-- A call that returns: the blocks still belong together, and only the last scanner is touched. -/
structure Returns (w w' : Interface) : Prop where
  sound : Sound w'
  more : w.arms.cells.length ≤ w'.arms.cells.length
  earlier : ∀ q, q + 1 < w.arms.cells.length → w'.scanners.cells[q]? = w.scanners.cells[q]?

theorem Sound.earlier (hw : Sound w) (same : ∀ s, w.scanner = some s → w.scanners.Same w'.scanners s)
    {q : Nat} (before : q + 1 < w.arms.cells.length) :
    w'.scanners.cells[q]? = w.scanners.cells[q]? := by
  obtain ⟨k, hk⟩ : ∃ k, w.arms.cells.length = k + 1 := ⟨w.arms.cells.length - 1, by omega⟩
  have scanner : w.scanner = some k := by
    rw [hw.scanner, hk]
    rfl
  exact (same k scanner).others q (by omega)

theorem Sound.returns (hw : Sound w) (steady : Steady w w') : Returns w w' :=
  ⟨hw.steady steady, by rw [steady.arms], fun _ before => hw.earlier steady.others before⟩

theorem connectLoop_returns (attempts : List Attempt) (descriptors : List Bool) :
    (∃ out, connectLoop attempts descriptors = .ok out) ↔
      ∃ stream, .connected stream ∈ attempts := by
  induction attempts generalizing descriptors with
  | nil => simp [connectLoop]
  | cons attempt attempts ih =>
    cases attempt with
    | noSocket => simpa [connectLoop] using ih descriptors
    | refused => simpa [connectLoop] using ih (descriptors ++ [false])
    | connected stream => exact iff_of_true ⟨_, rfl⟩ ⟨stream, by simp⟩

theorem Sound.connect (hw : Sound w) {attempts : List Attempt} (packet : Nat → UInt8)
    {out : List UInt8 × List Bool} (reached : connectLoop attempts w.descriptors = .ok out) :
    ∃ w', w.armConnect attempts packet = .ok (w.arms.cells.length, w') ∧ Sound w' ∧
      w'.arms.cells.length = w.arms.cells.length + 1 ∧
      ∀ q < w.arms.cells.length, w'.scanners.cells[q]? = w.scanners.cells[q]? := by
  obtain ⟨stream, descriptors⟩ := out
  have number : w.gdbs.cells.length = w.arms.cells.length := by
    simpa [Arena.lives] using congrArg List.length hw.gdbs
  refine ⟨_, by rw [armConnect, reached]; rfl, ⟨?_, ?_, ?_, ?_, ?_, ?_⟩, ?_, ?_⟩
  · intro h c found
    simp only [initGdbScanner, Arena.malloc] at found
    rcases Nat.lt_trichotomy h w.arms.cells.length with before | rfl | behind
    · rw [List.getElem?_append_left before] at found
      exact hw.values h c found
    · rw [List.getElem?_concat_length] at found
      cases found
      exact number
    · rw [List.getElem?_eq_none (by simp; omega)] at found
      cases found
  · simpa [initGdbScanner, gdbInitData, Arena.malloc, Arena.lives] using hw.gdbs
  · simpa [initGdbScanner, gdbInitData, Arena.malloc] using hw.length
  · simp [initGdbScanner, Arena.malloc, lastOf, hw.length]
  · simp [initGdbScanner, Arena.malloc, lastOf, number]
  · intro s scanner _
    simp only [initGdbScanner, Arena.malloc, Option.some.injEq] at scanner
    subst scanner
    rw [hw.length]
    simp [initGdbScanner, Arena.malloc, Arena.lives]
  · simp [initGdbScanner, Arena.malloc]
  · intro q before
    rw [← hw.length] at before
    simp only [initGdbScanner, Arena.malloc]
    exact List.getElem?_append_left before

/-- An exchange of a simulator that is there, with or without the scanner. -/
theorem Sound.exchange (hw : Sound w) (live : w.arms.lives[h]? = some true)
    {send : GdbProtocolData → Option GdbProtocolData}
    (sends : ∀ data, ∃ data', send data = some data') :
    (Ready w → ∃ answer w', w.exchange h send = .ok (answer, w') ∧ Steady w w') ∧
      (¬ Ready w → w.exchange h send = .error .fault) := by
  obtain ⟨-, data, held⟩ := hw.load live
  obtain ⟨data', sends⟩ := sends data
  exact ⟨fun ready => exchange_steady (hw.reading ready) held sends,
    fun none => exchange_faults (not_ready none) h send⟩

theorem Ready.steady (h : Ready w) (steady : Steady w w') : Ready w' := by
  obtain ⟨s, scanner, live⟩ := h
  exact ⟨s, steady.scanner.trans scanner, steady.scanners.symm ▸ live⟩

theorem Sound.exchange_cleanup (hw : Sound w) (live : w.arms.lives[h]? = some true)
    (ready : Ready w) (steady : Steady w w') :
    ∃ w2, w'.cleanup h = .ok w2 ∧ Returns w w2 := by
  obtain ⟨w2, run, sound, length, same⟩ :=
    (hw.steady steady).cleanup (steady.arms.symm ▸ live) (ready.steady steady)
  refine ⟨w2, run, sound, by rw [length, steady.arms], ?_⟩
  intro q before
  rw [(hw.steady steady).earlier same (by rw [steady.arms]; exact before)]
  exact hw.earlier steady.others before

/-- A function that is given a simulator reads its block first. -/
theorem Sound.simulator (hw : Sound w) {f : Nat → Run Interface} {P : Prop}
    (works : w.arms.lives[h]? = some true → P → ∃ w', f h = .ok w' ∧ Returns w w')
    (faults : w.arms.lives[h]? = some true → ¬ P → f h = .error .fault) :
    (w.arms.lives[h]? = some true ∧ P → ∃ w', (w.arms.load h >>= f) = .ok w' ∧ Returns w w') ∧
      (¬ (w.arms.lives[h]? = some true ∧ P) → (w.arms.load h >>= f) = .error .fault) := by
  by_cases live : w.arms.lives[h]? = some true
  · rw [Arena.load_eq_ok.mpr (hw.load live).1, ok_bind]
    exact ⟨fun both => works live both.2, fun none => faults live fun p => none ⟨live, p⟩⟩
  · rw [load_dead live, error_bind]
    exact ⟨fun both => absurd both.1 live, fun _ => rfl⟩

theorem Sound.writeMemory (hw : Sound w) (live : w.arms.lives[h]? = some true) (address : UInt32)
    (memory : Nat → UInt8) (size : Nat) :
    ((0 < size → Ready w) → ∃ m, armMemoryLoop memory h size ⟨w, address, 0, size⟩ = .ok m ∧
        Steady w m.interface) ∧
      (¬ (0 < size → Ready w) →
        armMemoryLoop memory h size ⟨w, address, 0, size⟩ = .error .fault) := by
  constructor
  · intro ready
    by_cases empty : size = 0
    · subst empty
      exact ⟨_, rfl, Steady.refl w⟩
    · exact @armMemoryLoop_steady h size memory ⟨w, address, 0, size⟩
        (hw.reading (ready (Nat.pos_of_ne_zero empty))) (by rw [hw.gdbs, live])
  · intro none
    obtain ⟨more, none⟩ := Classical.not_imp.mp none
    obtain ⟨-, data, held⟩ := hw.load live
    obtain ⟨c, chunk, -, -⟩ := @writeChunk_sends memory ⟨data, address, 0, size⟩ more
    have turn : armMemoryTurn memory h ⟨w, address, 0, size⟩ = .error .fault := by
      rw [armMemoryTurn, Arena.load_eq_ok.mpr held, ok_bind, chunk]
      dsimp only
      rw [exchange_faults (not_ready none), error_bind]
    obtain ⟨n, rfl⟩ : ∃ n, size = n + 1 := ⟨size - 1, by omega⟩
    rw [armMemoryLoop, if_pos more, turn, error_bind]

/-- A call returns when it has what it needs, and else it ends the program. -/
theorem Sound.call (host target : Bool) (hw : Sound w) (c : Call) :
    (c.Allowed w → ∃ w', w.call host target c = .ok w' ∧ Returns w w') ∧
      (¬ c.Allowed w → ∃ e, w.call host target c = .error e) := by
  cases c with
  | connect attempts packet =>
    rw [Call.Allowed, ← connectLoop_returns attempts w.descriptors]
    constructor
    · rintro ⟨out, reached⟩
      obtain ⟨w', run, sound, length, earlier⟩ := hw.connect packet reached
      exact ⟨w', by rw [Interface.call, run]; rfl, sound, by omega,
        fun q before => earlier q (by omega)⟩
    · intro none
      cases reached : connectLoop attempts w.descriptors with
      | ok out => exact absurd ⟨out, reached⟩ none
      | error e => exact ⟨e, by rw [Interface.call, armConnect, reached]; rfl⟩
  | writeRegister simulator num value =>
    have sends (data : GdbProtocolData) :
        ∃ data', gdbWriteRegister host target data num value = some data' :=
      (gdbWriteRegister_sends host target data num value).imp fun _ both => both.1
    refine (hw.simulator ?_ ?_).imp id fun faults none => ⟨.fault, faults none⟩
    · intro live ready
      obtain ⟨answer, w', run, steady⟩ := (hw.exchange live sends).1 ready
      exact ⟨w', by rw [run, ok_bind], hw.returns steady⟩
    · intro live none
      rw [(hw.exchange live sends).2 none, error_bind]
  | writeMemory simulator address memory size =>
    refine (hw.simulator ?_ ?_).imp id fun faults none => ⟨.fault, faults none⟩
    · intro live ready
      obtain ⟨m, run, steady⟩ := (hw.writeMemory live address memory size).1 ready
      exact ⟨m.interface, by rw [run, ok_bind], hw.returns steady⟩
    · intro live none
      rw [(hw.writeMemory live address memory size).2 none, error_bind]
  | run simulator =>
    have sends (data : GdbProtocolData) : ∃ data', some (gdbCont data) = some data' := ⟨_, rfl⟩
    refine (hw.simulator ?_ ?_).imp id fun faults none => ⟨.fault, faults none⟩
    · intro live ready
      obtain ⟨answer, w', run, steady⟩ := (hw.exchange live sends).1 ready
      obtain ⟨w2, cleaned, returns⟩ := hw.exchange_cleanup live ready steady
      exact ⟨w2, by rw [run]; exact cleaned, returns⟩
    · intro live none
      rw [(hw.exchange live sends).2 none, error_bind]
  | step simulator =>
    have sends (data : GdbProtocolData) : ∃ data', some (gdbStep data) = some data' := ⟨_, rfl⟩
    rw [Interface.call, armStep, bind_assoc]
    refine (hw.simulator ?_ ?_).imp id fun faults none => ⟨.fault, faults none⟩
    · intro live ready
      obtain ⟨answer, w', run, steady⟩ := (hw.exchange live sends).1 ready
      rw [run, ok_bind]
      cases answer with
      | packet => exact ⟨w', rfl, hw.returns steady⟩
      | eof =>
        obtain ⟨w2, cleaned, returns⟩ := hw.exchange_cleanup live ready steady
        exact ⟨w2, by dsimp only; rw [if_pos rfl, cleaned]; rfl, returns⟩
    · intro live none
      rw [(hw.exchange live sends).2 none, error_bind, error_bind]

theorem Returns.trans {w2 : Interface} (h : Returns w w') (h' : Returns w' w2) : Returns w w2 := by
  refine ⟨h'.sound, h.more.trans h'.more, ?_⟩
  intro q before
  have more := h.more
  rw [h'.earlier q (by omega), h.earlier q before]

theorem Sound.call_eq_ok (hw : Sound w) {c : Call} (run : w.call host target c = .ok w') :
    c.Allowed w ∧ Returns w w' := by
  obtain ⟨works, fails⟩ := hw.call host target c
  by_cases allowed : c.Allowed w
  · obtain ⟨w2, again, returns⟩ := works allowed
    obtain rfl : w' = w2 := Except.ok.inj (run.symm.trans again)
    exact ⟨allowed, returns⟩
  · obtain ⟨e, stops⟩ := fails allowed
    rw [run] at stops
    cases stops

theorem Sound.calls (hw : Sound w) {calls : List Call}
    (run : calls.foldlM (Interface.call host target) w = .ok w') : Returns w w' := by
  induction calls generalizing w with
  | nil =>
    cases run
    exact hw.returns (Steady.refl _)
  | cons c calls ih =>
    rw [List.foldlM_cons] at run
    obtain ⟨w1, first, rest⟩ := bind_eq_ok.mp run
    have returns := (hw.call_eq_ok first).2
    exact returns.trans (ih returns.sound rest)

theorem returns_iff_allowed (calls : List Call) :
    (∃ w, calls.foldlM (Interface.call host target) Interface.start = .ok w) ↔
      ∀ before next after, calls = before ++ next :: after →
        ∃ w, before.foldlM (Interface.call host target) Interface.start = .ok w ∧
          next.Allowed w := by
  constructor
  · rintro ⟨w, run⟩ before next after rfl
    rw [List.foldlM_append] at run
    obtain ⟨w1, first, rest⟩ := bind_eq_ok.mp run
    rw [List.foldlM_cons] at rest
    obtain ⟨w2, called, -⟩ := bind_eq_ok.mp rest
    exact ⟨w1, first, ((start_sound.calls first).sound.call_eq_ok called).1⟩
  · intro each
    induction calls using List.reverseRecOn with
    | nil => exact ⟨_, rfl⟩
    | append_singleton calls last ih =>
      obtain ⟨w, run, allowed⟩ := each calls last [] rfl
      obtain ⟨w', returns, -⟩ := ((start_sound.calls run).sound.call host target last).1 allowed
      exact ⟨w', by rw [List.foldlM_append, run, ok_bind, List.foldlM_cons, returns]; rfl⟩

/-- Whatever is called for whichever simulators, while the packets fit in their array it returns
exactly when each call finds the block of its simulator, and the scanner that was made last: nothing
else can be missing. -/
theorem calls_return_iff (host target : Bool) (calls : List { c : Call // c.Fits }) :
    (∃ w, (calls.map Subtype.val).foldlM (Interface.call host target) Interface.start = .ok w) ↔
      ∀ before next after, calls.map Subtype.val = before ++ next :: after →
        ∃ w, before.foldlM (Interface.call host target) Interface.start = .ok w ∧
          next.Allowed w :=
  returns_iff_allowed (calls.map Subtype.val)

/-- When another simulator is connected, the scanners made before are left as they are, whatever is
called afterwards: what their simulators answer is not read any more, and they are not destroyed. -/
theorem earlier_unread (host target : Bool) (before after : List Call) (attempts : List Attempt)
    (packet : Nat → UInt8) (w w' : Interface)
    (reached : before.foldlM (Interface.call host target) Interface.start = .ok w)
    (run : (.connect attempts packet :: after).foldlM (Interface.call host target) w = .ok w') :
    ∀ q < w.scanners.cells.length, w'.scanners.cells[q]? = w.scanners.cells[q]? := by
  have sound := (start_sound.calls reached).sound
  rw [List.foldlM_cons] at run
  obtain ⟨w1, first, rest⟩ := bind_eq_ok.mp run
  have returns := (sound.call_eq_ok first).2
  obtain ⟨⟨number, w2⟩, connected, same⟩ := bind_eq_ok.mp first
  obtain rfl : w2 = w1 := Except.ok.inj same
  obtain ⟨out, loop, -⟩ := bind_eq_ok.mp connected
  obtain ⟨w3, again, -, length, earlier⟩ := sound.connect packet loop
  obtain ⟨-, rfl⟩ := Prod.mk.inj (Except.ok.inj (connected.symm.trans again))
  intro q inside
  rw [sound.length] at inside
  rw [(returns.sound.calls rest).earlier q (by omega), earlier q inside]

/-- A step of the first simulator ends with the second connection. -/
theorem earlier_unread_step : ∃ w w',
    [Call.connect [.connected [0x2b]] fun _ => 0].foldlM (Interface.call false false)
      Interface.start = .ok w ∧
    [Call.connect [.refused, .connected []] fun _ => 0, .step 0].foldlM
      (Interface.call false false) w = .ok w' ∧
    ∀ q < w.scanners.cells.length, w'.scanners.cells[q]? = w.scanners.cells[q]? := by
  obtain ⟨w, reached⟩ : ∃ w, w = (⟨[true], ⟨[⟨0, true⟩]⟩, ⟨[⟨⟨fun _ => 0, 0, [], []⟩, true⟩]⟩,
      ⟨[⟨scan [0x2b], true⟩]⟩, some 0, some 0, []⟩ : Interface) := ⟨_, rfl⟩
  obtain ⟨w', run⟩ : ∃ w', [Call.connect [.refused, .connected []] fun _ => 0, .step 0].foldlM
      (Interface.call false false) w = .ok w' := by
    rw [reached]
    exact ⟨_, rfl⟩
  have first : [Call.connect [.connected [0x2b]] fun _ => 0].foldlM (Interface.call false false)
      Interface.start = .ok w := by
    rw [reached]
    rfl
  exact ⟨w, w', first, run, earlier_unread false false _ [.step 0] _ _ w w' first run⟩

end calls

end ArmRunner
