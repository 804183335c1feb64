import ArmRunner.Lib.ArrayLoop
import ArmRunner.Lib.Connection
import ArmRunner.Lib.Slice
import ArmRunner.Yylex

namespace ArmRunner

open CRun Slice

def yyBufSize : Nat := 16384

def yyReadBufSize : Nat := 8192

/-- `YY_END_OF_BUFFER`. -/
def yyEndOfBuffer : Nat := 6

inductive YyBufferStatus
  | new
  | normal
  | eofPending
  deriving DecidableEq, Repr

/-- `struct yyguts_t` with its buffer. The pointers into `yy_ch_buf` are indices, `input` is what
`yyin` reads from, and `fresh` is what memory holds that `yyalloc` or `yyrealloc` returns. -/
structure YyGuts where
  chBuf : List UInt8
  bufSize : Nat
  nChars : Nat
  status : YyBufferStatus
  textPtr : Nat
  cBufP : Nat
  holdChar : UInt8
  lastAcceptingState : Nat
  lastAcceptingCpos : Nat
  input : Connection
  fresh : Nat → UInt8

/-- The scanner before its first token: `yy_create_buffer`, `yy_flush_buffer` and
`yy_load_buffer_state`. -/
def YyGuts.start (fresh : Nat → UInt8) (input : Connection) : YyGuts where
  chBuf := 0 :: 0 :: (List.range yyBufSize).map fresh
  bufSize := yyBufSize
  nChars := 0
  status := .new
  textPtr := 0
  cBufP := 0
  holdChar := 0
  lastAcceptingState := 0
  lastAcceptingCpos := 0
  input := input
  fresh := fresh

/-- The loop at `yy_match` over the cells from `yy_cp` on. It takes a NUL for the end of the
buffer, and behind the last cell there is nothing to read. -/
def yyMatchCells : List UInt8 → Nat → Nat → Nat × Nat → Run (Nat × Nat × (Nat × Nat))
  | [], _, _, _ => .error .fault
  | c :: cs, state, cp, last =>
    let last := if yyAccept.getD state 0 ≠ 0 then (state, cp) else last
    match yyTransition state (yyEc.getD c.toNat 0) with
    | none => .error .fault
    | some state =>
      if yyBase.getD state 0 ≠ 14 then yyMatchCells cs state (cp + 1) last
      else .ok (state, cp + 1, last)

/-- `yy_get_previous_state`: the state behind a text, with a NUL as a character of it. -/
def yyGetPreviousState : List UInt8 → Nat → Nat → Nat × Nat → Run (Nat × (Nat × Nat))
  | [], state, _, last => .ok (state, last)
  | c :: cs, state, cp, last =>
    let last := if yyAccept.getD state 0 ≠ 0 then (state, cp) else last
    match yyTransition state (yyClass c) with
    | none => .error .fault
    | some state => yyGetPreviousState cs state (cp + 1) last

def YyGuts.last (yy : YyGuts) : Nat × Nat := (yy.lastAcceptingState, yy.lastAcceptingCpos)

def YyGuts.setLast (yy : YyGuts) (last : Nat × Nat) : YyGuts :=
  { yy with lastAcceptingState := last.1, lastAcceptingCpos := last.2 }

/-- `YY_DO_BEFORE_ACTION`: the text is terminated in the buffer. -/
def YyGuts.doBeforeAction (yy : YyGuts) (cp : Nat) : Run YyGuts := do
  let holdChar ← fetch yy.chBuf cp
  let chBuf ← assign yy.chBuf cp 0
  .ok { yy with chBuf, holdChar, cBufP := cp }

/-- The buffer grows until there is room behind the text. A size that is no longer an `int` after
it is doubled grows by an eighth. -/
def growBufSize (numberToMove bufSize : Nat) : Option Nat :=
  whileLoop (fun size => size ≤ numberToMove + 1)
    (fun size => some (if 2 * size < 2 ^ 31 then 2 * size else size + size / 8))
    (numberToMove + 2) bufSize

/-- `yyrealloc`. -/
def YyGuts.realloc (yy : YyGuts) (size : Nat) : YyGuts :=
  { yy with
    chBuf := yy.chBuf ++ (List.range (size + 2 - yy.chBuf.length)).map yy.fresh
    bufSize := size }

inductive EobAct
  | continueScan
  | endOfFile
  | lastMatch
  deriving DecidableEq, Repr

/-- `yyrestart` of the current buffer. -/
def YyGuts.restart (yy : YyGuts) : Run YyGuts := do
  let chBuf ← assign yy.chBuf 0 0
  let chBuf ← assign chBuf 1 0
  let holdChar ← fetch chBuf 0
  .ok { yy with chBuf, holdChar, nChars := 0, status := .new, textPtr := 0, cBufP := 0 }

/-- The part of `yy_get_next_buffer` that reads, behind the text that has been moved. -/
def YyGuts.readBuffer (yy : YyGuts) (numberToMove : Nat) : Run YyGuts :=
  if yy.status = .eofPending then .ok { yy with nChars := 0 }
  else
    match growBufSize numberToMove yy.bufSize with
    | none => .error .fault
    | some size => do
      let yy := if size = yy.bufSize then yy else yy.realloc size
      let numToRead := min (yy.bufSize - numberToMove - 1) yyReadBufSize
      let (bytes, input) := yy.input.read numToRead
      let chBuf ← assignAll yy.chBuf numberToMove bytes
      .ok { yy with chBuf, input, nChars := bytes.length }

/-- What the read means for the scan. -/
def YyGuts.eobAct (yy : YyGuts) (numberToMove : Nat) : Run (EobAct × YyGuts) :=
  if yy.nChars = 0 then
    if numberToMove = 0 then do
      let yy ← yy.restart
      .ok (.endOfFile, yy)
    else .ok (.lastMatch, { yy with status := .eofPending })
  else .ok (.continueScan, yy)

/-- The end of `yy_get_next_buffer`: the text and what has been read are one, and are marked. -/
def YyGuts.markEnd (yy : YyGuts) (numberToMove : Nat) : Run YyGuts := do
  let yy :=
    if yy.bufSize < yy.nChars + numberToMove then
      yy.realloc (yy.nChars + numberToMove + yy.nChars / 2 - 2)
    else yy
  let nChars := yy.nChars + numberToMove
  let chBuf ← assign yy.chBuf nChars 0
  let chBuf ← assign chBuf (nChars + 1) 0
  .ok { yy with chBuf, nChars, textPtr := 0 }

def YyGuts.getNextBuffer (yy : YyGuts) : Run (EobAct × YyGuts) :=
  if yy.nChars + 1 < yy.cBufP then .error .exit
  else do
    let numberToMove := yy.cBufP - yy.textPtr - 1
    let chBuf ← copyDown yy.textPtr numberToMove yy.chBuf
    let yy ← { yy with chBuf }.readBuffer numberToMove
    let (act, yy) ← yy.eobAct numberToMove
    let yy ← yy.markEnd numberToMove
    .ok (act, yy)

/-- Where the search for a token goes on, with `yy_current_state` and `yy_cp`, or what it has
found: a token, or the end of the input. -/
inductive YyGoto
  | yyMatch (state cp : Nat)
  | yyFindAction (state cp : Nat)
  | doAction (found : Option ScanToken)
  deriving DecidableEq, Repr

/-- The text up to `yy_c_buf_p` once more. -/
def YyGuts.previousState (yy : YyGuts) : Run (Nat × YyGuts) := do
  let (state, last) ←
    yyGetPreviousState (slice yy.chBuf yy.textPtr yy.cBufP) 1 yy.textPtr yy.last
  .ok (state, yy.setLast last)

/-- `yy_try_NUL_trans`: 0 when the scanner jams. -/
def YyGuts.tryNulTrans (yy : YyGuts) (state : Nat) : Run (Nat × YyGuts) :=
  let last := if yyAccept.getD state 0 ≠ 0 then (state, yy.cBufP) else yy.last
  match yyTransition state 1 with
  | none => .error .fault
  | some next => .ok (if next = 13 then 0 else next, yy.setLast last)

/-- `case YY_END_OF_BUFFER`. -/
def YyGuts.endOfBuffer (yy : YyGuts) : Run (YyGoto × YyGuts) := do
  let amountOfMatchedText := yy.cBufP - yy.textPtr - 1
  let chBuf ← assign yy.chBuf yy.cBufP yy.holdChar
  -- a new buffer is empty, and so is what `yy_n_chars` says
  let status := if yy.status = .new then .normal else yy.status
  let yy := { yy with chBuf, status }
  if yy.cBufP ≤ yy.nChars then
    let yy := { yy with cBufP := yy.textPtr + amountOfMatchedText }
    let (state, yy) ← yy.previousState
    let (next, yy) ← yy.tryNulTrans state
    if next ≠ 0 then .ok (.yyMatch next (yy.cBufP + 1), { yy with cBufP := yy.cBufP + 1 })
    else .ok (.yyFindAction state yy.cBufP, yy)
  else
    let (act, yy) ← yy.getNextBuffer
    match act with
    | .endOfFile => .ok (.doAction none, { yy with cBufP := yy.textPtr })
    | .continueScan =>
      let yy := { yy with cBufP := yy.textPtr + amountOfMatchedText }
      let (state, yy) ← yy.previousState
      .ok (.yyMatch state yy.cBufP, yy)
    | .lastMatch =>
      let yy := { yy with cBufP := yy.nChars }
      let (state, yy) ← yy.previousState
      .ok (.yyFindAction state yy.cBufP, yy)

/-- From one label to the next. `yytext_ptr` is where the text begins all the time. -/
def YyGuts.turn (yy : YyGuts) : YyGoto → Run (YyGoto × YyGuts)
  | .yyMatch state cp => do
    let (state, cp, last) ← yyMatchCells (yy.chBuf.drop cp) state cp yy.last
    .ok (.yyFindAction state cp, yy.setLast last)
  | .yyFindAction state cp => do
    let (act, cp) := yyFindAction state cp yy.last
    let text := slice yy.chBuf yy.textPtr cp
    let yy ← yy.doBeforeAction cp
    if act = yyEndOfBuffer then yy.endOfBuffer
    else
      match yyRule act with
      | some rule => .ok (.doAction (some ⟨rule, text⟩), yy)
      | none => .error .exit
  | .doAction found => .ok (.doAction found, yy)

/-- The turns up to an action, with `fuel` of them at most. -/
def YyGuts.turns : Nat → YyGoto → YyGuts → Run (Option ScanToken × YyGuts)
  | _, .doAction found, yy => .ok (found, yy)
  | 0, _, _ => .error .fault
  | fuel + 1, label, yy => do
    let (label, yy) ← yy.turn label
    YyGuts.turns fuel label yy

/-- The search for the next token: the cell behind the text before it gets its byte back. -/
def YyGuts.nextToken (yy : YyGuts) : Run (Option ScanToken × YyGuts) := do
  let chBuf ← assign yy.chBuf yy.cBufP yy.holdChar
  let yy := { yy with chBuf, textPtr := yy.cBufP }
  yy.turns (4 * (yy.input.bytes.length + yy.nChars) + 8) (.yyMatch 1 yy.cBufP)

end ArmRunner
