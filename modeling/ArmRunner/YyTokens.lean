import ArmRunner.YySearch

namespace ArmRunner

open CRun Slice Lexer

/-- Where the loop at `yy_match` stops that goes on behind `text` in `rest`: at a NUL or at the mark,
or with a token. -/
inductive Stops (textPtr : Nat) (text rest : List UInt8) : Nat × Nat × (Nat × Nat) → Prop
  | nul {q r : List UInt8} {state : Nat} {last : Nat × Nat} (split : text ++ rest = q ++ r)
      (shorter : r.length ≤ rest.length) (follows : Follows q state last)
      (zero : ∀ c ∈ r.head?, c = 0) :
      Stops textPtr text rest (13, textPtr + q.length + 2, (3, textPtr + q.length + 1))
  | final {state cp act n : Nat} {last : Nat × Nat} {rule : ScanRule}
      (matched : ∀ s, yyMatch (text ++ rest ++ s) 1 0 (0, 0) = some (act, n)) (positive : 0 < n)
      (inside : n ≤ (text ++ rest).length) (other : act ≠ yyEndOfBuffer)
      (rule : yyRule act = some rule) (action : yyFindAction state cp last = (act, textPtr + n)) :
      Stops textPtr text rest (state, cp, last)

section cells

variable {w : List UInt8} {state textPtr : Nat} {last last' : Nat × Nat}

theorem yyMatchCells_nul (h : state ∈ yySearching) (d : UInt8) (cs : List UInt8) (cp : Nat)
    (last : Nat × Nat) :
    yyMatchCells (0 :: d :: cs) state cp last = .ok (13, cp + 2, (3, cp + 1)) := by
  have mark : yyTransition state (yyEc.getD (0 : UInt8).toNat 0) = some 3 := yyTransition_mark h
  rw [yyMatchCells, mark]
  dsimp only
  rw [if_pos (by decide), yyMatchCells, yyTransition_marked d]
  dsimp only
  rw [if_neg (by decide), if_pos (by decide)]

/-- The loop over what has been read, with the two NULs behind it. -/
theorem yyMatchCells_stops (follows : Follows w state last) (located : Located textPtr state last')
    (rest tail : List UInt8) :
    ∃ result, yyMatchCells (rest ++ 0 :: 0 :: tail) state (textPtr + w.length) last' = .ok result ∧
      Stops textPtr w rest result := by
  induction rest generalizing w state last last' with
  | nil =>
    exact ⟨_, yyMatchCells_nul follows.searching 0 tail _ _,
      .nul rfl le_rfl follows (by simp)⟩
  | cons c rest ih =>
    by_cases zero : c = 0
    · subst zero
      obtain ⟨d, cs, cells⟩ : ∃ d cs, rest ++ 0 :: 0 :: tail = d :: cs := by
        cases rest with
        | nil => exact ⟨0, _, rfl⟩
        | cons d rest => exact ⟨d, _, rfl⟩
      rw [List.cons_append, cells]
      exact ⟨_, yyMatchCells_nul follows.searching d cs _ _, .nul rfl le_rfl follows (by simp)⟩
    · obtain ⟨next, step, on⟩ := yyTransition_searching follows.searching c
      rw [List.cons_append, yyMatchCells, yyClass_of_ne zero, step]
      dsimp only
      rcases on with on | final
      · have base : yyBase.getD next 0 ≠ 14 := by
          rcases on with ⟨-, rfl⟩ | ⟨-, -, backing⟩
          · decide
          · exact yyBackingUp_base backing
        obtain ⟨result, run, stops⟩ := ih (follows.step step on)
          (located.step on follows.searching follows.dollar)
        rw [if_pos base]
        rw [List.length_append, List.length_singleton, ← Nat.add_assoc] at run
        refine ⟨result, run, ?_⟩
        have whole : w ++ [c] ++ rest = w ++ c :: rest := by simp
        cases stops with
        | nul split shorter follows zero =>
          exact .nul (whole ▸ split) (by rw [List.length_cons]; omega) follows zero
        | final matched positive inside other rule action =>
          exact .final (whole ▸ matched) positive (whole ▸ inside) other rule action
      · obtain ⟨act, rule, n, positive, inside, other, hrule, matched, action⟩ :=
          follows.final step final
        have base : yyBase.getD next 0 = 14 := by
          rcases final with final | ⟨rfl, -⟩
          · exact yyFinal_base final
          · decide
        rw [if_neg (not_not.mpr base)]
        refine ⟨_, rfl, .final ?_ positive ?_ other hrule (action textPtr last' located)⟩
        · intro s
          rw [List.append_assoc, List.cons_append]
          exact matched _
        · simp only [List.length_append, List.length_cons]
          omega

end cells

section holds

variable {yy : YyGuts} {text rest text' rest' : List UInt8}

theorem YyGuts.Holds.congr {yy' : YyGuts} (h : yy.Holds text rest) (chBuf : yy'.chBuf = yy.chBuf)
    (textPtr : yy'.textPtr = yy.textPtr) (nChars : yy'.nChars = yy.nChars)
    (bufSize : yy'.bufSize = yy.bufSize) (input : yy'.input = yy.input)
    (status : yy'.status = .eofPending → yy.status = .eofPending) : yy'.Holds text rest := by
  refine ⟨?_, ?_, ?_, ?_, ?_, ?_, fun pending => ?_⟩
  · rw [chBuf, textPtr]
    exact h.cells
  · rw [nChars, textPtr]
    exact h.nChars
  · rw [chBuf, bufSize]
    exact h.size
  · rw [bufSize]
    exact h.large
  · rw [bufSize]
    exact h.small
  · rw [input]
    exact h.stream
  · rw [input]
    exact h.closed (status pending)

/-- Only the pieces of the buffer behind the beginning of the text count. -/
theorem YyGuts.Holds.resplit (h : yy.Holds text rest) (same : text' ++ rest' = text ++ rest) :
    yy.Holds text' rest' := by
  have lengths := congrArg List.length same
  rw [List.length_append, List.length_append] at lengths
  obtain ⟨dead, tail, hdead, cells⟩ := h.cells
  refine ⟨⟨dead, tail, hdead, ?_⟩, ?_, h.size, h.large, h.small, ?_, h.closed⟩
  · rw [cells, ← List.append_assoc text, ← same, List.append_assoc]
  · have := h.nChars
    omega
  · have := h.stream
    omega

theorem YyGuts.Holds.slice_text (h : yy.Holds text rest) :
    slice yy.chBuf yy.textPtr (yy.textPtr + text.length) = text := by
  obtain ⟨dead, tail, hdead, cells⟩ := h.cells
  rw [cells, ← List.append_assoc]
  exact slice_middle hdead

theorem YyGuts.Holds.drop_text (h : yy.Holds text rest) :
    ∃ tail, yy.chBuf.drop (yy.textPtr + text.length) = rest ++ 0 :: 0 :: tail := by
  obtain ⟨dead, tail, hdead, cells⟩ := h.cells
  refine ⟨tail, ?_⟩
  rw [cells, ← List.append_assoc]
  exact List.drop_left' (by rw [List.length_append, hdead])

theorem YyGuts.Holds.inside (h : yy.Holds text rest) : yy.nChars + 2 ≤ yy.chBuf.length := by
  obtain ⟨dead, tail, hdead, cells⟩ := h.cells
  have := h.nChars
  rw [cells]
  simp only [List.length_append, List.length_cons]
  omega

/-- What the scanner has found does not reach behind what has been read. -/
theorem YyGuts.Holds.passed (h : yy.Holds [] (text ++ rest)) :
    YyGuts.Holds { yy with textPtr := yy.textPtr + text.length } [] rest := by
  obtain ⟨dead, tail, hdead, cells⟩ := h.cells
  have nChars := h.nChars
  have stream := h.stream
  rw [List.length_append] at nChars stream
  refine ⟨⟨dead ++ text, tail, by rw [List.length_append, hdead], ?_⟩, ?_, h.size, h.large,
    h.small, ?_, h.closed⟩
  · rw [cells]
    simp
  · rw [nChars]
    simp only [List.length_nil]
    omega
  · simp only [List.length_nil] at stream ⊢
    omega

end holds

/-- The scanner between two tokens: `p` is read and pending, once the cell behind the text has its
byte back. -/
def YyGuts.Rests (yy : YyGuts) (p : List UInt8) : Prop :=
  ∃ chBuf, assign yy.chBuf yy.cBufP yy.holdChar = .ok chBuf ∧
    YyGuts.Holds { yy with chBuf, textPtr := yy.cBufP } [] p

/-- All of `p` may be the beginning of a longer token. -/
def Waits (p : List UInt8) : Prop := ∃ state last, Follows p state last

/-- What has been read of the input, behind `p`: more is read only while all of it may be the
beginning of a token. -/
inductive Reads (p : List UInt8) (input : Connection) : List UInt8 → Connection → Prop
  | none : Reads p input p input
  | more {r : List UInt8} {c : Connection} (before : Reads p input r c) (waits : Waits r) (n : Nat) :
      Reads p input (r ++ (c.read n).1) (c.read n).2

/-- While a token is looked for in `p` and what comes behind it. -/
structure YyGuts.InText (yy : YyGuts) (p : List UInt8) (input : Connection)
    (text rest : List UInt8) : Prop where
  holds : yy.Holds text rest
  ordered : text ++ rest ++ yy.input.bytes = p ++ input.bytes
  read : Reads p input (text ++ rest) yy.input

/-- What the search for a token in `p` and what comes behind it finds. -/
inductive Finds (p : List UInt8) (input : Connection) : Option ScanToken → YyGuts → Prop
  | token {yy : YyGuts} {t : ScanToken} {p' : List UInt8}
      (token : yyToken (p ++ input.bytes) = some t) (positive : 0 < t.text.length)
      (rests : yy.Rests p') (ordered : t.text ++ p' ++ yy.input.bytes = p ++ input.bytes)
      (read : Reads p input (t.text ++ p') yy.input) : Finds p input (some t) yy
  | ended {yy : YyGuts} (empty : p ++ input.bytes = []) (rests : yy.Rests [])
      (left : yy.input.bytes = []) : Finds p input none yy

/-- The search at a label, with a bound on the turns that are left. -/
inductive Searching (p : List UInt8) (input : Connection) : YyGuts → YyGoto → Nat → Prop
  | yyMatch {yy : YyGuts} {w rest : List UInt8} {state cp : Nat} {last : Nat × Nat}
      (text : yy.InText p input w rest) (follows : Follows w state last)
      (located : Located yy.textPtr state yy.last) (here : cp = yy.textPtr + w.length) :
      Searching p input yy (.yyMatch state cp) (2 * rest.length + 4 * yy.input.bytes.length + 3)
  | endOfBuffer {yy : YyGuts} {w rest : List UInt8} {state : Nat} {last : Nat × Nat}
      (text : yy.InText p input w rest) (follows : Follows w state last)
      (zero : ∀ c ∈ rest.head?, c = 0) (located : yy.last = (3, yy.textPtr + w.length + 1)) :
      Searching p input yy (.yyFindAction 13 (yy.textPtr + w.length + 2))
        (2 * rest.length + 4 * yy.input.bytes.length + 2)
  | action {yy : YyGuts} {w rest : List UInt8} {state cp act n : Nat} {rule : ScanRule}
      (text : yy.InText p input w rest)
      (matched : yyMatch (p ++ input.bytes) 1 0 (0, 0) = some (act, n)) (positive : 0 < n)
      (inside : n ≤ (w ++ rest).length) (other : act ≠ yyEndOfBuffer)
      (rule : yyRule act = some rule) (action : yyFindAction state cp yy.last = (act, yy.textPtr + n)) :
      Searching p input yy (.yyFindAction state cp) 1
  | found {yy : YyGuts} {found : Option ScanToken} (finds : Finds p input found yy) :
      Searching p input yy (.doAction found) 0

section search

variable {yy : YyGuts} {p w rest : List UInt8} {input : Connection} {state : Nat}
  {last : Nat × Nat}

theorem YyGuts.InText.resplit {w' rest' : List UInt8} (h : yy.InText p input w rest)
    (same : w' ++ rest' = w ++ rest) : yy.InText p input w' rest' :=
  ⟨h.holds.resplit same, by rw [same, h.ordered], by rw [same]; exact h.read⟩

theorem YyGuts.InText.setLast (h : yy.InText p input w rest) (last : Nat × Nat) :
    (yy.setLast last).InText p input w rest :=
  ⟨h.holds.congr rfl rfl rfl rfl rfl id, h.ordered, h.read⟩

theorem turn_yyMatch (text : yy.InText p input w rest) (follows : Follows w state last)
    (located : Located yy.textPtr state yy.last) :
    ∃ label yy' n, yy.turn (.yyMatch state (yy.textPtr + w.length)) = .ok (label, yy') ∧
      Searching p input yy' label n ∧
      n < 2 * rest.length + 4 * yy.input.bytes.length + 3 := by
  obtain ⟨tail, cells⟩ := text.holds.drop_text
  obtain ⟨⟨state', cp, last'⟩, run, stops⟩ := yyMatchCells_stops follows located rest tail
  refine ⟨.yyFindAction state' cp, yy.setLast last', ?_⟩
  rw [YyGuts.turn, cells, run, ok_bind]
  cases stops with
  | nul split shorter follows' zero =>
    refine ⟨_, rfl, .endOfBuffer ((text.resplit split.symm).setLast _) follows' zero rfl, ?_⟩
    dsimp only [YyGuts.setLast]
    omega
  | final matched positive inside other rule action =>
    refine ⟨1, rfl, .action (text.setLast last') ?_ positive inside other rule action, by omega⟩
    rw [← text.ordered]
    exact matched _

theorem doBeforeAction_eq {cp : Nat} (inside : cp < yy.chBuf.length) : yy.doBeforeAction cp =
    .ok { yy with chBuf := yy.chBuf.set cp 0, holdChar := yy.chBuf[cp], cBufP := cp } := by
  rw [YyGuts.doBeforeAction, fetch_of_lt inside, ok_bind, assign_of_lt _ inside, ok_bind]

/-- The byte that the NUL behind the text replaces. -/
theorem assign_restores {α : Type} {xs : List α} {i : Nat} (inside : i < xs.length) (x : α) :
    assign (xs.set i x) i xs[i] = .ok xs := by
  rw [assign_of_lt _ (by rwa [List.length_set]), List.set_set, List.set_getElem_self]

theorem turn_action {cp act n : Nat} {rule : ScanRule} (text : yy.InText p input w rest)
    (matched : yyMatch (p ++ input.bytes) 1 0 (0, 0) = some (act, n)) (positive : 0 < n)
    (inside : n ≤ (w ++ rest).length) (other : act ≠ yyEndOfBuffer) (hrule : yyRule act = some rule)
    (action : yyFindAction state cp yy.last = (act, yy.textPtr + n)) :
    ∃ found yy', yy.turn (.yyFindAction state cp) = .ok (.doAction found, yy') ∧
      Finds p input found yy' := by
  -- the text of the token, and what is read behind it
  obtain ⟨t, p', split, length⟩ : ∃ t p', w ++ rest = t ++ p' ∧ t.length = n :=
    ⟨_, _, (List.take_append_drop n (w ++ rest)).symm, List.length_take_of_le inside⟩
  have whole := text.resplit split.symm
  have found := whole.holds.slice_text
  rw [length] at found
  have nChars := whole.holds.nChars
  have bound := whole.holds.inside
  have here : yy.textPtr + n < yy.chBuf.length := by omega
  rw [YyGuts.turn, action]
  simp only [found]
  rw [doBeforeAction_eq here, ok_bind, if_neg other, hrule]
  refine ⟨some ⟨rule, t⟩, _, rfl, .token ?_ (by dsimp only; omega) ?_ whole.ordered whole.read⟩
  · have front : (p ++ input.bytes).take n = t := by
      rw [← whole.ordered, List.append_assoc, List.take_left' length]
    rw [yyToken, matched]
    simp only [Option.bind_eq_bind, Option.bind_some, hrule, front]
  · have pending : yy.Holds [] (t ++ p') := text.holds.resplit split.symm
    have passed := pending.passed
    rw [length] at passed
    exact ⟨yy.chBuf, assign_restores here 0, passed.congr rfl rfl rfl rfl rfl id⟩

/-- The text up to `yy_c_buf_p` leads to the same state again. -/
theorem previousState_spec (holds : yy.Holds w rest) (here : yy.cBufP = yy.textPtr + w.length)
    (follows : Follows w state last) : ∃ last', yy.previousState = .ok (state, yy.setLast last') ∧
      Located yy.textPtr state last' := by
  obtain ⟨last', run, located⟩ := follows.again yy.textPtr yy.last
  refine ⟨last', ?_, located⟩
  rw [YyGuts.previousState, here, holds.slice_text, run, ok_bind]

/-- A NUL that is a byte of the text: the search goes on behind it, or backs up. -/
theorem endOfBuffer_nul {r : List UInt8} {chBuf : List UInt8} {status : YyBufferStatus}
    (restored : assign yy.chBuf yy.cBufP yy.holdChar = .ok chBuf)
    (normal : status = if yy.status = .new then .normal else yy.status)
    (text : YyGuts.InText { yy with chBuf, status } p input w (0 :: r))
    (follows : Follows w state last) (here : yy.cBufP = yy.textPtr + w.length + 1) :
    ∃ label yy' n, yy.endOfBuffer = .ok (label, yy') ∧ Searching p input yy' label n ∧
      n < 2 * (0 :: r : List UInt8).length + 4 * yy.input.bytes.length + 2 := by
  have nChars := text.holds.nChars
  have amount : yy.cBufP - yy.textPtr - 1 = w.length := by omega
  have known : yy.cBufP ≤ yy.nChars := by
    dsimp only at nChars
    rw [nChars, List.length_cons]
    omega
  set y1 : YyGuts := { yy with chBuf, status, cBufP := yy.textPtr + w.length } with hy1
  have text1 : y1.InText p input w (0 :: r) :=
    ⟨text.holds.congr rfl rfl rfl rfl rfl id, text.ordered, text.read⟩
  obtain ⟨last1, previous, located⟩ := previousState_spec text1.holds rfl follows
  obtain ⟨next, step, nonzero, on⟩ := yyTransition_nul follows.searching
  set last2 := if yyAccept.getD state 0 ≠ 0 then (state, yy.textPtr + w.length) else last1
  have tried : (y1.setLast last1).tryNulTrans state =
      .ok (if next = 13 then 0 else next, y1.setLast last2) := by
    rw [YyGuts.tryNulTrans, step]
    rfl
  rw [YyGuts.endOfBuffer, restored, ok_bind]
  dsimp only
  rw [if_pos known, ← normal, amount, ← hy1, previous, ok_bind]
  dsimp only
  rw [tried, ok_bind]
  have split : w ++ [0] ++ r = w ++ 0 :: r := by simp
  have fewer : 2 * r.length + 4 * yy.input.bytes.length + 3 <
      2 * (0 :: r : List UInt8).length + 4 * yy.input.bytes.length + 2 := by
    rw [List.length_cons]
    omega
  have longer (last : Nat × Nat) : YyGuts.InText
      { y1.setLast last with cBufP := yy.textPtr + w.length + 1 } p input (w ++ [0]) r :=
    have text2 := (text1.resplit split).setLast last
    ⟨text2.holds.congr rfl rfl rfl rfl rfl id, text2.ordered, text2.read⟩
  have count : yy.textPtr + (w ++ [0]).length = yy.textPtr + w.length + 1 := by simp; omega
  rcases on with on | ⟨rfl, rfl⟩ | ⟨rfl, first⟩
  · have goes : next ≠ 13 := by
      rintro rfl
      exact absurd on.2.2 (by decide)
    have on' : state = 1 ∧ next = 6 ∨ state ≠ 1 ∧ state ≠ 4 ∧ next ∈ yyBackingUp := Or.inr on
    rw [if_neg goes]
    dsimp only
    rw [if_pos nonzero]
    exact ⟨_, _, _, rfl, .yyMatch (longer last2) (follows.step (c := 0) step on')
      (located.step on' follows.searching follows.dollar) count.symm, fewer⟩
  · -- a NUL at the beginning is a token, but the scanner sees that only behind it
    have none : w = [] := follows.first.mp rfl
    subst none
    have goes : (4 : Nat) ≠ 13 := by decide
    rw [if_neg goes]
    dsimp only
    rw [if_pos nonzero]
    exact ⟨_, _, _, rfl, .yyMatch (longer last2) follows_nul
      (fun backing => absurd backing (by decide)) count.symm, fewer⟩
  · have nonempty : w ≠ [] := fun none => first (follows.first.mpr none)
    obtain ⟨n, positive, short, here, there⟩ := follows.ends nonempty
    rw [if_pos rfl]
    dsimp only
    rw [if_neg (not_not.mpr rfl)]
    refine ⟨_, _, 1, rfl, .action (text1.setLast last2) ?_ positive ?_ (by decide)
      (show yyRule 4 = some .character from rfl) (there yy.textPtr last2 ?_), ?_⟩
    · rw [← text.ordered, List.append_assoc, List.cons_append, follows.jammed (c := 0) step, here]
    · rw [List.length_append]
      exact Nat.le_add_right_of_le short
    · intro backing
      exact (if_neg (not_not.mpr (yyBackingUp_accept backing))).trans (located backing)
    · omega

/-- The mark at the end of the buffer: the search goes on in what is read, or the text so far is
what there is to match. -/
theorem endOfBuffer_refill {chBuf : List UInt8} {status : YyBufferStatus}
    (restored : assign yy.chBuf yy.cBufP yy.holdChar = .ok chBuf)
    (normal : status = if yy.status = .new then .normal else yy.status)
    (text : YyGuts.InText { yy with chBuf, status } p input w [])
    (follows : Follows w state last) (here : yy.cBufP = yy.textPtr + w.length + 1) :
    ∃ label yy' n, yy.endOfBuffer = .ok (label, yy') ∧ Searching p input yy' label n ∧
      n < 4 * yy.input.bytes.length + 2 := by
  have nChars := text.holds.nChars
  have ordered := text.ordered
  dsimp only at nChars ordered
  rw [List.length_nil, Nat.add_zero] at nChars
  rw [List.append_nil] at ordered
  have amount : yy.cBufP - yy.textPtr - 1 = w.length := by omega
  have before := text.read
  rw [List.append_nil] at before
  obtain ⟨act, y1, run, next⟩ := getNextBuffer_spec text.holds (by dsimp only; omega)
  have unknown : ¬yy.cBufP ≤ yy.nChars := by omega
  rw [YyGuts.endOfBuffer, restored, ok_bind]
  dsimp only
  rw [if_neg unknown, ← normal, amount, run, ok_bind]
  cases next with
  | continueScan holds more behind read =>
    rename_i bytes n
    dsimp only at behind read ⊢
    have reads := before.more ⟨state, last, follows⟩ n
    dsimp only at reads
    rw [read] at reads
    set y2 : YyGuts := { y1 with cBufP := y1.textPtr + w.length } with hy2
    have holds2 : y2.Holds w bytes := holds.congr rfl rfl rfl rfl rfl id
    obtain ⟨last2, previous, located⟩ := previousState_spec holds2 rfl follows
    have text2 : y2.InText p input w bytes :=
      ⟨holds2, by rw [List.append_assoc, ← ordered, ← behind], reads⟩
    have positive := List.length_pos_of_ne_nil more
    have lengths := congrArg List.length behind
    rw [List.length_append] at lengths
    rw [previous, ok_bind]
    refine ⟨_, _, _, rfl, .yyMatch (text2.setLast last2) follows located rfl, ?_⟩
    have same : (y2.setLast last2).input = y1.input := rfl
    rw [same]
    omega
  | lastMatch holds nonempty ended left =>
    dsimp only at ended ⊢
    set y2 : YyGuts := { y1 with cBufP := y1.nChars } with hy2
    have holds2 : y2.Holds w [] := holds.congr rfl rfl rfl rfl rfl id
    obtain ⟨last2, previous, located⟩ := previousState_spec holds2 holds.nChars follows
    obtain ⟨n, positive, short, here, there⟩ := follows.ends nonempty
    have text2 : y2.InText p input w [] := by
      refine ⟨holds2, ?_, ?_⟩
      · rw [List.append_nil, ← ordered]
        exact congrArg (w ++ Connection.bytes ·) left
      · rw [List.append_nil]
        exact left ▸ before
    have whole := follows.rest []
    have action : yyFindAction state y2.cBufP last2 = (4, y2.textPtr + n) := by
      rw [← there y2.textPtr last2 located]
      exact congrArg (yyFindAction state · last2) holds.nChars
    rw [previous, ok_bind]
    refine ⟨_, _, 1, rfl, .action (text2.setLast last2) ?_ positive ?_ (by decide)
      (show yyRule 4 = some .character from rfl) action, by omega⟩
    · rw [← ordered, ended, whole, yyMatch, here]
    · rw [List.append_nil]
      exact short
  | endOfFile holds none ended left hold =>
    subst none
    dsimp only at ended ⊢
    refine ⟨_, _, 0, rfl, .found (.ended ?_ ?_ left), by omega⟩
    · rw [← ordered, ended]
      rfl
    · obtain ⟨dead, tail, hdead, cells⟩ := holds.cells
      have same : assign y1.chBuf y1.textPtr y1.holdChar = .ok y1.chBuf := by
        rw [hold, cells, ← hdead]
        exact assign_append_cons dead (0 :: tail) 0 0
      exact ⟨y1.chBuf, same, holds.congr rfl rfl rfl rfl rfl id⟩

theorem turn_endOfBuffer (text : yy.InText p input w rest) (follows : Follows w state last)
    (zero : ∀ c ∈ rest.head?, c = 0) (located : yy.last = (3, yy.textPtr + w.length + 1)) :
    ∃ label yy' n, yy.turn (.yyFindAction 13 (yy.textPtr + w.length + 2)) = .ok (label, yy') ∧
      Searching p input yy' label n ∧
      n < 2 * rest.length + 4 * yy.input.bytes.length + 2 := by
  have nChars := text.holds.nChars
  have bound := text.holds.inside
  have here : yy.textPtr + w.length + 1 < yy.chBuf.length := by omega
  have marked : yyFindAction 13 (yy.textPtr + w.length + 2) yy.last =
      (yyEndOfBuffer, yy.textPtr + w.length + 1) := by
    rw [located]
    rfl
  rw [YyGuts.turn, marked]
  dsimp only
  rw [doBeforeAction_eq here, ok_bind, if_pos rfl]
  have normal (h : (if yy.status = .new then .normal else yy.status) = YyBufferStatus.eofPending) :
      yy.status = .eofPending := by
    split_ifs at h
    exact h
  have text' : YyGuts.InText
      { yy with
        chBuf := yy.chBuf
        status := if yy.status = .new then .normal else yy.status
        holdChar := yy.chBuf[yy.textPtr + w.length + 1]
        cBufP := yy.textPtr + w.length + 1 } p input w rest :=
    ⟨text.holds.congr rfl rfl rfl rfl rfl normal, text.ordered, text.read⟩
  cases rest with
  | nil =>
    rw [List.length_nil, Nat.mul_zero, Nat.zero_add]
    exact endOfBuffer_refill (assign_restores here 0) rfl text' follows rfl
  | cons c r =>
    obtain rfl := zero c rfl
    exact endOfBuffer_nul (assign_restores here 0) rfl text' follows rfl

/-- Every turn brings the search nearer to its end. -/
theorem Searching.turn {label : YyGoto} {n : Nat} (h : Searching p input yy label (n + 1)) :
    ∃ label' yy' m, yy.turn label = .ok (label', yy') ∧ Searching p input yy' label' m ∧ m ≤ n := by
  generalize hn : n + 1 = k at h
  cases h with
  | yyMatch text follows located here =>
    obtain ⟨label', yy', m, run, searching, fewer⟩ := turn_yyMatch text follows located
    rw [here]
    exact ⟨label', yy', m, run, searching, by omega⟩
  | endOfBuffer text follows zero located =>
    obtain ⟨label', yy', m, run, searching, fewer⟩ := turn_endOfBuffer text follows zero located
    exact ⟨label', yy', m, run, searching, by omega⟩
  | action text matched positive inside other rule action =>
    obtain ⟨found, yy', run, finds⟩ := turn_action text matched positive inside other rule action
    exact ⟨_, yy', 0, run, .found finds, Nat.zero_le n⟩
  | found finds => cases hn

theorem Searching.turns {label : YyGoto} {fuel n : Nat} (h : Searching p input yy label n)
    (enough : n ≤ fuel) : ∃ found yy', yy.turns fuel label = .ok (found, yy') ∧
      Finds p input found yy' := by
  induction fuel generalizing yy label n with
  | zero =>
    obtain rfl : n = 0 := by omega
    cases h with
    | found finds => exact ⟨_, yy, rfl, finds⟩
  | succ fuel ih =>
    cases n with
    | zero =>
      cases h with
      | found finds => exact ⟨_, yy, rfl, finds⟩
    | succ n =>
      obtain ⟨label', yy', m, run, searching, fewer⟩ := h.turn
      obtain ⟨found, yy'', rest, finds⟩ := ih searching (by omega)
      refine ⟨found, yy'', ?_, finds⟩
      cases label with
      | yyMatch state cp => exact (congrArg (· >>= _) run).trans rest
      | yyFindAction state cp => exact (congrArg (· >>= _) run).trans rest
      | doAction found => cases h

/-- The next token is found in what is pending and what still arrives. -/
theorem YyGuts.Rests.nextToken (h : yy.Rests p) :
    ∃ found yy', yy.nextToken = .ok (found, yy') ∧ Finds p yy.input found yy' := by
  obtain ⟨chBuf, restored, holds⟩ := h
  have nChars := holds.nChars
  dsimp only at nChars
  rw [List.length_nil, Nat.add_zero] at nChars
  have start : Searching p yy.input { yy with chBuf, textPtr := yy.cBufP } (.yyMatch 1 yy.cBufP)
      (2 * p.length + 4 * yy.input.bytes.length + 3) :=
    .yyMatch ⟨holds, rfl, .none⟩ follows_nil
      (fun backing => absurd backing (by decide)) rfl
  rw [YyGuts.nextToken, restored, ok_bind]
  exact start.turns (by dsimp only; omega)

/-- No packet is complete while all of the text may be the beginning of one. -/
theorem Waits.no_packet (h : Waits p) {t : ScanToken} (found : t ∈ scan p) : t.rule ≠ .packet := by
  obtain ⟨state, last, follows⟩ := h
  intro packet
  obtain ⟨c, s, rfl⟩ := List.exists_cons_of_ne_nil (show p ≠ [] by rintro rfl; simp [scan] at found)
  obtain ⟨n, positive, -, here, -⟩ := follows.ends (List.cons_ne_nil c s)
  obtain ⟨t1, first, longest⟩ := yyToken_longest c s
  have matched := follows.rest []
  rw [List.append_nil, yyMatch, here] at matched
  have character : t1 = ⟨.character, (c :: s).take n⟩ := by
    rw [yyToken, matched] at first
    exact (Option.some.inj first).symm
  have rest : scan (c :: s) = t1 :: scan ((c :: s).drop n) :=
    tokens_of_longest longest (by rw [character, List.take_append_drop])
  rw [rest] at found
  rcases List.mem_cons.mp found with rfl | later
  · rw [character] at packet
    cases packet
  · have infix' := tokens_infix later
    have whole := tokens_firstMatch later
    have form : IsPacket t.text := by
      rcases firstMatch_ne_none.mp (by rw [whole]; simp) with form | ⟨d, one⟩
      · exact form
      · rw [one, firstMatch_byte, packet] at whole
        have other : ∀ d, byteRule d ≠ .packet := by
          intro d
          rw [byteRule]
          split_ifs <;> decide
        exact absurd (Option.some.inj whole) (other d)
    obtain ⟨q, h1, h2, -, -, -, text⟩ := form
    have dollar : 0x24 ∈ t.text := by
      rw [text]
      simp [packetText]
    have behind : (c :: s).drop n = s.drop (n - 1) := by
      obtain ⟨m, rfl⟩ : ∃ m, n = m + 1 := ⟨n - 1, by omega⟩
      rfl
    rw [behind] at infix'
    exact follows.plain (List.mem_of_mem_drop (infix'.subset dollar))

end search

section runs

variable {p : List UInt8} {input : Connection} {found : Option ScanToken} {yy : YyGuts}

/-- A search takes the first token of what is pending and still arrives. -/
theorem Finds.scan (h : Finds p input found yy) : ∃ p', yy.Rests p' ∧
    match found with
    | none => ArmRunner.scan (p ++ input.bytes) = [] ∧ p' ++ yy.input.bytes = []
    | some t => ArmRunner.scan (p ++ input.bytes) = t :: ArmRunner.scan (p' ++ yy.input.bytes) ∧
        (p' ++ yy.input.bytes).length < (p ++ input.bytes).length := by
  cases h with
  | token token positive rests ordered read =>
    rename_i t p'
    have lengths := congrArg List.length ordered
    rw [List.append_assoc, List.length_append] at lengths
    obtain ⟨c, s, cons⟩ := List.exists_cons_of_length_pos
      (show 0 < (p ++ input.bytes).length by omega)
    obtain ⟨t', token', longest⟩ := yyToken_longest c s
    rw [cons] at token ordered
    obtain rfl := Option.some.inj (token'.symm.trans token)
    refine ⟨p', rests, ?_, by omega⟩
    rw [cons]
    exact tokens_of_longest longest (by rw [← ordered, List.append_assoc])
  | ended empty rests left =>
    refine ⟨[], rests, ?_, by rw [left]; rfl⟩
    rw [empty]
    rfl

/-- Where a packet is complete in the first pieces that arrive, none of the others is read. -/
theorem Reads.pieces {r : List UInt8} {c : Connection} {ps qs : List (List UInt8)} {t : ScanToken}
    (h : Reads p input r c) (pieces : input.pieces = ps ++ qs)
    (complete : t ∈ ArmRunner.scan (p ++ ps.flatten)) (packet : t.rule = .packet) :
    ∃ ps', c.pieces = ps' ++ qs ∧ r ++ ps'.flatten = p ++ ps.flatten := by
  induction h with
  | none => exact ⟨ps, pieces, rfl⟩
  | @more r c before waits n ih =>
    obtain ⟨ps', left, whole⟩ := ih
    cases ps' with
    | nil =>
      rw [List.flatten_nil, List.append_nil] at whole
      exact absurd packet (waits.no_packet (whole ▸ complete))
    | cons q ps' =>
      obtain ⟨first, rest⟩ := Connection.read_cons (n := n) left
      rw [List.append_eq] at rest
      rw [first, rest, ← whole, List.flatten_cons]
      split_ifs with longer
      · refine ⟨q.drop n :: ps', rfl, ?_⟩
        rw [List.flatten_cons, List.append_assoc, ← List.append_assoc (q.take n),
          List.take_append_drop]
      · refine ⟨ps', rfl, ?_⟩
        rw [List.take_of_length_le (Nat.le_of_not_lt longer), List.append_assoc]

/-- The tokens up to a packet are found without a read of what comes behind it. -/
theorem Finds.prompt (h : Finds p input found yy) {ps qs : List (List UInt8)} {t : ScanToken}
    (pieces : input.pieces = ps ++ qs) (complete : t ∈ ArmRunner.scan (p ++ ps.flatten))
    (packet : t.rule = .packet) : ∃ t' p' ps', found = some t' ∧ yy.Rests p' ∧
      yy.input.pieces = ps' ++ qs ∧
      ArmRunner.scan (p ++ ps.flatten) = t' :: ArmRunner.scan (p' ++ ps'.flatten) ∧
      (p' ++ ps'.flatten).length < (p ++ ps.flatten).length := by
  have bytes : p ++ input.bytes = p ++ ps.flatten ++ qs.flatten := by
    rw [Connection.bytes, pieces, List.flatten_append, List.append_assoc]
  cases h with
  | token token positive rests ordered read =>
    rename_i t1 p1
    obtain ⟨ps', left, whole⟩ := read.pieces pieces complete packet
    rw [List.append_assoc] at whole
    have lengths := congrArg List.length whole
    rw [List.length_append] at lengths
    obtain ⟨c, s, cons⟩ := List.exists_cons_of_length_pos
      (show 0 < (p ++ ps.flatten).length by omega)
    rw [bytes, cons, List.cons_append] at token
    obtain ⟨t2, token', longest⟩ := yyToken_longest c (s ++ qs.flatten)
    obtain rfl := Option.some.inj (token'.symm.trans token)
    have front : Longest scannerRules (c :: s) t2 :=
      longest.front (r := qs.flatten) (by rw [← cons, ← whole]; exact List.prefix_append _ _)
    refine ⟨t2, p1, ps', rfl, rests, left, ?_, by omega⟩
    rw [cons]
    exact tokens_of_longest front (by rw [← cons, whole])
  | ended empty rests left =>
    rw [bytes, List.append_eq_nil_iff] at empty
    rw [empty.1] at complete
    cases complete

theorem YyGuts.start_rests (fresh : Nat → UInt8) {input : Connection}
    (small : input.bytes.length + 2 < 2 ^ 30) : (YyGuts.start fresh input).Rests [] := by
  have int : yyBufSize + 2 < 2 ^ 31 := by decide
  refine ⟨_, rfl, ⟨[], _, rfl, rfl⟩, rfl, ?_, Nat.le_refl _, int, ?_, ?_⟩
  · simp [YyGuts.start]
  · simpa [YyGuts.start] using small
  · intro pending
    cases pending

/-- The tokens that the scanner finds up to the end of the input, with `n` calls at most. -/
def YyGuts.tokens : Nat → YyGuts → Run (List ScanToken × YyGuts)
  | 0, _ => .error .fault
  | n + 1, yy => do
    let (found, yy) ← yy.nextToken
    match found with
    | none => .ok ([], yy)
    | some t => do
      let (ts, yy) ← YyGuts.tokens n yy
      .ok (t :: ts, yy)

theorem YyGuts.Rests.tokens {n : Nat} (h : yy.Rests p) (enough : (p ++ yy.input.bytes).length < n) :
    ∃ yy', yy.tokens n = .ok (ArmRunner.scan (p ++ yy.input.bytes), yy') := by
  induction n generalizing p yy with
  | zero => omega
  | succ n ih =>
    obtain ⟨found, y1, run, finds⟩ := h.nextToken
    obtain ⟨p1, rests, step⟩ := finds.scan
    rw [YyGuts.tokens, run, ok_bind]
    cases found with
    | none => exact ⟨y1, by rw [step.1]⟩
    | some t =>
      obtain ⟨first, shorter⟩ := step
      obtain ⟨y2, later⟩ := ih rests (by omega)
      exact ⟨y2, by dsimp only; rw [later, ok_bind, first]⟩

/-- However the bytes arrive, the scanner finds the tokens of the rules in all of them, and it reads
and writes nothing outside its buffer. -/
theorem yyTokens_eq_scan (fresh : Nat → UInt8) (input : Connection)
    (small : input.bytes.length + 2 < 2 ^ 30) :
    ∃ yy, (YyGuts.start fresh input).tokens (input.bytes.length + 1) =
      .ok (ArmRunner.scan input.bytes, yy) :=
  (YyGuts.start_rests fresh small).tokens (Nat.lt_succ_self _)

/-- A packet that arrives in four pieces, behind a byte of its own. -/
theorem yyTokens_eq_scan_pieces : ∃ yy, (YyGuts.start (fun _ => 0xcc)
      ⟨[[0x2b, 0x24], [0x4f], [0x4b, 0x23, 0x39], [0x61]], by decide⟩).tokens 8 =
    .ok (ArmRunner.scan [0x2b, 0x24, 0x4f, 0x4b, 0x23, 0x39, 0x61], yy) :=
  yyTokens_eq_scan _ _ (by decide)

end runs

end ArmRunner
