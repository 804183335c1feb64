import ArmRunner.YyBuffer

namespace ArmRunner

open CRun Slice

/-- The buffer holds the text of the token that is looked for, what has been read behind it, and
the two NULs that mark the end. -/
structure YyGuts.Holds (yy : YyGuts) (text rest : List UInt8) : Prop where
  cells : ∃ dead tail, dead.length = yy.textPtr ∧
    yy.chBuf = dead ++ (text ++ (rest ++ 0 :: 0 :: tail))
  nChars : yy.nChars = yy.textPtr + text.length + rest.length
  size : yy.chBuf.length = yy.bufSize + 2
  large : yyBufSize ≤ yy.bufSize
  small : yy.bufSize + 2 < 2 ^ 31
  stream : text.length + rest.length + yy.input.bytes.length + 2 < 2 ^ 30
  closed : yy.status = .eofPending → yy.input.bytes = []

theorem growBufSize_returns {n size : Nat} (positive : 0 < size) (int : size + 2 < 2 ^ 31)
    (room : n + 2 < 2 ^ 30) :
    ∃ size', growBufSize n size = some size' ∧ size ≤ size' ∧ size' + 2 < 2 ^ 31 ∧
      n + 1 < size' := by
  have ends : ∃ size', growBufSize n size = some size' ∧
      (size ≤ size' ∧ size' + 2 < 2 ^ 31) ∧ (decide (size' ≤ n + 1)) = false := by
    apply whileLoop_total (fun s => size ≤ s ∧ s + 2 < 2 ^ 31) (fun s => n + 2 - s)
    · exact ⟨Nat.le_refl size, int⟩
    · omega
    · rintro s ⟨low, high⟩ more
      have short := of_decide_eq_true more
      refine ⟨2 * s, by rw [if_pos (by omega)], ⟨by omega, by omega⟩, by omega⟩
  obtain ⟨size', run, ⟨low, high⟩, stop⟩ := ends
  have := of_decide_eq_false stop
  exact ⟨size', run, low, high, by omega⟩

section refill

variable {yy : YyGuts} {text old : List UInt8}

theorem realloc_length (h : yy.chBuf.length = yy.bufSize + 2) {size : Nat}
    (larger : yy.bufSize ≤ size) : (yy.realloc size).chBuf.length = size + 2 := by
  simp only [YyGuts.realloc, List.length_append, List.length_map, List.length_range]
  omega

/-- The buffer when it has been made large enough. -/
theorem grown (front : yy.chBuf = text ++ old) (size : yy.chBuf.length = yy.bufSize + 2)
    {n : Nat} (larger : yy.bufSize ≤ n) :
    ∃ old', (if n = yy.bufSize then yy else yy.realloc n) =
        { yy with chBuf := text ++ old', bufSize := n } ∧
      (text ++ old').length = n + 2 := by
  split_ifs with same
  · refine ⟨old, ?_, by rw [← front, size, same]⟩
    rw [same, ← front]
  · have length := realloc_length size larger
    rw [YyGuts.realloc, front, List.append_assoc] at length
    refine ⟨_, ?_, length⟩
    rw [YyGuts.realloc, front, List.append_assoc]

/-- The buffer between the read and the marks: the text, what has been read, and room. -/
structure YyGuts.Filled (yy : YyGuts) (text bytes : List UInt8) : Prop where
  cells : ∃ behind, yy.chBuf = text ++ bytes ++ behind
  nChars : yy.nChars = bytes.length
  size : yy.chBuf.length = yy.bufSize + 2
  large : yyBufSize ≤ yy.bufSize
  small : yy.bufSize + 2 < 2 ^ 31
  room : text.length + bytes.length ≤ yy.bufSize

/-- What is read comes behind the text. -/
theorem readBuffer_filled (front : yy.chBuf = text ++ old)
    (size : yy.chBuf.length = yy.bufSize + 2) (large : yyBufSize ≤ yy.bufSize)
    (small : yy.bufSize + 2 < 2 ^ 31) (stream : text.length + 2 < 2 ^ 30)
    (fits : text.length ≤ yy.bufSize) (closed : yy.status = .eofPending → yy.input.bytes = []) :
    ∃ bytes yy', yy.readBuffer text.length = .ok yy' ∧ yy'.Filled text bytes ∧
      bytes ++ yy'.input.bytes = yy.input.bytes ∧
      (bytes = [] → yy.input.bytes = [] ∧ yy'.input = yy.input) ∧
      (bytes ≠ [] → ∃ n, yy.input.read n = (bytes, yy'.input)) ∧ yy'.status = yy.status := by
  unfold YyGuts.readBuffer
  by_cases pending : yy.status = .eofPending
  · have nothing := closed pending
    rw [if_pos pending]
    refine ⟨[], _, rfl, ⟨⟨old, ?_⟩, rfl, size, large, small, ?_⟩, rfl, fun _ => ⟨nothing, rfl⟩,
      fun more => absurd rfl more, rfl⟩
    · rw [List.append_nil]
      exact front
    · simpa using fits
  · have positive : 0 < yy.bufSize := by
      simp only [yyBufSize] at large
      omega
    obtain ⟨n, grow, larger, int, room⟩ := growBufSize_returns positive small stream
    obtain ⟨old', buffer, length⟩ := grown front size larger
    rw [if_neg pending, grow]
    simp only [buffer]
    have most := yy.input.read_length (min (n - text.length - 1) yyReadBufSize)
    have ordered := yy.input.read_bytes (min (n - text.length - 1) yyReadBufSize)
    have empty := @Connection.read_eq_nil yy.input (min (n - text.length - 1) yyReadBufSize)
      (by simp only [yyReadBufSize]; omega)
    generalize hread : yy.input.read (min (n - text.length - 1) yyReadBufSize) = read at *
    obtain ⟨bytes, input⟩ := read
    dsimp only at most ordered empty ⊢
    have short : bytes.length ≤ old'.length := by
      rw [List.length_append] at length
      omega
    have split : text ++ old' = text ++ (old'.take bytes.length ++ old'.drop bytes.length) := by
      rw [List.take_append_drop]
    rw [split, assignAll_append _ _ _ (by simp; omega), ok_bind]
    refine ⟨bytes, _, rfl, ⟨⟨old'.drop bytes.length, (List.append_assoc _ _ _).symm⟩, rfl, ?_, ?_,
      int, ?_⟩, ordered, empty, fun _ => ⟨_, hread⟩, rfl⟩
    · simp only [List.length_append, List.length_drop] at length ⊢
      omega
    · dsimp only
      omega
    · dsimp only
      omega

theorem assign_marks (front : List UInt8) {behind : List UInt8} (room : 2 ≤ behind.length) :
    ∃ xs tail, assign (front ++ behind) front.length 0 = .ok xs ∧
      assign xs (front.length + 1) 0 = .ok (front ++ 0 :: 0 :: tail) ∧
      (front ++ 0 :: 0 :: tail).length = (front ++ behind).length := by
  obtain ⟨a, behind, rfl⟩ := List.exists_cons_of_length_pos (show 0 < behind.length by omega)
  obtain ⟨b, tail, rfl⟩ := List.exists_cons_of_length_pos
    (show 0 < behind.length by simp at room; omega)
  have second := assign_append_cons (front ++ [0]) tail b (0 : UInt8)
  rw [List.length_append, List.length_singleton, List.append_assoc, List.append_assoc] at second
  exact ⟨_, tail, assign_append_cons _ _ _ _, second, by simp⟩

theorem YyGuts.Filled.marked {bytes : List UInt8} (h : yy.Filled text bytes)
    (stream : text.length + bytes.length + yy.input.bytes.length + 2 < 2 ^ 30)
    (closed : yy.status = .eofPending → yy.input.bytes = []) :
    ∃ yy', yy.markEnd text.length = .ok yy' ∧ yy'.Holds text bytes ∧ yy'.input = yy.input ∧
      yy'.holdChar = yy.holdChar := by
  obtain ⟨⟨behind, cells⟩, nChars, size, large, small, room⟩ := h
  have fits : ¬yy.bufSize < yy.nChars + text.length := by omega
  have marks : 2 ≤ behind.length := by
    rw [cells, List.length_append, List.length_append] at size
    omega
  obtain ⟨xs, tail, first, second, same⟩ := assign_marks (text ++ bytes) marks
  have last : yy.nChars + text.length = (text ++ bytes).length := by
    rw [List.length_append]
    omega
  unfold YyGuts.markEnd
  simp only [if_neg fits]
  rw [last, cells, first, ok_bind, second, ok_bind]
  refine ⟨_, rfl, ⟨⟨[], tail, rfl, ?_⟩, ?_, ?_, large, small, stream, closed⟩, rfl, rfl⟩
  · rw [List.nil_append, List.append_assoc]
  · simp
  · rw [← size, cells, same]

/-- What a refill finds. -/
inductive NextBuffer (yy : YyGuts) (text : List UInt8) : EobAct → YyGuts → Prop
  | continueScan {yy' : YyGuts} {bytes : List UInt8} {n : Nat} (holds : yy'.Holds text bytes)
      (some : bytes ≠ []) (ordered : bytes ++ yy'.input.bytes = yy.input.bytes)
      (read : yy.input.read n = (bytes, yy'.input)) : NextBuffer yy text .continueScan yy'
  | lastMatch {yy' : YyGuts} (holds : yy'.Holds text []) (some : text ≠ [])
      (ended : yy.input.bytes = []) (left : yy'.input = yy.input) : NextBuffer yy text .lastMatch yy'
  | endOfFile {yy' : YyGuts} (holds : yy'.Holds [] []) (none : text = [])
      (ended : yy.input.bytes = []) (left : yy'.input.bytes = []) (hold : yy'.holdChar = 0) :
      NextBuffer yy text .endOfFile yy'

/-- The buffer is empty again. -/
theorem restart_filled (h : yy.Filled [] []) :
    ∃ yy', yy.restart = .ok yy' ∧ yy'.Filled [] [] ∧ yy'.input = yy.input ∧ yy'.status = .new ∧
      yy'.holdChar = 0 := by
  obtain ⟨⟨behind, cells⟩, nChars, size, large, small, room⟩ := h
  have marks : 2 ≤ behind.length := by
    rw [cells, List.nil_append, List.nil_append] at size
    omega
  obtain ⟨xs, tail, first, second, same⟩ := assign_marks [] marks
  have read : fetch ((0 : UInt8) :: 0 :: tail) 0 = .ok 0 := rfl
  unfold YyGuts.restart
  rw [cells]
  simp only [List.nil_append, List.append_nil, List.length_nil, Nat.zero_add] at first second ⊢
  rw [first, ok_bind, second, ok_bind, read, ok_bind]
  refine ⟨_, rfl, ⟨⟨_, rfl⟩, rfl, ?_, large, small, Nat.zero_le _⟩, rfl, rfl, rfl⟩
  rw [← size, cells]
  exact same

theorem getNextBuffer_spec (h : yy.Holds text []) (behind : yy.cBufP = yy.nChars + 1) :
    ∃ act yy', yy.getNextBuffer = .ok (act, yy') ∧ NextBuffer yy text act yy' := by
  obtain ⟨⟨dead, tail, hdead, cells⟩, nChars, size, large, small, stream, closed⟩ := h
  rw [List.nil_append] at cells
  rw [List.length_nil] at nChars stream
  have move : yy.cBufP - yy.textPtr - 1 = text.length := by omega
  have copied : copyDown yy.textPtr text.length yy.chBuf =
      .ok (text ++ yy.chBuf.drop text.length) := by
    rw [cells, ← List.append_assoc, ← hdead]
    exact copyDown_append dead text (0 :: 0 :: tail)
  have long : text.length + 2 ≤ yy.chBuf.length := by
    rw [cells]
    simp only [List.length_append, List.length_cons]
    omega
  have copySize : (text ++ yy.chBuf.drop text.length).length = yy.bufSize + 2 := by
    rw [List.length_append, List.length_drop]
    omega
  obtain ⟨bytes, y1, read, filled, ordered, ended, taken, status⟩ :=
    @readBuffer_filled { yy with chBuf := text ++ yy.chBuf.drop text.length } text _ rfl copySize
      large small (by omega) (by dsimp only; omega) closed
  dsimp only at ordered ended taken status
  have total := congrArg List.length ordered
  rw [List.length_append] at total
  unfold YyGuts.getNextBuffer
  rw [if_neg (by omega)]
  dsimp only
  rw [move, copied, ok_bind, read, ok_bind, YyGuts.eobAct]
  by_cases more : bytes = []
  · have left : y1.input.bytes = [] := by
      rw [more] at ordered
      exact ordered.trans (ended more).1
    subst more
    have none : y1.nChars = 0 := filled.nChars
    rw [if_pos none]
    by_cases start : text = []
    · subst start
      obtain ⟨y2, restart, filled', input, new, hold⟩ := restart_filled filled
      obtain ⟨y3, marked, holds, input', hold'⟩ := filled'.marked
        (by rw [input, left]; simp) (by simp [new])
      rw [if_pos List.length_nil, restart, ok_bind, ok_bind]
      dsimp only
      rw [marked, ok_bind]
      exact ⟨_, _, rfl, .endOfFile holds rfl (ended rfl).1 (by rw [input', input, left])
        (hold'.trans hold)⟩
    · have filled' : YyGuts.Filled { y1 with status := .eofPending } text [] :=
        ⟨filled.cells, filled.nChars, filled.size, filled.large, filled.small, filled.room⟩
      obtain ⟨y3, marked, holds, input', -⟩ := filled'.marked
        (by dsimp only; rw [left]; simp; omega) (fun _ => left)
      rw [if_neg (by simpa using start), ok_bind]
      dsimp only
      rw [marked, ok_bind]
      exact ⟨_, _, rfl, .lastMatch holds start (ended rfl).1 (input'.trans (ended rfl).2)⟩
  · have pending : y1.status = .eofPending → y1.input.bytes = [] := by
      intro h
      have none := closed (status ▸ h)
      rw [none] at ordered
      exact (List.append_eq_nil_iff.mp ordered).2
    obtain ⟨y3, marked, holds, input', -⟩ := filled.marked (by omega) pending
    rw [if_neg (by simpa [filled.nChars] using more), ok_bind]
    dsimp only
    rw [marked, ok_bind]
    obtain ⟨n, read⟩ := taken more
    exact ⟨_, _, rfl, .continueScan holds more (by rw [input', ordered]) (by rw [input', read])⟩

end refill

end ArmRunner
