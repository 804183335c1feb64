import Mathlib.Tactic

namespace Lines

/-- The lines of a text, each with the newline that ends it. -/
def readLines : List UInt8 → List (List UInt8)
  | [] => []
  | c :: cs =>
    if c = 0x0a then [c] :: readLines cs
    else
      match readLines cs with
      | [] => [[c]]
      | line :: lines => (c :: line) :: lines

def Terminated (line : List UInt8) : Prop := ∃ text, 0x0a ∉ text ∧ line = text ++ [0x0a]

/-- Lines as they are read from a text: only the last may have no newline at its end. -/
def Valid (lines : List (List UInt8)) : Prop :=
  ∃ front last, lines = front ++ last ∧ (∀ line ∈ front, Terminated line) ∧
    (last = [] ∨ ∃ line, last = [line] ∧ line ≠ [] ∧ 0x0a ∉ line)

/-- A part of a pattern: `\s*`, `\s+`, a text, or `(\w+)`. -/
inductive Piece
  | spaces
  | space
  | literal (text : List UInt8)
  | word
  deriving DecidableEq

def isSpace (c : UInt8) : Bool := c == 0x20 || (0x09 ≤ c && c ≤ 0x0d)

def isWord (c : UInt8) : Bool :=
  (0x61 ≤ c && c ≤ 0x7a) || (0x41 ≤ c && c ≤ 0x5a) || (0x30 ≤ c && c ≤ 0x39) || c == 0x5f

/-- Match the whole of a line and give the word. Where a space or a word ends the next part of the
pattern cannot begin inside it, so that nothing has to be tried twice. -/
def matchPieces : List Piece → List UInt8 → List UInt8 → Option (List UInt8)
  | [], [], name => some name
  | [], _ :: _, _ => none
  | .spaces :: ps, s, name => matchPieces ps (s.dropWhile isSpace) name
  | .space :: _, [], _ => none
  | .space :: ps, c :: s, name =>
    if isSpace c then matchPieces ps (s.dropWhile isSpace) name else none
  | .literal text :: ps, s, name =>
    if text.isPrefixOf s then matchPieces ps (s.drop text.length) name else none
  | .word :: ps, s, _ =>
    let name := s.takeWhile isWord
    if name = [] then none else matchPieces ps (s.drop name.length) name

variable {line text : List UInt8} {lines front : List (List UInt8)}

theorem readLines_line (h : 0x0a ∉ text) (rest : List UInt8) :
    readLines (text ++ 0x0a :: rest) = (text ++ [0x0a]) :: readLines rest := by
  induction text with
  | nil => rfl
  | cons c cs ih =>
    rw [List.mem_cons, not_or] at h
    rw [List.cons_append, readLines, if_neg (Ne.symm h.1), ih h.2]
    rfl

theorem readLines_last (some : text ≠ []) (h : 0x0a ∉ text) : readLines text = [text] := by
  induction text with
  | nil => exact absurd rfl some
  | cons c cs ih =>
    rw [List.mem_cons, not_or] at h
    rw [readLines, if_neg (Ne.symm h.1)]
    cases cs with
    | nil => rfl
    | cons d ds => rw [ih (by simp) h.2]

/-- Lines are read again as they were. -/
theorem Valid.readLines (h : Valid lines) : readLines lines.flatten = lines := by
  obtain ⟨front, last, rfl, terminated, ends⟩ := h
  rw [List.flatten_append]
  induction front with
  | nil =>
    rcases ends with rfl | ⟨line, rfl, some, plain⟩
    · rfl
    · simpa using readLines_last some plain
  | cons line front ih =>
    obtain ⟨text, plain, rfl⟩ := terminated line (by simp)
    rw [List.flatten_cons, List.append_assoc, List.append_assoc, List.singleton_append,
      readLines_line plain, ih fun l hl => terminated l (by simp [hl])]
    rfl

theorem valid_readLines (text : List UInt8) : Valid (Lines.readLines text) := by
  induction text with
  | nil => exact ⟨[], [], rfl, by simp, Or.inl rfl⟩
  | cons c cs ih =>
    obtain ⟨front, last, split, terminated, ends⟩ := ih
    rw [Lines.readLines]
    split_ifs with newline
    · refine ⟨[c] :: front, last, by rw [split]; rfl, ?_, ends⟩
      intro line there
      rcases List.mem_cons.mp there with rfl | there
      · exact ⟨[], by simp, by rw [newline]; rfl⟩
      · exact terminated line there
    · rw [split]
      cases front with
      | nil =>
        rcases ends with rfl | ⟨line, rfl, some, plain⟩
        · exact ⟨[], [[c]], rfl, by simp, Or.inr ⟨[c], rfl, by simp, by simpa using Ne.symm newline⟩⟩
        · refine ⟨[], [c :: line], rfl, by simp, Or.inr ⟨c :: line, rfl, by simp, ?_⟩⟩
          simpa using ⟨Ne.symm newline, plain⟩
      | cons line front =>
        refine ⟨(c :: line) :: front, last, rfl, ?_, ends⟩
        intro l there
        rcases List.mem_cons.mp there with rfl | there
        · obtain ⟨text, plain, rfl⟩ := terminated line (by simp)
          exact ⟨c :: text, by simpa using ⟨Ne.symm newline, plain⟩, rfl⟩
        · exact terminated l (by simp [there])

/-- Some of the lines are lines again. -/
theorem Valid.sublist {some : List (List UInt8)} (h : Valid lines) (sub : some.Sublist lines) :
    Valid some := by
  obtain ⟨front, last, rfl, terminated, ends⟩ := h
  obtain ⟨front', last', rfl, sub1, sub2⟩ := List.sublist_append_iff.mp sub
  refine ⟨front', last', rfl, fun line there => terminated line (sub1.subset there), ?_⟩
  rcases ends with rfl | ⟨line, rfl, nonempty, plain⟩
  · exact Or.inl (List.sublist_nil.mp sub2)
  · rcases List.sublist_singleton.mp sub2 with rfl | rfl
    · exact Or.inl rfl
    · exact Or.inr ⟨line, rfl, nonempty, plain⟩

end Lines
