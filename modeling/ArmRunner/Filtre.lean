import ArmRunner.Lib.Lines
import ArmRunner.PrintReloc

namespace ArmRunner

open Lines

/-- The two forms that `--type` chooses from. -/
inductive DirectiveType
  | ifdef
  | comment
  deriving DecidableEq, Repr

def beginDirective : DirectiveType → List Piece
  | .ifdef => [.spaces, .literal (charBytes "#ifdef"), .space, .word, .spaces]
  | .comment =>
    [.spaces, .literal (charBytes "/*"), .space, .literal (charBytes "BEGIN"), .space, .word, .space,
      .literal (charBytes "*/"), .spaces]

def elseDirective : DirectiveType → List Piece
  | .ifdef =>
    [.spaces, .literal (charBytes "#else"), .space, .literal (charBytes "/*"), .space, .word, .space,
      .literal (charBytes "*/"), .spaces]
  | .comment =>
    [.spaces, .literal (charBytes "/*"), .space, .literal (charBytes "ALTERNATIVE"), .space, .word,
      .space, .literal (charBytes "*/"), .spaces]

def endDirective : DirectiveType → List Piece
  | .ifdef =>
    [.spaces, .literal (charBytes "#endif"), .space, .literal (charBytes "/*"), .space, .word, .space,
      .literal (charBytes "*/"), .spaces]
  | .comment =>
    [.spaces, .literal (charBytes "/*"), .space, .literal (charBytes "END"), .space, .word, .space,
      .literal (charBytes "*/"), .spaces]

/-- `lc` of a name. -/
def lc (name : List UInt8) : List UInt8 :=
  name.map fun c => if 0x41 ≤ c ∧ c ≤ 0x5a then c + 0x20 else c

/-- What a line is, in the order of the tests. -/
inductive LineKind
  | begin (name : List UInt8)
  | stop (name : List UInt8)
  | alternative (name : List UInt8)
  | text
  deriving DecidableEq

def kindOf (type : DirectiveType) (line : List UInt8) : LineKind :=
  match matchPieces (beginDirective type) line [] with
  | some name => .begin (lc name)
  | none =>
    match matchPieces (endDirective type) line [] with
    | some name => .stop (lc name)
    | none =>
      match matchPieces (elseDirective type) line [] with
      | some name => .alternative (lc name)
      | none => .text

structure FiltreOptions where
  supprime : List (List UInt8)
  conserve : List (List UInt8)
  herite : Bool
  type : DirectiveType
  autres : Bool
  inverse : Bool

namespace FiltreOptions

variable (o : FiltreOptions)

def cut (name : List UInt8) : Bool := name ∈ o.supprime.map lc

/-- `$keep{$name} ? 0 : $autres`. -/
def others (name : List UInt8) : Bool := if name ∈ o.conserve.map lc then false else o.autres

end FiltreOptions

/-- The variables of the loop over the lines, with the lines and the messages that it prints. -/
structure Filtre where
  mode : Int
  modesStack : List Int
  namesStack : List (List UInt8)
  lineNumber : Nat
  out : List (List UInt8)
  err : List (List UInt8)

namespace Filtre

variable (o : FiltreOptions)

def start : Filtre := ⟨1, [], [], 0, [], []⟩

def print (s : Filtre) (condition : Bool) (line : List UInt8) : Filtre :=
  if condition then { s with out := s.out ++ [line] } else s

def mismatch (s : Filtre) (ending : String) : Filtre :=
  { s with err := s.err ++ [charBytes "Name mismatch at line " ++ charBytes (toString s.lineNumber) ++
      charBytes ending] }

def beginLine (s : Filtre) (line name : List UInt8) : Filtre :=
  let mode := if s.mode ≤ 0 then (if o.herite then -1 else 0) else if o.cut name then 0 else 1
  { s with
    modesStack := s.mode :: s.modesStack
    namesStack := name :: s.namesStack
    mode := mode }.print (0 < mode && o.others name) line

/-- An end with another name than the part that is open is put back. -/
def endLine (s : Filtre) (line name : List UInt8) : Filtre :=
  let s := s.print (s.mode == 1 && o.others name) line
  match s.modesStack, s.namesStack with
  | mode :: modes, expectedName :: names =>
    if name ≠ [] ∧ name ≠ expectedName then s.mismatch ", ignoring\n"
    else { s with mode := mode, modesStack := modes, namesStack := names }
  | _, _ => s

def elseLine (s : Filtre) (line name : List UInt8) : Filtre :=
  let s := s.print (0 < s.mode && o.others name) line
  let s := if name = [] ∨ s.namesStack.headD [] = name then s else s.mismatch "\n"
  { s with
    mode := if 0 < s.mode then (if o.others name then 1 else 0) else if s.mode < 0 then s.mode else 2 }

def textLine (s : Filtre) (line : List UInt8) : Filtre :=
  s.print ((0 < s.mode && !o.inverse) || (s.mode ≤ 0 && o.inverse)) line

/-- A turn of the loop. -/
def line (s : Filtre) (line : List UInt8) : Filtre :=
  let s := { s with lineNumber := s.lineNumber + 1 }
  match kindOf o.type line with
  | .begin name => s.beginLine o line name
  | .stop name => s.endLine o line name
  | .alternative name => s.elseLine o line name
  | .text => s.textLine o line

def lines (s : Filtre) (lines : List (List UInt8)) : Filtre := lines.foldl (Filtre.line o) s

end Filtre

/-- `filtre.pl` of a text. -/
def filtre (o : FiltreOptions) (text : List UInt8) : Filtre := Filtre.start.lines o (readLines text)

section again

variable {o : FiltreOptions} {s : Filtre} {line : List UInt8} {lines : List (List UInt8)}

theorem print_eq (condition : Bool) :
    s.print condition line = { s with out := s.out ++ if condition then [line] else [] } := by
  rw [Filtre.print]
  cases condition
  · exact congrArg (fun out => { s with out := out }) (List.append_nil s.out).symm
  · rfl

/-- What is printed prints itself again: a text, or a directive that is kept with its part. -/
def FiltreOptions.Kept (o : FiltreOptions) (line : List UInt8) : Prop :=
  match kindOf o.type line with
  | .begin name => o.cut name = false ∧ o.others name = true
  | .stop name => o.others name = true
  | .alternative name => o.others name = true
  | .text => True

/-- An end is put back, or closes the part that was opened last. -/
theorem endLine_cases (name : List UInt8) {printed : Filtre}
    (h : s.print (s.mode == 1 && o.others name) line = printed) :
    s.endLine o line name = printed ∨ s.endLine o line name = printed.mismatch ", ignoring\n" ∨
      ∃ mode modes names, printed.modesStack = mode :: modes ∧ s.endLine o line name =
        { printed with mode := mode, modesStack := modes, namesStack := names } := by
  rw [Filtre.endLine, h]
  split
  next mode modes expectedName names opened _ =>
    split_ifs
    · exact Or.inr (Or.inl rfl)
    · exact Or.inr (Or.inr ⟨mode, modes, names, opened, rfl⟩)
  next => exact Or.inl rfl

theorem endLine_out (name : List UInt8) : (s.endLine o line name).out =
    (s.print (s.mode == 1 && o.others name) line).out := by
  rcases @endLine_cases o s line name _ rfl with
    same | same | ⟨mode, modes, names, -, same⟩
  · rw [same]
  · rw [same]
    rfl
  · rw [same]

theorem elseLine_out (name : List UInt8) : (s.elseLine o line name).out =
    (s.print (0 < s.mode && o.others name) line).out := by
  rw [Filtre.elseLine]
  dsimp only
  split_ifs <;> rfl

theorem elseLine_mode (name : List UInt8) : (s.elseLine o line name).modesStack = s.modesStack ∧
    (s.elseLine o line name).mode = if 0 < s.mode then (if o.others name then 1 else 0)
      else if s.mode < 0 then s.mode else 2 := by
  rw [Filtre.elseLine, print_eq]
  by_cases same : name = [] ∨ s.namesStack.headD [] = name
  · simp only [if_pos same, and_self]
  · simp only [if_neg same, Filtre.mismatch, and_self]

theorem beginLine_out (name : List UInt8) : (s.beginLine o line name).out = s.out ++
    if 0 < s.mode ∧ o.cut name = false ∧ o.others name = true then [line] else [] := by
  rw [Filtre.beginLine, print_eq]
  dsimp only
  by_cases hidden : s.mode ≤ 0
  · rw [if_pos hidden, if_neg (by omega : ¬ (0 < s.mode ∧ _))]
    cases o.herite <;> rfl
  · rw [if_neg hidden]
    cases cut : o.cut name
    · simp [Int.not_le.mp hidden]
    · simp

/-- A line is printed as it is, or not at all. -/
theorem line_out (s : Filtre) (line : List UInt8) : (s.line o line).out = s.out ∨
    (s.line o line).out = s.out ++ [line] ∧ o.Kept line := by
  rw [Filtre.line, FiltreOptions.Kept]
  cases kindOf o.type line with
  | begin name =>
    dsimp only
    rw [beginLine_out]
    split_ifs with shown
    · exact Or.inr ⟨rfl, shown.2⟩
    · exact Or.inl (List.append_nil _)
  | stop name =>
    dsimp only
    rw [endLine_out, print_eq]
    split_ifs with shown
    · exact Or.inr ⟨rfl, (Bool.and_eq_true_iff.mp shown).2⟩
    · exact Or.inl (List.append_nil _)
  | alternative name =>
    dsimp only
    rw [elseLine_out, print_eq]
    split_ifs with shown
    · exact Or.inr ⟨rfl, (Bool.and_eq_true_iff.mp shown).2⟩
    · exact Or.inl (List.append_nil _)
  | text =>
    dsimp only
    rw [Filtre.textLine, print_eq]
    split_ifs
    · exact Or.inr ⟨rfl, trivial⟩
    · exact Or.inl (List.append_nil _)

theorem lines_out (s : Filtre) (lines : List (List UInt8)) : ∃ printed,
    (s.lines o lines).out = s.out ++ printed ∧ printed.Sublist lines ∧
      ∀ line ∈ printed, o.Kept line := by
  induction lines generalizing s with
  | nil => exact ⟨[], (List.append_nil _).symm, List.Sublist.refl _, by simp⟩
  | cons line lines ih =>
    obtain ⟨printed, rest, sub, kept⟩ := ih (s.line o line)
    rw [Filtre.lines, List.foldl_cons]
    rcases line_out (o := o) s line with none | ⟨one, self⟩
    · exact ⟨printed, by rw [← none]; exact rest, sub.cons _, kept⟩
    · refine ⟨line :: printed, ?_, sub.cons_cons _, ?_⟩
      · rw [← List.singleton_append, ← List.append_assoc, ← one]
        exact rest
      · simpa using ⟨self, kept⟩

/-- Outside of every part that is left out. -/
structure Shown (s : Filtre) : Prop where
  mode : s.mode = 1
  modesStack : ∀ mode ∈ s.modesStack, mode = 1

/-- What has been printed is printed again. -/
theorem line_again (h : Shown s) (kept : o.Kept line) (plain : o.inverse = false) :
    Shown (s.line o line) ∧ (s.line o line).out = s.out ++ [line] := by
  obtain ⟨mode, stack⟩ := h
  rw [FiltreOptions.Kept] at kept
  rw [Filtre.line]
  cases kind : kindOf o.type line with
  | begin name =>
    rw [kind] at kept
    obtain ⟨cut, others⟩ := kept
    simp only [Filtre.beginLine, print_eq, cut, others, mode]
    exact ⟨⟨rfl, by simpa [mode] using stack⟩, rfl⟩
  | stop name =>
    rw [kind] at kept
    have printed : s.mode == 1 && o.others name := by simp [mode, show o.others name = true from kept]
    dsimp only
    have shown := @print_eq { s with lineNumber := s.lineNumber + 1 } line
      (s.mode == 1 && o.others name)
    rw [if_pos printed] at shown
    rcases endLine_cases name shown with same | same | ⟨m, modes, names, opened, same⟩
    · rw [same]
      exact ⟨⟨mode, stack⟩, rfl⟩
    · rw [same]
      exact ⟨⟨mode, stack⟩, rfl⟩
    · rw [show s.modesStack = m :: modes from opened] at stack
      rw [same]
      exact ⟨⟨stack m (by simp), fun k hk => stack k (by simp [hk])⟩, rfl⟩
  | alternative name =>
    rw [kind] at kept
    have others : o.others name = true := kept
    obtain ⟨modes, next⟩ := @elseLine_mode o { s with lineNumber := s.lineNumber + 1 } line name
    have shown : 0 < s.mode := by omega
    rw [if_pos shown, if_pos others] at next
    refine ⟨⟨next, by rw [modes]; exact stack⟩, ?_⟩
    rw [elseLine_out, print_eq, if_pos (by simp [shown, others])]
  | text =>
    simp only [Filtre.textLine, print_eq, plain, mode]
    exact ⟨⟨rfl, stack⟩, rfl⟩

theorem lines_again (h : Shown s) (kept : ∀ line ∈ lines, o.Kept line) (plain : o.inverse = false) :
    (s.lines o lines).out = s.out ++ lines := by
  induction lines generalizing s with
  | nil => exact (List.append_nil _).symm
  | cons line lines ih =>
    obtain ⟨next, out⟩ := line_again h (kept line (by simp)) plain
    have rest := ih next fun l hl => kept l (by simp [hl])
    rw [out, List.append_assoc, List.singleton_append] at rest
    exact rest

/-- Filtering what has been filtered changes nothing, whatever the directives of the text are and
whether or not they match. -/
theorem filtre_again (o : FiltreOptions) (text : List UInt8) :
    (filtre { o with inverse := false } (filtre o text).out.flatten).out = (filtre o text).out := by
  obtain ⟨printed, out, sub, kept⟩ := lines_out (o := o) Filtre.start (readLines text)
  rw [Filtre.start, List.nil_append] at out
  have same : (filtre o text).out = printed := out
  rw [same, filtre, ((valid_readLines text).sublist sub).readLines]
  exact lines_again ⟨rfl, by simp [Filtre.start]⟩ kept rfl

end again

/-- A text whose parts are closed by their own names, with an alternative at most for each. -/
inductive Document (type : DirectiveType)
  | nil
  | text (line : List UInt8) (plain : kindOf type line = .text) (rest : Document type)
  | block (name opening : List UInt8) (opens : kindOf type opening = .begin name)
      (body : Document type) (closing : List UInt8) (closes : kindOf type closing = .stop name)
      (rest : Document type)
  | branch (name opening : List UInt8) (opens : kindOf type opening = .begin name)
      (body : Document type) (middle : List UInt8) (turns : kindOf type middle = .alternative name)
      (other : Document type) (closing : List UInt8) (closes : kindOf type closing = .stop name)
      (rest : Document type)

namespace Document

variable {type : DirectiveType} (o : FiltreOptions)

def lines : Document type → List (List UInt8)
  | nil => []
  | text line _ rest => line :: rest.lines
  | block _ opening _ body closing _ rest =>
    [opening] ++ body.lines ++ [closing] ++ rest.lines
  | branch _ opening _ body middle _ other closing _ rest =>
    [opening] ++ body.lines ++ [middle] ++ other.lines ++ [closing] ++ rest.lines

/-- What is printed of a document, by whether the part that it is in is shown. An alternative is
shown for a part that is cut, and inside of a part that is not shown unless that is inherited. -/
def print : Bool → Document type → List (List UInt8)
  | _, nil => []
  | shown, text line _ rest =>
    (if shown != o.inverse then [line] else []) ++ rest.print shown
  | shown, block name opening _ body closing _ rest =>
    let inside := shown && !o.cut name
    let directive line := if inside && o.others name then [line] else []
    directive opening ++ body.print inside ++ directive closing ++ rest.print shown
  | shown, branch name opening _ body middle _ other closing _ rest =>
    let inside := shown && !o.cut name
    let directive line := if inside && o.others name then [line] else []
    directive opening ++ body.print inside ++ directive middle ++
      other.print (if inside then o.others name else shown || !o.herite) ++
      directive closing ++ rest.print shown

/-- The parts to be shown, with the directives and the alternatives that are kept. -/
def visible : Document type → List (List UInt8)
  | nil => []
  | text line _ rest => line :: rest.visible
  | block name opening _ body closing _ rest =>
    let directive line := if o.others name then [line] else []
    (if o.cut name then [] else directive opening ++ body.visible ++ directive closing) ++ rest.visible
  | branch name opening _ body middle _ other closing _ rest =>
    let directive line := if o.others name then [line] else []
    (if o.cut name then other.visible
      else directive opening ++ body.visible ++ directive middle ++
        (if o.others name then other.visible else []) ++ directive closing) ++ rest.visible

end Document

section document

variable {o : FiltreOptions} {s : Filtre} {line name : List UInt8}

theorem lines_append (s : Filtre) (xs ys : List (List UInt8)) :
    s.lines o (xs ++ ys) = (s.lines o xs).lines o ys := List.foldl_append

/-- The mode of a part that is opened. -/
def Filtre.inner (o : FiltreOptions) (s : Filtre) (name : List UInt8) : Int :=
  if s.mode ≤ 0 then (if o.herite then -1 else 0) else if o.cut name then 0 else 1

/-- The mode after an alternative. -/
def Filtre.turned (o : FiltreOptions) (mode : Int) (name : List UInt8) : Int :=
  if 0 < mode then (if o.others name then 1 else 0) else if mode < 0 then mode else 2

theorem inner_pos : 0 < s.inner o name ↔ 0 < s.mode ∧ o.cut name = false := by
  rw [Filtre.inner]
  split_ifs with hidden herite cut
  · omega
  · omega
  · simp [cut]
  · simpa [cut] using hidden

theorem inner_shown :
    decide (0 < s.inner o name) = (decide (0 < s.mode) && !o.cut name) := by
  simp [inner_pos]

theorem inner_one (h : 0 < s.inner o name) : s.inner o name = 1 := by
  have shown := inner_pos.mp h
  rw [Filtre.inner, if_neg (by omega), if_neg (by simp [shown.2])]

/-- Hidden by the part around it, and not to be turned over. -/
theorem inner_neg : s.inner o name < 0 ↔ s.mode ≤ 0 ∧ o.herite = true := by
  rw [Filtre.inner]
  split_ifs with hidden herite cut
  · simp [hidden, herite]
  · simp [herite]
  · simp [hidden]
  · simp [hidden]

theorem line_text (plain : kindOf o.type line = .text) : s.line o line = { s with
    lineNumber := s.lineNumber + 1
    out := s.out ++ if decide (0 < s.mode) != o.inverse then [line] else [] } := by
  rw [Filtre.line, plain]
  dsimp only
  rw [Filtre.textLine, print_eq]
  by_cases shown : 0 < s.mode
  · simp [shown, Int.not_le.mpr shown]
  · simp [shown, Int.not_lt.mp shown]

theorem line_begin (opens : kindOf o.type line = .begin name) : s.line o line = { s with
    mode := s.inner o name
    modesStack := s.mode :: s.modesStack
    namesStack := name :: s.namesStack
    lineNumber := s.lineNumber + 1
    out := s.out ++ if 0 < s.inner o name && o.others name then [line] else [] } := by
  rw [Filtre.line, opens]
  dsimp only
  rw [Filtre.beginLine, print_eq]
  rfl

theorem line_stop (closes : kindOf o.type line = .stop name) {mode : Int} {modes : List Int}
    {names : List (List UInt8)} (opened : s.modesStack = mode :: modes)
    (named : s.namesStack = name :: names) : s.line o line = { s with
    mode := mode
    modesStack := modes
    namesStack := names
    lineNumber := s.lineNumber + 1
    out := s.out ++ if s.mode == 1 && o.others name then [line] else [] } := by
  rw [Filtre.line, closes]
  dsimp only
  rw [Filtre.endLine, print_eq]
  simp only [opened, named]
  rw [if_neg (by simp)]

theorem line_alternative (turns : kindOf o.type line = .alternative name)
    {names : List (List UInt8)} (named : s.namesStack = name :: names) : s.line o line = { s with
    mode := Filtre.turned o s.mode name
    lineNumber := s.lineNumber + 1
    out := s.out ++ if 0 < s.mode && o.others name then [line] else [] } := by
  rw [Filtre.line, turns]
  dsimp only
  rw [Filtre.elseLine, print_eq, if_pos (Or.inr (by simp [named]))]
  rfl

theorem turned_pos : decide (0 < Filtre.turned o (s.inner o name) name) =
    if decide (0 < s.mode) && !o.cut name then o.others name
    else decide (0 < s.mode) || !o.herite := by
  rw [Filtre.turned, ← inner_shown]
  by_cases inside : 0 < s.inner o name
  · rw [if_pos inside, decide_eq_true inside, if_pos rfl]
    cases o.others name <;> rfl
  · rw [if_neg inside, decide_eq_false inside, if_neg Bool.false_ne_true]
    by_cases under : s.inner o name < 0
    · obtain ⟨hidden, herite⟩ := inner_neg.mp under
      rw [if_pos under, herite, decide_eq_false (by omega), decide_eq_false (by omega)]
      rfl
    · rw [if_neg under]
      have kept := mt inner_neg.mpr under
      by_cases shown : 0 < s.mode
      · simp [shown]
      · simpa [shown, Int.not_lt.mp shown] using kept

theorem turned_one : (Filtre.turned o (s.inner o name) name == 1) =
    (decide (0 < s.inner o name) && o.others name) := by
  rw [Filtre.turned]
  by_cases inside : 0 < s.inner o name
  · cases others : o.others name <;> simp [inside]
  · rw [if_neg inside]
    by_cases under : s.inner o name < 0
    · rw [if_pos under]
      simp only [inside, decide_false, Bool.false_and, beq_eq_false_iff_ne]
      omega
    · simp [under, inside]

/-- A document leaves the mode and the parts that are open as they were. -/
theorem lines_document (s : Filtre) (d : Document o.type) : s.lines o d.lines =
    { s with
      lineNumber := s.lineNumber + d.lines.length
      out := s.out ++ d.print o (decide (0 < s.mode)) } := by
  induction d generalizing s with
  | nil => simp [Document.lines, Document.print, Filtre.lines]
  | text line plain rest ih =>
    rw [Document.lines, Filtre.lines, List.foldl_cons, ← Filtre.lines, line_text plain, ih]
    simp [Document.print, Nat.add_assoc, Nat.add_comm]
  | block name opening opens body closing closes rest ihb ihr =>
    rw [Document.lines, lines_append, lines_append, lines_append]
    rw [show s.lines o [opening] = s.line o opening from rfl, line_begin opens, ihb]
    rw [show ∀ t : Filtre, t.lines o [closing] = t.line o closing from fun _ => rfl,
      line_stop closes rfl rfl, ihr]
    have one : (s.inner o name == 1) = decide (0 < s.inner o name) := by
      by_cases inside : 0 < s.inner o name
      · simp [inner_one inside]
      · simpa [inside] using by omega
    rw [Document.print]
    simp only [one, inner_shown, List.length_append, List.length_singleton, List.append_assoc,
      Filtre.mk.injEq, true_and, and_true]
    omega
  | branch name opening opens body middle turns other closing closes rest ihb iho ihr =>
    rw [Document.lines, lines_append, lines_append, lines_append, lines_append, lines_append]
    rw [show s.lines o [opening] = s.line o opening from rfl, line_begin opens, ihb]
    rw [show ∀ t : Filtre, t.lines o [middle] = t.line o middle from fun _ => rfl,
      line_alternative turns rfl, iho]
    rw [show ∀ t : Filtre, t.lines o [closing] = t.line o closing from fun _ => rfl,
      line_stop closes rfl rfl, ihr]
    rw [Document.print]
    simp only [turned_one, turned_pos, inner_shown, List.length_append, List.length_singleton, List.append_assoc,
      Filtre.mk.injEq, true_and, and_true]
    exact ⟨by omega, by simp only [Bool.and_assoc, Bool.and_self]⟩

theorem print_hidden (herite : o.herite = true) (plain : o.inverse = false)
    (d : Document o.type) : d.print o false = [] := by
  induction d with
  | nil => rfl
  | text line _ rest ih => simp [Document.print, plain, ih]
  | block name opening _ body closing _ rest ihb ihr => simp [Document.print, ihb, ihr]
  | branch name opening _ body middle _ other closing _ rest ihb iho ihr =>
    simp [Document.print, herite, ihb, iho, ihr]

theorem print_visible (herite : o.herite = true) (plain : o.inverse = false)
    (d : Document o.type) : d.print o true = d.visible o := by
  have hidden := print_hidden herite plain
  induction d with
  | nil => rfl
  | text line _ rest ih => simp [Document.print, Document.visible, plain, ih]
  | block name opening _ body closing _ rest ihb ihr =>
    cases cut : o.cut name <;> simp [Document.print, Document.visible, cut, hidden, ihb, ihr]
  | branch name opening _ body middle _ other closing _ rest ihb iho ihr =>
    cases cut : o.cut name
    · cases others : o.others name <;>
        simp [Document.print, Document.visible, cut, others, hidden, ihb, iho, ihr]
    · simp [Document.print, Document.visible, cut, hidden, iho, ihr]

/-- With `--herite` a part is shown when no part around it is left out. -/
theorem filtre_visible (herite : o.herite = true) (plain : o.inverse = false) (d : Document o.type)
    (h : Valid d.lines) :
    filtre o d.lines.flatten = ⟨1, [], [], d.lines.length, d.visible o, []⟩ := by
  rw [filtre, h.readLines, lines_document, ← print_visible herite plain]
  simp [Filtre.start]

/-- A part inside of the first half of another. -/
def sampleDocument : Document .ifdef :=
  .branch (charBytes "a") (charBytes "#ifdef A\n") (by decide)
    (.text (charBytes "x\n") (by decide)
      (.block (charBytes "b") (charBytes "  #ifdef b\n") (by decide)
        (.text (charBytes "y\n") (by decide) .nil)
        (charBytes "  #endif /* B */\n") (by decide) .nil))
    (charBytes "#else /* A */\n") (by decide)
    (.text (charBytes "z\n") (by decide) .nil)
    (charBytes "#endif /* A */\n") (by decide)
    (.text (charBytes "t\n") (by decide) .nil)

theorem filtre_visible_sample :
    let o : FiltreOptions := ⟨[charBytes "A"], [], true, .ifdef, true, false⟩
    Valid sampleDocument.lines ∧
      filtre o sampleDocument.lines.flatten =
        ⟨1, [], [], 9, [charBytes "z\n", charBytes "t\n"], []⟩ := by
  have valid : Valid sampleDocument.lines := by
    refine ⟨sampleDocument.lines, [], by simp, fun line there => ?_, Or.inl rfl⟩
    have ends : ∀ line ∈ sampleDocument.lines,
        0x0a ∉ line.dropLast ∧ line = line.dropLast ++ [0x0a] := by decide
    exact ⟨line.dropLast, ends line there⟩
  exact ⟨valid, @filtre_visible ⟨[charBytes "A"], [], true, .ifdef, true, false⟩ rfl rfl
    sampleDocument valid⟩

end document

end ArmRunner
