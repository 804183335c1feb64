import ArmRunner.Dump
import ArmRunner.PrintHeader
import ArmRunner.Rerun

namespace ArmRunner

open CRun

/-- What `getopt_long` returns, with the number that `optarg` stands for. -/
inductive Opt
  | source
  | dest
  | h
  | S
  | s
  | r
  | x (noSection : Int)
  | j
  | a
  | w
  | d
  | text (addr : UInt32)
  | data (addr : UInt32)
  | other (opt : UInt8)
  deriving DecidableEq, Repr

/-- The options whose case writes the destination. -/
def Opt.writing? : Opt → Option WritingOption
  | .w => some .copy
  | .d => some .delete
  | .text addr => some (.address (.text addr))
  | .data addr => some (.address (.data addr))
  | _ => none

/-- The text that is printed when there is no destination. -/
def needsDest : WritingOption → String
  | .copy => "L'option -w nécessite un fichier destination\n"
  | .delete => "L'option -d nécessite un fichier destination\n"
  | .address _ => "L'option --text addr nécessite un fichier destination"

def textBytes (text : String) : List UInt8 := text.toUTF8.data.toList

def usage (name : List UInt8) : List UInt8 :=
  textBytes "\nUsage:\n" ++ name ++
    textBytes " --source file [-h -S -s -r -x -a] [--dest file [-w -d --text addr --data addr]]\n\n" ++
    textBytes "Produce a display similar to arm-none-eabi-readelf and use same options\n" ++
    textBytes "-w copy source file to dest file\n" ++
    textBytes "-d copy source file to dest file with REL sections deleted\n" ++
    textBytes "--text addr --data addr copy source file to dest file with symbol table updated\n\n"

/-- What the loop over the options works on. Without a destination `f_dest` is `NULL`. -/
structure MainLoop where
  elf : Elf32Main
  source : CFile
  dest : Option CFile
  out : List UInt8
  err : List UInt8

/-- How one option ends: the loop goes on, or `exit(1)` is called. -/
inductive OptionEnd
  | continues (s : MainLoop)
  | exits (s : MainLoop)

def MainLoop.print (s : MainLoop) (text : List UInt8) : MainLoop := { s with out := s.out ++ text }

/-- A display that moves the stream of the source. -/
def MainLoop.display (s : MainLoop) (print : CFile → Elf32Main → Run Printed) : Run MainLoop := do
  let (source, text) ← print s.source s.elf
  .ok { s.print text with source }

def MainLoop.displayAll (s : MainLoop) : Run MainLoop := do
  let s := (s.print (printHeader s.elf)).print (charBytes "\n")
  let s ← s.display printSectionHeader
  let s ← (s.print (charBytes "\n")).display printSymTable
  let s ← (s.print (charBytes "\n")).display printRelocTable
  .ok (s.print (charBytes "\n"))

def MainLoop.write (q : Qsort) (s : MainLoop) (o : WritingOption) : Run OptionEnd :=
  match s.dest with
  | none => .ok (.exits (s.print (textBytes (needsDest o))))
  | some dest => do
    let t ← runOption q ⟨s.elf, s.source, dest⟩ o
    .ok (.continues { s with elf := t.elf, source := t.source, dest := some t.dest })

/-- The body of the loop over the options. -/
def mainOption (q : Qsort) (name : List UInt8) (s : MainLoop) : Opt → Run OptionEnd
  | .source => .ok (.continues s)
  | .dest => .ok (.continues s)
  | .h => .ok (.continues (s.print (printHeader s.elf)))
  | .S => .continues <$> s.display printSectionHeader
  | .s => .continues <$> s.display printSymTable
  | .r => .continues <$> s.display printRelocTable
  | .x noSection => do
    let text ← printSectionContentOne s.elf noSection
    .ok (.continues (s.print text))
  | .j => do
    let text ← printSectionContent s.elf
    .ok (.continues (s.print text))
  | .a => .continues <$> s.displayAll
  | .w => s.write q .copy
  | .d => s.write q .delete
  | .text addr => s.write q (.address (.text addr))
  | .data addr => s.write q (.address (.data addr))
  | .other opt => .ok (.exits { s with
      err := s.err ++ textBytes "Unrecognized option " ++ [opt] ++ textBytes "\n" ++ usage name })

def mainOptions (q : Qsort) (name : List UInt8) : List Opt → MainLoop → Run OptionEnd
  | [], s => .ok (.continues s)
  | o :: opts, s => do
    match ← mainOption q name s o with
    | .continues s => mainOptions q name opts s
    | .exits s => .ok (.exits s)

/-- The files that a run can see, by their paths. -/
structure Files where
  content : List UInt8 → Option (List UInt8)
  readable : List UInt8 → Bool
  writable : List UInt8 → Bool

def Files.put (files : Files) (path bytes : List UInt8) : Files :=
  { files with content := Function.update files.content path (some bytes) }

/-- The two streams, by the paths that they are opened with. -/
structure Opened where
  files : Files
  source : Option (List UInt8)
  dest : Option (List UInt8)

/-- `f_dest = fopen(path, "w");` -/
def Opened.openDest (o : Opened) (path : List UInt8) : Opened :=
  if o.files.writable path then { o with files := o.files.put path [], dest := some path }
  else { o with dest := none }

/-- `f_source = fopen(path, "rb");` -/
def Opened.openSource (o : Opened) (path : List UInt8) : Opened :=
  { o with source := if o.files.readable path then some path else none }

def destOption : List UInt8 := charBytes "--dest"

def sourceOption : List UInt8 := charBytes "--source"

/-- The loop over `argv` that opens the files. A source that is not there is passed over, and its
path is looked at as an option. -/
def openFiles : List (List UInt8) → Opened → Opened
  | [], o => o
  | [_], o => o
  | arg :: path :: rest, o =>
    if arg = destOption then openFiles rest (o.openDest path)
    else if arg = sourceOption ∧ (o.files.content path).isSome then
      openFiles rest (o.openSource path)
    else openFiles (path :: rest) o

/-- What a run leaves: the files, the exit status, and what was printed. -/
structure Exit where
  files : Files
  status : Nat
  out : List UInt8
  err : List UInt8

/-- The files when the streams are closed. -/
def closeFiles (o : Opened) (s : MainLoop) : Files :=
  match o.dest, s.dest with
  | some path, some dest => o.files.put path dest.bytes
  | _, _ => o.files

def finish (o : Opened) : OptionEnd → Exit
  | .continues s => ⟨closeFiles o s, 0, s.out, s.err⟩
  | .exits s => ⟨closeFiles o s, 1, s.out, s.err⟩

def startLoop (o : Opened) (elf : Elf32Main) (source : CFile) : MainLoop where
  elf := elf
  source := source
  dest := o.dest.map fun _ => CFile.openWrite
  out := []
  err := []

/-- The size that `loadSectionContent` requests for a section that is not the last one. -/
def contentSize (header : Elf32Ehdr) (sectHeader : List Elf32Shdr) (i : Nat) : Run Int := do
  let s ← fetch sectHeader i
  let val ← nextSection sectHeader header.eShnum.toNat i
  let sv ← fetch sectHeader val
  .ok (asInt (if s.shType = shtRel then s.shSize else sv.shOffset - s.shOffset))

/-- What `loadSectionContent` prints before it calls `exit(1)` at one of the `n` sections from `i`
on. -/
def contentMessage (header : Elf32Ehdr) (sectHeader : List Elf32Shdr) :
    Nat → Nat → CFile → List UInt8
  | _, 0, _ => []
  | i, n + 1, f =>
    match loadOneContent header sectHeader i f with
    | .ok (_, f) => contentMessage header sectHeader (i + 1) n f
    | .error _ =>
      match contentSize header sectHeader i with
      | .ok size => if i + 1 < header.eShnum.toNat ∧ size < 0 then
          textBytes "Error: Unable to allocate one section content memory\n" else []
      | .error _ => []

/-- What the loaders print before one of them calls `exit(1)`. Most of these calls print nothing. -/
def loadMessage (file : List UInt8) : List UInt8 :=
  match loadHeader (CFile.openRead file) with
  | .error _ => if 4 ≤ file.length ∧ file.take 4 ≠ [0x7f, 0x45, 0x4c, 0x46] then
      textBytes "Error: Not an ELF file - it has the wrong magic bytes at the start\n" else []
  | .ok (header, _) =>
    if 2 ^ 31 ≤ header.eShentsize.toNat * header.eShnum.toNat then
      textBytes "Error: Unable to allocate section header table\n" else
    match loadTables file with
    | .error _ => []
    | .ok (elf, f) => contentMessage elf.header elf.sectHeader 0 elf.header.eShnum.toNat
        (f.fseek elf.header.eEhsize.toNat)

/-- The state whose blocks `main` frees when the loop over the options has come to its end. -/
def OptionEnd.rest : OptionEnd → Option Elf32Main
  | .continues s => some s.elf
  | .exits _ => none

/-- `main` up to the `fclose` of the streams, for the options that `getopt_long` makes of the
arguments: what the run leaves, and the state that is still to be freed. -/
def mainClosed (q : Qsort) (getopt : List (List UInt8) → List Opt) (name : List UInt8)
    (args : List (List UInt8)) (files : Files) : Run (Exit × Option Elf32Main) :=
  let o := openFiles args ⟨files, none, none⟩
  match o.source with
  | none => .ok (⟨o.files, 1,
      textBytes "Le fichier source n'a pas été trouvé ou n'a pas pu être ouvert\n", usage name⟩, none)
  | some path =>
    let file := (o.files.content path).getD []
    match load file with
    | .error .exit => .ok (⟨o.files, 1, loadMessage file, []⟩, none)
    | .error .fault => .error .fault
    | .ok (elf, source) => do
      let t ← mainOptions q name (getopt args) (startLoop o elf source)
      .ok (finish o t, t.rest)

/-- The loops at the end of `main` that pass the contents and the relocation tables to `free`. -/
def freeAll (elf : Elf32Main) : Run Unit := do
  let _ ← forLoop (fun i _ => do
    let c ← fetch elf.sectionContent i
    c.pointer) 0 elf.header.eShnum.toNat ()
  forLoop (fun i _ => do
    let _ ← fetch elf.relTable i
    .ok ()) 0 elf.tabSecRel.nbSections ()

def main (q : Qsort) (getopt : List (List UInt8) → List Opt) (name : List UInt8)
    (args : List (List UInt8)) (files : Files) : Run Exit := do
  let (r, rest) ← mainClosed q getopt name args files
  match rest with
  | none => .ok r
  | some elf => do
    freeAll elf
    .ok r

/-- Where the name of the first symbol's section begins is a position that `fseek` accepts. -/
def FirstNameSeekable (elf : Elf32Main) : Prop :=
  ∀ strings ∈ elf.sectHeader[elf.header.eShstrndx.toNat]?, ∀ sym ∈ elf.symTable[0]?,
    ∀ s ∈ elf.sectHeader[sym.stShndx.toNat]?, (strings.shOffset + s.shName).toNat < 2 ^ 31

/-- It is one in each state that an option with an address meets. -/
def NamesSeekable (q : Qsort) : List WritingOption → MainState → Prop
  | [], _ => True
  | o :: opts, s => (∀ a, o = .address a → FirstNameSeekable s.elf) ∧
    ∀ s', runOption q s o = .ok s' → NamesSeekable q opts s'

section streams

variable {elf elf' : Elf32Main} {f g f' : CFile} {text data : UInt32} {q : Qsort}

theorem printName_stream {offset : UInt32} (small : offset.toNat < 2 ^ 31)
    (same : g.bytes = f.bytes) : printName g (asInt offset) = printName f (asInt offset) := by
  rw [asInt_of_lt small, printName, printName, CFile.fseek_natCast, CFile.fseek_natCast, same]

/-- The first symbol is corrected alike from any position of the stream. -/
theorem correctSymbol_stream (seekable : FirstNameSeekable elf) (same : g.bytes = f.bytes) :
    correctSymbol text data 0 (elf, g) = correctSymbol text data 0 (elf, f) := by
  rw [correctSymbol, correctSymbol]
  dsimp only
  cases hstrings : fetch elf.sectHeader elf.header.eShstrndx.toNat with
  | error e => rfl
  | ok strings =>
    rw [ok_bind, ok_bind]
    cases hsym : fetch elf.symTable 0 with
    | error e => rfl
    | ok sym =>
      rw [ok_bind, ok_bind]
      cases hs : fetch elf.sectHeader sym.stShndx.toNat with
      | error e => rfl
      | ok s =>
        have small := seekable strings (fetch_eq_ok.mp hstrings) sym (fetch_eq_ok.mp hsym) s
          (fetch_eq_ok.mp hs)
        rw [ok_bind, ok_bind, printName_stream small same]

/-- Where the stream of the source stands makes no difference to an option with an address. -/
theorem correctSymTable_stream (seekable : FirstNameSeekable elf) (same : g.bytes = f.bytes)
    (run : correctSymTable f elf text data = .ok (elf', f')) :
    ∃ g', correctSymTable g elf text data = .ok (elf', g') ∧ g'.bytes = f'.bytes := by
  unfold correctSymTable at run ⊢
  cases hn : elf.nbSymboles.toNat with
  | zero =>
    rw [hn, forLoop_zero] at run
    cases run
    exact ⟨g, rfl, same⟩
  | succ n =>
    rw [hn, forLoop_succ] at run
    rw [forLoop_succ, correctSymbol_stream seekable same]
    exact ⟨f', run, rfl⟩

theorem processOption_stream {o : AddressOption} (seekable : FirstNameSeekable elf)
    (same : g.bytes = f.bytes) (run : processOption (elf, f) o = .ok (elf', f')) :
    ∃ g', processOption (elf, g) o = .ok (elf', g') ∧ g'.bytes = f'.bytes := by
  obtain ⟨elf1, first, second⟩ := processOption_eq_ok.mp run
  obtain ⟨g', first', bytes⟩ := correctSymTable_stream seekable same first
  exact ⟨g', processOption_eq_ok.mpr ⟨elf1, first', second⟩, bytes⟩

theorem runOption_stream {s s' : MainState} {o : WritingOption}
    (seekable : ∀ a, o = .address a → FirstNameSeekable s.elf) (same : g.bytes = s.source.bytes)
    (run : runOption q s o = .ok s') : ∃ g', g'.bytes = s'.source.bytes ∧
      runOption q { s with source := g } o = .ok { s' with source := g' } := by
  obtain ⟨s1, applied, run⟩ := bind_eq_ok.mp run
  obtain ⟨dest, written, run⟩ := bind_eq_ok.mp run
  cases run
  have again : ∃ g', g'.bytes = s1.source.bytes ∧
      applyOption { s with source := g } o = .ok { s1 with source := g' } := by
    cases o with
    | copy =>
      cases applied
      exact ⟨g, same, rfl⟩
    | delete =>
      obtain ⟨elf1, deleted, applied⟩ := bind_eq_ok.mp applied
      cases applied
      refine ⟨g, same, ?_⟩
      rw [applyOption, deleted, ok_bind]
    | address a =>
      obtain ⟨⟨elf1, f1⟩, passed, applied⟩ := bind_eq_ok.mp applied
      cases applied
      obtain ⟨g1, passed', bytes⟩ := processOption_stream (seekable a rfl) same passed
      refine ⟨g1, bytes, ?_⟩
      rw [applyOption, passed', ok_bind]
  obtain ⟨g', bytes, applied'⟩ := again
  refine ⟨g', bytes, ?_⟩
  rw [runOption, applied', ok_bind, written, ok_bind]

end streams

/-- Two states of the loop with the same files. -/
structure SameFiles (s s' : MainLoop) : Prop where
  elf : s'.elf = s.elf
  dest : s'.dest = s.dest
  bytes : s'.source.bytes = s.source.bytes

section loop

variable {s s' s'' : MainLoop} {q : Qsort} {name : List UInt8} {opts : List Opt} {o : Opt}

theorem SameFiles.refl (s : MainLoop) : SameFiles s s := ⟨rfl, rfl, rfl⟩

theorem SameFiles.trans (h : SameFiles s s') (h' : SameFiles s' s'') : SameFiles s s'' :=
  ⟨h'.elf.trans h.elf, h'.dest.trans h.dest, h'.bytes.trans h.bytes⟩

theorem SameFiles.print (h : SameFiles s s') (text : List UInt8) : SameFiles s (s'.print text) :=
  ⟨h.elf, h.dest, h.bytes⟩

theorem SameFiles.display (h : SameFiles s s') {print : CFile → Elf32Main → Run Printed}
    (reads : ∀ {f elf p}, print f elf = .ok p → p.1.bytes = f.bytes)
    (run : s'.display print = .ok s'') : SameFiles s s'' := by
  obtain ⟨p, printed, run⟩ := bind_eq_ok.mp run
  cases run
  exact ⟨h.elf, h.dest, (reads printed).trans h.bytes⟩

theorem SameFiles.displayAll (h : SameFiles s s') (run : s'.displayAll = .ok s'') :
    SameFiles s s'' := by
  obtain ⟨s1, sections, run⟩ := bind_eq_ok.mp run
  obtain ⟨s2, symbols, run⟩ := bind_eq_ok.mp run
  obtain ⟨s3, relocs, run⟩ := bind_eq_ok.mp run
  cases run
  have first := ((h.print _).print _).display printSectionHeader_bytes sections
  have second := (first.print _).display printSymTable_bytes symbols
  have third := (second.print _).display printRelocTable_bytes relocs
  exact third.print _

theorem mainOption_writing {w : WritingOption} (h : o.writing? = some w) :
    mainOption q name s o = s.write q w := by
  cases o <;> simp only [Opt.writing?, Option.some.injEq, reduceCtorEq] at h <;> rw [← h] <;> rfl

theorem mainOption_display (h : o.writing? = none)
    (run : mainOption q name s o = .ok (.continues s')) : SameFiles s s' := by
  have start := SameFiles.refl s
  cases o with
  | source => cases run; exact start
  | dest => cases run; exact start
  | h => cases run; exact start.print _
  | S =>
    obtain ⟨s1, shown, same⟩ := bind_eq_ok.mp run
    cases same
    exact start.display printSectionHeader_bytes shown
  | s =>
    obtain ⟨s1, shown, same⟩ := bind_eq_ok.mp run
    cases same
    exact start.display printSymTable_bytes shown
  | r =>
    obtain ⟨s1, shown, same⟩ := bind_eq_ok.mp run
    cases same
    exact start.display printRelocTable_bytes shown
  | x noSection =>
    obtain ⟨text, _, same⟩ := bind_eq_ok.mp run
    cases same
    exact start.print _
  | j =>
    obtain ⟨text, _, same⟩ := bind_eq_ok.mp run
    cases same
    exact start.print _
  | a =>
    obtain ⟨s1, shown, same⟩ := bind_eq_ok.mp run
    cases same
    exact start.displayAll shown
  | other opt => cases run
  | w => cases h
  | d => cases h
  | text addr => cases h
  | data addr => cases h

/-- The options that write, in the order in which the loop meets them. -/
def writings (opts : List Opt) : List WritingOption := opts.filterMap Opt.writing?

theorem mainOptions_cons {t : OptionEnd} : mainOptions q name (o :: opts) s = .ok t ↔
    (∃ s1, mainOption q name s o = .ok (.continues s1) ∧ mainOptions q name opts s1 = .ok t) ∨
      ∃ s1, mainOption q name s o = .ok (.exits s1) ∧ t = .exits s1 := by
  rw [mainOptions, bind_eq_ok]
  constructor
  · rintro ⟨turn, first, rest⟩
    cases turn with
    | continues s1 => exact Or.inl ⟨s1, first, rest⟩
    | exits s1 =>
      cases rest
      exact Or.inr ⟨s1, first, rfl⟩
  · rintro (⟨s1, first, rest⟩ | ⟨s1, first, rfl⟩)
    · exact ⟨_, first, rest⟩
    · exact ⟨_, first, rfl⟩

/-- With a destination the loop does to the files what its writing options do alone. -/
theorem mainOptions_dest {dest g : CFile} (hdest : s.dest = some dest)
    (run : mainOptions q name opts s = .ok (.continues s')) (same : g.bytes = s.source.bytes)
    (names : NamesSeekable q (writings opts) ⟨s.elf, g, dest⟩) :
    ∃ t, runOptions q (writings opts) ⟨s.elf, g, dest⟩ = .ok t ∧ s'.dest = some t.dest := by
  induction opts generalizing s dest g with
  | nil =>
    cases run
    exact ⟨_, rfl, hdest⟩
  | cons o opts ih =>
    obtain ⟨s1, first, rest⟩ | ⟨s1, _, ends⟩ := mainOptions_cons.mp run
    · cases hw : o.writing? with
      | none =>
        have kept := mainOption_display hw first
        have skipped : writings (o :: opts) = writings opts := List.filterMap_cons_none hw
        rw [skipped] at names ⊢
        obtain ⟨elf, dest', bytes⟩ := kept
        rw [← elf] at names ⊢
        exact ih (dest'.trans hdest) rest (same.trans bytes.symm) names
      | some w =>
        have taken : writings (o :: opts) = w :: writings opts := List.filterMap_cons_some hw
        rw [taken] at names ⊢
        rw [mainOption_writing hw, MainLoop.write, hdest] at first
        obtain ⟨t1, ran, first⟩ := bind_eq_ok.mp first
        cases first
        obtain ⟨seekable, later⟩ := names
        obtain ⟨g', bytes, again⟩ :=
          runOption_stream (s := ⟨s.elf, s.source, dest⟩) seekable same ran
        obtain ⟨t, last, same'⟩ := ih rfl rest bytes (later _ again)
        refine ⟨t, ?_, same'⟩
        rw [runOptions, List.foldlM_cons, again, ok_bind]
        exact last
    · cases ends

/-- Without a destination the loop comes to its end only when no option writes. -/
theorem mainOptions_noDest (hdest : s.dest = none)
    (run : mainOptions q name opts s = .ok (.continues s')) :
    writings opts = [] ∧ s'.dest = none := by
  induction opts generalizing s with
  | nil =>
    cases run
    exact ⟨rfl, hdest⟩
  | cons o opts ih =>
    obtain ⟨s1, first, rest⟩ | ⟨s1, _, ends⟩ := mainOptions_cons.mp run
    · cases hw : o.writing? with
      | none =>
        have kept := mainOption_display hw first
        obtain ⟨none, same⟩ := ih (kept.dest.trans hdest) rest
        exact ⟨(List.filterMap_cons_none hw).trans none, same⟩
      | some w =>
        rw [mainOption_writing hw, MainLoop.write, hdest] at first
        cases first
    · cases ends

theorem mainOptions_known (run : mainOptions q name opts s = .ok (.continues s')) (c : UInt8) :
    .other c ∉ opts := by
  induction opts generalizing s with
  | nil => simp
  | cons o opts ih =>
    obtain ⟨s1, first, rest⟩ | ⟨s1, _, ends⟩ := mainOptions_cons.mp run
    · intro there
      rcases List.mem_cons.mp there with rfl | there
      · cases first
      · exact ih rest there
    · cases ends

end loop

section files

variable {o : Opened} {args : List (List UInt8)} {p : List UInt8}

/-- `path` follows an argument `--dest`. -/
def Named (args : List (List UInt8)) (path : List UInt8) : Prop :=
  ∃ i : Nat, args[i]? = some destOption ∧ args[i + 1]? = some path

theorem Named.behind {arg : List UInt8} (h : Named args p) : Named (arg :: args) p := by
  obtain ⟨i, option, path⟩ := h
  exact ⟨i + 1, option, path⟩

theorem openDest_content (o : Opened) (path p : List UInt8) :
    (o.openDest path).files.content p = o.files.content p ∨
      (o.openDest path).files.content p = some [] ∧ p = path := by
  unfold Opened.openDest
  split
  next =>
    by_cases same : p = path
    · refine Or.inr ⟨?_, same⟩
      rw [same]
      exact Function.update_self ..
    · exact Or.inl (Function.update_of_ne same ..)
  next => exact Or.inl rfl

/-- Opening the files empties some that are named as a destination, and changes no other. -/
theorem openFiles_content (args : List (List UInt8)) (o : Opened) (p : List UInt8) :
    (openFiles args o).files.content p = o.files.content p ∨
      (openFiles args o).files.content p = some [] ∧ Named args p := by
  fun_induction openFiles args o with
  | case1 o => exact Or.inl rfl
  | case2 arg o => exact Or.inl rfl
  | case3 path rest o ih =>
    rcases ih with same | ⟨emptied, named⟩
    · rw [same]
      rcases openDest_content o path p with kept | ⟨emptied, rfl⟩
      · exact Or.inl kept
      · exact Or.inr ⟨emptied, 0, rfl, rfl⟩
    · exact Or.inr ⟨emptied, named.behind.behind⟩
  | case4 arg path rest o isDest isSource ih =>
    exact ih.imp id fun h => ⟨h.1, h.2.behind.behind⟩
  | case5 arg path rest o isDest isSource ih =>
    exact ih.imp id fun h => ⟨h.1, h.2.behind⟩

/-- The destination is an empty file when the streams are open. -/
theorem openFiles_dest (args : List (List UInt8)) (o : Opened)
    (start : ∀ d ∈ o.dest, o.files.content d = some [] ) :
    ∀ d ∈ (openFiles args o).dest, (openFiles args o).files.content d = some [] := by
  fun_induction openFiles args o with
  | case1 o => exact start
  | case2 arg o => exact start
  | case3 path rest o ih =>
    apply ih
    intro d hd
    unfold Opened.openDest at hd ⊢
    split at hd
    next can =>
      rw [if_pos can]
      cases hd
      exact Function.update_self ..
    next => cases hd
  | case4 arg path rest o isDest isSource ih => exact ih start
  | case5 arg path rest o isDest isSource ih => exact ih start

theorem openFiles_named (args : List (List UInt8)) (o : Opened) :
    ∀ d ∈ (openFiles args o).dest, d ∈ o.dest ∨ Named args d := by
  fun_induction openFiles args o with
  | case1 o => exact fun d hd => Or.inl hd
  | case2 arg o => exact fun d hd => Or.inl hd
  | case3 path rest o ih =>
    intro d hd
    rcases ih d hd with there | named
    · unfold Opened.openDest at there
      split at there
      next =>
        cases there
        exact Or.inr ⟨0, rfl, rfl⟩
      next => cases there
    · exact Or.inr named.behind.behind
  | case4 arg path rest o isDest isSource ih =>
    exact fun d hd => (ih d hd).imp id fun h => h.behind.behind
  | case5 arg path rest o isDest isSource ih =>
    exact fun d hd => (ih d hd).imp id fun h => h.behind

end files

section main

variable {q : Qsort} {getopt : List (List UInt8) → List Opt} {name : List UInt8}
  {args : List (List UInt8)} {files : Files} {r : Exit}

theorem closeFiles_content (o : Opened) (s : MainLoop) (path : List UInt8) :
    (closeFiles o s).content path = o.files.content path ∨ path ∈ o.dest := by
  unfold closeFiles
  split
  next d dest hd _ =>
    by_cases same : path = d
    · exact Or.inr (by rw [same, hd]; rfl)
    · exact Or.inl (Function.update_of_ne same ..)
  next => exact Or.inl rfl

theorem main_closed (run : main q getopt name args files = .ok r) :
    ∃ rest, mainClosed q getopt name args files = .ok (r, rest) ∧
      ∀ elf ∈ rest, freeAll elf = .ok () := by
  obtain ⟨⟨r', rest⟩, closed, run⟩ := bind_eq_ok.mp run
  cases rest with
  | none =>
    cases run
    exact ⟨none, closed, by simp⟩
  | some elf =>
    obtain ⟨u, freed, run⟩ := bind_eq_ok.mp run
    cases run
    exact ⟨some elf, closed, by simpa using freed⟩

/-- Whatever the options are, however a run ends and whatever becomes of the blocks that are freed
behind the streams, the only files that it changes are those named as a destination. -/
theorem main_files {rest : Option Elf32Main}
    (run : mainClosed q getopt name args files = .ok (r, rest)) {path : List UInt8}
    (changed : r.files.content path ≠ files.content path) : Named args path := by
  have opening : (openFiles args ⟨files, none, none⟩).files.content path ≠ files.content path →
      Named args path := by
    intro other
    exact ((openFiles_content args ⟨files, none, none⟩ path).resolve_left other).2
  have closing (s : MainLoop)
      (other : (closeFiles (openFiles args ⟨files, none, none⟩) s).content path ≠
        files.content path) : Named args path := by
    rcases closeFiles_content (openFiles args ⟨files, none, none⟩) s path with kept | dest
    · exact opening (kept ▸ other)
    · exact (openFiles_named args ⟨files, none, none⟩ path dest).resolve_left (by simp)
  unfold mainClosed at run
  dsimp only at run
  split at run
  next =>
    cases run
    exact opening changed
  next source _ =>
    split at run
    next =>
      cases run
      exact opening changed
    next => cases run
    next elf f _ =>
      obtain ⟨t, _, ends⟩ := bind_eq_ok.mp run
      cases ends
      cases t with
      | continues s => exact closing s changed
      | exits s => exact closing s changed

theorem load_nil : load [] = .error .exit := rfl

/-- A run that succeeds leaves its source as it was, and at the destination what the options that
write make of it, whatever is displayed between them. -/
theorem main_succeeds (run : main q getopt name args files = .ok r) (success : r.status = 0)
    (names : ∀ path ∈ (openFiles args ⟨files, none, none⟩).source, ∀ file ∈ files.content path,
      ∀ elf f, load file = .ok (elf, f) →
        NamesSeekable q (writings (getopt args)) ⟨elf, f, CFile.openWrite⟩) :
    ∃ path file, (openFiles args ⟨files, none, none⟩).source = some path ∧
      files.content path = some file ∧ r.files.content path = some file ∧
      (∀ c, .other c ∉ getopt args) ∧
      (∀ d ∈ (openFiles args ⟨files, none, none⟩).dest, ∃ out,
        processFile q file (writings (getopt args)) = .ok out ∧
        r.files = (openFiles args ⟨files, none, none⟩).files.put d out) ∧
      ((openFiles args ⟨files, none, none⟩).dest = none → writings (getopt args) = [] ∧
        r.files = (openFiles args ⟨files, none, none⟩).files) := by
  have emptied := openFiles_content args ⟨files, none, none⟩
  have empty := openFiles_dest args ⟨files, none, none⟩ (by simp)
  obtain ⟨rest, run, -⟩ := main_closed run
  unfold mainClosed at run
  dsimp only at run
  generalize openFiles args ⟨files, none, none⟩ = o at run names emptied empty ⊢
  split at run
  next =>
    cases run
    cases success
  next path hpath =>
    split at run
    next =>
      cases run
      cases success
    next => cases run
    next elf f hload =>
      obtain ⟨t, loop, ends⟩ := bind_eq_ok.mp run
      cases ends
      cases t with
      | exits s => cases success
      | continues s =>
        have something : o.files.content path ≠ some [] := by
          intro nothing
          rw [nothing] at hload
          cases load_nil.symm.trans hload
        have kept := (emptied path).resolve_right fun h => something h.1
        obtain ⟨file, hfile⟩ : ∃ file, o.files.content path = some file := by
          rw [← Option.isSome_iff_exists]
          by_contra none
          rw [Option.not_isSome_iff_eq_none.mp none] at hload
          cases load_nil.symm.trans hload
        have other : path ∉ o.dest := fun there => something (empty path there)
        rw [hfile] at hload
        have inFiles : files.content path = some file := kept.symm.trans hfile
        refine ⟨path, file, hpath, inFiles, ?_, mainOptions_known loop, ?_, ?_⟩
        · exact ((closeFiles_content o s path).resolve_right other).trans hfile
        · intro d hd
          have dest : (startLoop o elf f).dest = some CFile.openWrite := by
            rw [startLoop, Option.mem_def.mp hd]
            rfl
          obtain ⟨t, options, written⟩ := mainOptions_dest (g := f) dest loop rfl
            (names path hpath file inFiles elf f hload)
          refine ⟨t.dest.bytes, ?_, ?_⟩
          · have start : load file = .ok (elf, f) := hload
            rw [processFile, start, ok_bind]
            exact bind_eq_ok.mpr ⟨t, options, rfl⟩
          · simp only [finish, closeFiles, Option.mem_def.mp hd, written]
        · intro none
          have dest : (startLoop o elf f).dest = Option.none := by
            rw [startLoop, none]
            rfl
          obtain ⟨idle, closed⟩ := mainOptions_noDest dest loop
          exact ⟨idle, by simp only [finish, closeFiles, none]⟩

def sourcePath : List UInt8 := charBytes "a"

def destPath : List UInt8 := charBytes "b"

def copyArgs : List (List UInt8) := [sourceOption, sourcePath, destOption, destPath]

/-- A file at one path, and nothing anywhere else. -/
def oneFile (file : List UInt8) : Files where
  content path := if path = sourcePath then some file else none
  readable _ := true
  writable _ := true

def shownOptions : List Opt := [.source, .dest, .h, .S, .s, .text 16, .r, .a, .w, .x 1, .d, .j]

/-- An object file without an empty section, with one symbol in `.text` and one relocation of it. -/
def filledFile : List UInt8 :=
  assemble (objectHeader 88 4 3)
    ([0, 0, 0, 0] ++ [0, 0, 0, 0, 0, 0, 0, 8] ++ symBytes ⟨0, 1, 0, 0, 0, 0⟩ ++ optionsStrings)
    [objectShdr 0 1 52 4 0 0, objectShdr 0 shtRel 56 8 2 0, objectShdr 0 shtSymtab 64 16 3 0,
      objectShdr 0 3 80 8 0 0]

def filledElf : Elf32Main where
  header := objectHeader 88 4 3
  sectHeader := [objectShdr 0 1 52 4 0 0, objectShdr 0 shtRel 56 8 2 0,
    objectShdr 0 shtSymtab 64 16 3 0, objectShdr 0 3 80 8 0 0]
  symTable := [⟨0, 1, 0, 0, 0, 0⟩]
  relTable := [[⟨0, 8⟩]]
  sectionContent := [⟨4, [0, 0, 0, 0]⟩, ⟨8, [0, 0, 0, 0, 0, 0, 0, 8]⟩,
    ⟨16, symBytes ⟨0, 1, 0, 0, 0, 0⟩⟩, ⟨8, optionsStrings⟩]
  tabSecRel := ⟨[1], 1⟩
  nbSymboles := 1

theorem load_filledFile : load filledFile = .ok (filledElf, ⟨filledFile, 88⟩) := by
  decide +kernel

theorem main_shown : (main insertionQsort (fun _ => shownOptions) [] copyArgs
    (oneFile filledFile)).map (fun r => r.status) = .ok 0 := by
  decide +kernel

theorem filledElf_names {path file : List UInt8} {elf : Elf32Main} {f : CFile}
    (hsource : path ∈ (openFiles copyArgs ⟨oneFile filledFile, none, none⟩).source)
    (hfile : file ∈ (oneFile filledFile).content path) (hload : load file = .ok (elf, f)) :
    NamesSeekable insertionQsort (writings shownOptions) ⟨elf, f, CFile.openWrite⟩ := by
  have there : (openFiles copyArgs ⟨oneFile filledFile, none, none⟩).source =
      some sourcePath := by decide
  cases there.symm.trans hsource
  cases hfile
  cases Except.ok.inj (load_filledFile.symm.trans hload)
  have seekable : FirstNameSeekable filledElf := by
    intro strings hstrings sym hsym s hs
    cases hstrings
    cases hsym
    cases hs
    decide
  exact ⟨fun _ _ => seekable, fun _ _ => ⟨fun _ other => (by cases other), fun _ _ =>
    ⟨fun _ other => (by cases other), fun _ _ => trivial⟩⟩⟩

theorem main_succeeds_shown : ∃ r,
    main insertionQsort (fun _ => shownOptions) [] copyArgs (oneFile filledFile) = .ok r ∧
      ∃ path file,
        (openFiles copyArgs ⟨oneFile filledFile, none, none⟩).source = some path ∧
        (oneFile filledFile).content path = some file ∧ r.files.content path = some file ∧
        (∀ c, .other c ∉ shownOptions) ∧
        (∀ d ∈ (openFiles copyArgs ⟨oneFile filledFile, none, none⟩).dest, ∃ out,
          processFile insertionQsort file (writings shownOptions) = .ok out ∧
          r.files = (openFiles copyArgs ⟨oneFile filledFile, none, none⟩).files.put d out) ∧
        ((openFiles copyArgs ⟨oneFile filledFile, none, none⟩).dest = none →
          writings shownOptions = [] ∧
          r.files = (openFiles copyArgs ⟨oneFile filledFile, none, none⟩).files) := by
  have ends := main_shown
  cases run : main insertionQsort (fun _ => shownOptions) [] copyArgs (oneFile filledFile) with
  | error e =>
    rw [run] at ends
    cases ends
  | ok r =>
    rw [run] at ends
    have success : r.status = 0 := Except.ok.inj ends
    exact ⟨r, rfl, main_succeeds run success fun path hpath file hfile elf f hload =>
      filledElf_names hpath hfile hload⟩

theorem main_files_shown : ∃ r rest,
    mainClosed insertionQsort (fun _ => [.other 63]) [] copyArgs (oneFile relocatedFile) =
        .ok (r, rest) ∧
      r.status = 1 ∧ Named copyArgs destPath := by
  have ends : (mainClosed insertionQsort (fun _ => [.other 63]) [] copyArgs
      (oneFile relocatedFile)).map (fun r => (r.1.status, r.1.files.content destPath)) =
      .ok (1, some []) := by decide +kernel
  cases run : mainClosed insertionQsort (fun _ => [.other 63]) [] copyArgs
      (oneFile relocatedFile) with
  | error e =>
    rw [run] at ends
    cases ends
  | ok r =>
    rw [run] at ends
    obtain ⟨status, content⟩ := Prod.mk.inj (Except.ok.inj ends)
    refine ⟨r.1, r.2, rfl, status, main_files run ?_⟩
    have before : (oneFile relocatedFile).content destPath = none := by decide
    rw [before]
    exact fun none => by rw [none] at content; cases content

/-- The symbol table that is written with the options `opts`. -/
def symbolsWritten (file : List UInt8) (opts : List Opt) : Run (Option (List UInt8)) :=
  (mainClosed insertionQsort (fun _ => opts) [] copyArgs (oneFile file)).map fun r =>
    (r.1.files.content destPath).map fun bytes => (bytes.drop 64).take 16

-- where `fseek` refuses the position of a name, a display changes what is written after it
example : symbolsWritten (optionsFile 2 0x80000000 1 8) [.text 1] ≠
    symbolsWritten (optionsFile 2 0x80000000 1 8) [.S, .text 1] := by
  decide +kernel

-- the content of an empty section goes to `free` although its pointer was never assigned
example : (main insertionQsort (fun _ => []) [] copyArgs (oneFile relocatedFile)).map
      (fun r => r.status) = .error .fault := by
  decide +kernel

end main

end ArmRunner
