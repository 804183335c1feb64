import ArmRunner.PrintSym

namespace ArmRunner

open CRun

/-- A `switch` over a value: the text of its case, or that of the default. -/
def caseText (cases : List (Nat × String)) (default : String) (x : Nat) : List UInt8 :=
  charBytes ((cases.lookup x).getD default)

/-- `%x` of a word, with zeros in front up to `width` digits. -/
def hexPadded (width : Nat) (x : UInt32) : List UInt8 :=
  (hexWord x).drop (min ((hexWord x).takeWhile (· = 0x30)).length (8 - width))

def classCases : List (Nat × String) := [(1, "\tClass:\tELF32\n"), (2, "\tClass:\tELF64\n")]

def dataCases : List (Nat × String) :=
  [(1, "\tData:\t2's complement, little endian\n"), (2, "\tData:\t2's complement, big endian\n")]

def osabiCases : List (Nat × String) :=
  [(0, "UNIX - System V"), (1, "HP - UX"), (2, "NetBSD"), (3, "Linux"), (6, "Sun Solaris"),
    (7, "IBM AIX"), (8, "SGI Irix"), (9, "FreeBSD"), (10, "Compaq TRU64"), (11, "Novell Modesto"),
    (12, "OpenBSD"), (64, "ARM EABI"), (97, "ARM"), (255, "Standalone")]

def typeCases : List (Nat × String) :=
  [(0, "\tType:\tNONE"), (1, "\tType:\tREL (Relocatable file)"),
    (2, "\tType:\tEXEC (Executable file)"), (3, "\tType:\tDYN"), (4, "\tType:\tCORE")]

def machineCases : List (Nat × String) :=
  [(0, "\tMachine:\tNone"), (2, "\tMachine:\tSPARC"), (3, "\tMachine:\tx86"),
    (4, "\tMachine:\tMotorola 68000"), (40, "\tMachine:\tARM")]

def versionCases : List (Nat × String) := [(0, "\tVersion:\t0x0"), (1, "\tVersion:\t0x1")]

/-- A line with a number, `%d` of an unsigned word being one of its value as an `int`. -/
def numberLine (label : String) (x : Int) (unit : String) : List UInt8 :=
  charBytes label ++ decimal x ++ charBytes unit

def printHeader (elf : Elf32Main) : List UInt8 :=
  let h := elf.header
  charBytes "ELF Header:\n" ++
    caseText classCases "" h.eIdent.eiClass.toNat ++
    caseText dataCases "\tData:\tUnknown\n" h.eIdent.eiData.toNat ++
    numberLine "\tVersion:\t" h.eIdent.eiVersion.toNat " (current)\n" ++
    charBytes "\tOS/ABI:\t" ++ caseText osabiCases "Unknown" h.eIdent.eiOsabi.toNat ++
    charBytes "\n" ++
    numberLine "\tABI Version:\t" h.eIdent.eiAbiversion.toNat "\n" ++
    caseText typeCases "\tType:\tUnknown" h.eType.toNat ++ charBytes "\n" ++
    caseText machineCases "\tMachine:\tUnknown" h.eMachine.toNat ++ charBytes "\n" ++
    caseText versionCases "\tVersion:\tUnknown" h.eVersion.toNat ++ charBytes "\n" ++
    charBytes "\tEntry point address:\t0x" ++ hexPadded 1 h.eEntry ++ charBytes "\n" ++
    numberLine "\tStart of program headers:\t" (asInt h.ePhoff) " (bytes into file)\n" ++
    numberLine "\tStart of section headers:\t" (asInt h.eShoff) " (bytes into file)\n" ++
    numberLine "\tSize of this header:\t" h.eEhsize.toNat " (bytes)\n" ++
    numberLine "\tSize of program headers:\t" h.ePhentsize.toNat " (bytes)\n" ++
    numberLine "\tNumber of program headers:\t" h.ePhnum.toNat "\n" ++
    numberLine "\tSize of section headers:\t" h.eShentsize.toNat " (bytes)\n" ++
    numberLine "\tNumber of section headers:\t" h.eShnum.toNat "\n" ++
    numberLine "\tSection header string table index:\t" h.eShstrndx.toNat "\n"

/-- Only the default has no tabulator behind its text. -/
def sectionTypeCases : List (Nat × String) :=
  [(0, "NULL\t"), (1, "PROGBITS\t"), (2, "SYMTAB\t"), (3, "STRTAB\t"), (4, "RELA\t"),
    (5, "HASH\t"), (6, "DYNAMIC\t"), (7, "NOTE\t"), (8, "NOBITS\t"), (9, "REL\t"),
    (10, "SHLIB\t"), (11, "DYNSYM\t"), (1879048195, "ARM_ATTRIBUTES\t"),
    (1879048192, "LOPROC\t"), (2147483647, "HIPROC\t"), (2147483648, "LOUSER\t"),
    (4294967295, "HIUSER\t")]

def sectionFlags : List (UInt32 × String) :=
  [(1, "W\t"), (2, "A\t"), (4, "X\t"), (16, "M\t"), (32, "S\t"), (64, "I\t"), (128, "L\t")]

/-- The line for a section behind its name. -/
def sectionFields (s : Elf32Shdr) : List UInt8 :=
  caseText sectionTypeCases "UNKNOWN" s.shType.toNat ++
    hexWord s.shAddr ++ charBytes "\t" ++
    hexPadded 6 s.shOffset ++ charBytes "\t" ++
    hexPadded 6 s.shSize ++ charBytes "\t" ++
    hexPadded 2 s.shEntsize ++ charBytes "\t" ++
    sectionFlags.flatMap (fun p => if s.shFlags &&& p.1 ≠ 0 then charBytes p.2 else []) ++
    decimal (asInt s.shLink) ++ charBytes "\t" ++
    decimal (asInt s.shInfo) ++ charBytes "\t" ++
    hexPadded 1 s.shAddralign ++ charBytes "\n"

def printSection (elf : Elf32Main) (i : Nat) (s : Printed) : Run Printed := do
  let (f, out) := s
  let strings ← fetch elf.sectHeader elf.header.eShstrndx.toNat
  let section' ← fetch elf.sectHeader i
  let (nomSection, f) := printName f (asInt (strings.shOffset + section'.shName))
  .ok (f, out ++ charBytes "[" ++ decimal i ++ charBytes "]\t" ++ nomSection ++ charBytes "\t" ++
    sectionFields section')

def printSectionHeader (f : CFile) (elf : Elf32Main) : Run Printed :=
  forLoop (printSection elf) 0 elf.header.eShnum.toNat (f, [])

section streams

variable {elf : Elf32Main} {f : CFile} {p : Printed}

/-- A display reads names, and leaves the bytes of the source as they are. -/
theorem printSectionHeader_bytes (run : printSectionHeader f elf = .ok p) :
    p.1.bytes = f.bytes := by
  refine forLoop_partial (I := fun _ (s : Printed) => s.1.bytes = f.bytes) run rfl ?_
  rintro k ⟨g, out⟩ s' _ _ same turn
  obtain ⟨strings, _, turn⟩ := bind_eq_ok.mp turn
  obtain ⟨s, _, turn⟩ := bind_eq_ok.mp turn
  cases turn
  exact (printName_bytes g _).trans same

theorem printSymTable_bytes (run : printSymTable f elf = .ok p) : p.1.bytes = f.bytes := by
  refine forLoop_partial (I := fun _ (s : Printed) => s.1.bytes = f.bytes) run rfl ?_
  rintro k ⟨g, out⟩ s' _ _ same turn
  obtain ⟨sym, _, turn⟩ := bind_eq_ok.mp turn
  obtain ⟨strings, _, turn⟩ := bind_eq_ok.mp turn
  cases turn
  exact (printName_bytes g _).trans same

theorem relocName_bytes {sym : Elf32Sym} {name : List UInt8} {g : CFile}
    (run : relocName elf sym f = .ok (name, g)) : g.bytes = f.bytes := by
  unfold relocName at run
  split at run
  next =>
    obtain ⟨strings, _, run⟩ := bind_eq_ok.mp run
    obtain ⟨s, _, run⟩ := bind_eq_ok.mp run
    obtain rfl : _ = g := congrArg Prod.snd (Except.ok.inj run)
    exact printName_bytes f _
  next =>
    obtain ⟨strings, _, run⟩ := bind_eq_ok.mp run
    obtain rfl : _ = g := congrArg Prod.snd (Except.ok.inj run)
    exact printName_bytes f _

theorem printReloc_bytes {rel : Elf32Rel} {s s' : Printed} (run : printReloc elf rel s = .ok s') :
    s'.1.bytes = s.1.bytes := by
  obtain ⟨sym, _, run⟩ := bind_eq_ok.mp run
  obtain ⟨⟨name, g⟩, read, run⟩ := bind_eq_ok.mp run
  cases run
  exact relocName_bytes read

theorem printRelocSection_bytes {i : Nat} {s s' : Printed}
    (run : printRelocSection elf i s = .ok s') : s'.1.bytes = s.1.bytes := by
  obtain ⟨count, _, run⟩ := bind_eq_ok.mp run
  obtain ⟨after, lines, run⟩ := bind_eq_ok.mp run
  cases run
  have kept : after.1.bytes = s.1.bytes := by
    refine forLoop_partial (I := fun _ (t : Printed) => t.1.bytes = s.1.bytes) lines rfl ?_
    intro k t t' _ _ same turn
    obtain ⟨table, _, turn⟩ := bind_eq_ok.mp turn
    obtain ⟨rel, _, turn⟩ := bind_eq_ok.mp turn
    exact (printReloc_bytes turn).trans same
  exact kept

theorem printRelocTable_bytes (run : printRelocTable f elf = .ok p) : p.1.bytes = f.bytes := by
  unfold printRelocTable at run
  split at run
  next =>
    refine forLoop_partial (I := fun _ (s : Printed) => s.1.bytes = f.bytes) run rfl ?_
    intro k s s' _ _ same turn
    exact (printRelocSection_bytes turn).trans same
  next =>
    cases run
    rfl

end streams

end ArmRunner
