import ArmRunner.PrintReloc

namespace ArmRunner

open CRun

/-- `%d` of an `int`. -/
def decimal (x : Int) : List UInt8 := charBytes (toString x)

/-- `ELF32_ST_TYPE` and `ELF32_ST_BIND`. -/
def Elf32Sym.type (sym : Elf32Sym) : UInt8 := sym.stInfo &&& 0xf

def Elf32Sym.bind (sym : Elf32Sym) : UInt8 := sym.stInfo >>> 4

/-- The switches of `printSymTable`. A value without a case prints nothing. -/
def symTypeName (sym : Elf32Sym) : String :=
  let type := sym.stInfo &&& sym.type
  if type = 0 then "NOTYPE\t"
  else if type = 1 then "OBJECT\t"
  else if type = 2 then "FUNC\t"
  else if type = 3 then "SECTION\t"
  else if type = 4 then "FILE\t"
  else if type = 13 then "LOPROC\t"
  else if type = 15 then "HIPROC\t"
  else ""

def symBindName (sym : Elf32Sym) : String :=
  let bind := 1 &&& sym.bind
  if bind = 0 then "LOCAL\t"
  else if bind = 1 then "GLOBAL\t"
  else if bind = 2 then "WEAK\t"
  else if bind = 13 then "LOPROC\t"
  else if bind = 15 then "HIPROC\t"
  else ""

def symShndxName (stShndx : UInt16) : List UInt8 :=
  if stShndx = 0 then charBytes "UND\t"
  else if stShndx = 65280 then charBytes "LORESERVE\t"
  else if stShndx = 65311 then charBytes "HIPROC\t"
  else if stShndx = 65521 then charBytes "ABS\t"
  else if stShndx = 65522 then charBytes "COMMON\t"
  else if stShndx = 65535 then charBytes "HIRESERVE\t"
  else decimal stShndx.toNat ++ charBytes "\t"

/-- The line for a symbol up to its name. -/
def symFields (j : Nat) (sym : Elf32Sym) : List UInt8 :=
  decimal j ++ charBytes ":\t" ++ hexWord sym.stValue ++ charBytes "\t" ++
    decimal (asInt sym.stSize) ++ charBytes "\t" ++ charBytes (symTypeName sym) ++
    charBytes (symBindName sym) ++ charBytes "DEFAULT\t" ++ symShndxName sym.stShndx

def printSymbol (elf : Elf32Main) (j : Nat) (s : Printed) : Run Printed := do
  let (f, out) := s
  let sym ← fetch elf.symTable j
  let strings ← sectionBefore elf
  let (nomSection, f) := printName f (asInt (strings.shOffset + sym.stName))
  .ok (f, out ++ symFields j sym ++ nomSection ++ charBytes "\t\n")

/-- Without a table `nb_symboles` is `-1`. -/
def printSymTable (f : CFile) (elf : Elf32Main) : Run Printed :=
  forLoop (printSymbol elf) 0 elf.nbSymboles.toNat (f, [])

/-- The line for a relocation entry up to the name. -/
def relocFields (rel : Elf32Rel) (sym : Elf32Sym) : List UInt8 :=
  hexWord rel.rOffset ++ charBytes "\t" ++ hexWord rel.rInfo ++ charBytes "\t" ++
    charBytes (relocTypeName rel.type) ++ hexWord sym.stValue ++ charBytes "\t"

/-- A line of both listings: fields, and the name at a position of the file. -/
def printLine (fields : List UInt8) (offset : UInt32) (s : Printed) : Printed :=
  let (nomSection, f) := printName s.1 (asInt offset)
  (f, s.2 ++ fields ++ nomSection ++ charBytes "\t\n")

/-- Where `printSymTable` looks for the name of a symbol. -/
def symbolPlace (elf : Elf32Main) (sym : Elf32Sym) : Option UInt32 :=
  if elf.header.eShstrndx = 0 then none
  else (elf.sectHeader[elf.header.eShstrndx.toNat - 1]?).map fun strings =>
    strings.shOffset + sym.stName

/-- Where the name of a symbol's section is looked for. -/
def sectionPlace (elf : Elf32Main) (sym : Elf32Sym) : Option UInt32 := do
  let strings ← elf.sectHeader[elf.header.eShstrndx.toNat]?
  let s ← elf.sectHeader[sym.stShndx.toNat]?
  some (strings.shOffset + s.shName)

/-- Where `printRelocTable` looks for the name in the line of an entry. -/
def relocPlace (elf : Elf32Main) (rel : Elf32Rel) : Option UInt32 := do
  let sym ← elf.symTable[rel.sym]?
  if sym.stValue = 0 then sectionPlace elf sym else symbolPlace elf sym

section lines

variable {elf : Elf32Main} {s s' : Printed}

theorem sectionBefore_name {sym : Elf32Sym} {o : UInt32} :
    symbolPlace elf sym = some o ↔
      ∃ strings, sectionBefore elf = .ok strings ∧ o = strings.shOffset + sym.stName := by
  unfold symbolPlace sectionBefore
  by_cases none : elf.header.eShstrndx = 0
  · simp [none]
  · simp only [if_neg none, Option.map_eq_some_iff, fetch_eq_ok]
    exact exists_congr fun strings => and_congr_right fun _ => eq_comm

theorem printSymbol_eq_ok {j : Nat} {sym : Elf32Sym} (hsym : elf.symTable[j]? = some sym) :
    printSymbol elf j s = .ok s' ↔
      ∃ o, symbolPlace elf sym = some o ∧ s' = printLine (symFields j sym) o s := by
  rw [printSymbol]
  dsimp only
  rw [fetch_eq_ok.mpr hsym, ok_bind]
  constructor
  · intro run
    obtain ⟨strings, hstrings, run⟩ := bind_eq_ok.mp run
    cases run
    exact ⟨_, sectionBefore_name.mpr ⟨strings, hstrings, rfl⟩, rfl⟩
  · rintro ⟨o, place, rfl⟩
    obtain ⟨strings, hstrings, rfl⟩ := sectionBefore_name.mp place
    rw [hstrings, ok_bind]
    rfl

theorem relocName_eq_ok {sym : Elf32Sym} {f : CFile} {r : List UInt8 × CFile} :
    relocName elf sym f = .ok r ↔
      ∃ o, (if sym.stValue = 0 then sectionPlace elf sym else symbolPlace elf sym) = some o ∧
        r = printName f (asInt o) := by
  unfold relocName
  by_cases zero : sym.stValue = 0
  · rw [if_pos zero, if_pos zero]
    constructor
    · intro run
      obtain ⟨strings, hstrings, run⟩ := bind_eq_ok.mp run
      obtain ⟨t, ht, run⟩ := bind_eq_ok.mp run
      cases run
      refine ⟨strings.shOffset + t.shName, ?_, rfl⟩
      rw [sectionPlace, fetch_eq_ok.mp hstrings, fetch_eq_ok.mp ht]
      rfl
    · rintro ⟨o, place, rfl⟩
      obtain ⟨strings, hstrings, place⟩ := Option.bind_eq_some_iff.mp place
      obtain ⟨t, ht, place⟩ := Option.bind_eq_some_iff.mp place
      cases place
      rw [fetch_eq_ok.mpr hstrings, ok_bind, fetch_eq_ok.mpr ht, ok_bind]
  · rw [if_neg zero, if_neg zero]
    constructor
    · intro run
      obtain ⟨strings, hstrings, run⟩ := bind_eq_ok.mp run
      cases run
      exact ⟨_, sectionBefore_name.mpr ⟨strings, hstrings, rfl⟩, rfl⟩
    · rintro ⟨o, place, rfl⟩
      obtain ⟨strings, hstrings, rfl⟩ := sectionBefore_name.mp place
      rw [hstrings, ok_bind]

theorem printReloc_eq_ok {rel : Elf32Rel} {sym : Elf32Sym}
    (hsym : elf.symTable[rel.sym]? = some sym) :
    printReloc elf rel s = .ok s' ↔
      ∃ o, relocPlace elf rel = some o ∧ s' = printLine (relocFields rel sym) o s := by
  have place : relocPlace elf rel =
      if sym.stValue = 0 then sectionPlace elf sym else symbolPlace elf sym := by
    rw [relocPlace, hsym]
    rfl
  rw [printReloc, place]
  dsimp only
  rw [fetch_eq_ok.mpr hsym, ok_bind]
  constructor
  · intro run
    obtain ⟨⟨name, f⟩, hname, run⟩ := bind_eq_ok.mp run
    obtain ⟨o, ho, same⟩ := relocName_eq_ok.mp hname
    cases run
    refine ⟨o, ho, ?_⟩
    rw [printLine, ← same]
    simp only [relocFields, List.append_assoc]
  · rintro ⟨o, ho, rfl⟩
    rw [relocName_eq_ok.mpr ⟨o, ho, rfl⟩, ok_bind, printLine]
    simp only [relocFields, List.append_assoc]

end lines

end ArmRunner
