import ArmRunner.Lib.CRun

namespace ArmRunner

/-- The sixteen bytes of `e_ident`. -/
structure ElfIdent where
  eiMag0 : UInt8
  eiMag1 : UInt8
  eiMag2 : UInt8
  eiMag3 : UInt8
  eiClass : UInt8
  eiData : UInt8
  eiVersion : UInt8
  eiOsabi : UInt8
  eiAbiversion : UInt8
  eiPad : List UInt8
  deriving DecidableEq, Repr

structure Elf32Ehdr where
  eIdent : ElfIdent
  eType : UInt16
  eMachine : UInt16
  eVersion : UInt32
  eEntry : UInt32
  ePhoff : UInt32
  eShoff : UInt32
  eFlags : UInt32
  eEhsize : UInt16
  ePhentsize : UInt16
  ePhnum : UInt16
  eShentsize : UInt16
  eShnum : UInt16
  eShstrndx : UInt16
  deriving DecidableEq, Repr

structure Elf32Shdr where
  shName : UInt32
  shType : UInt32
  shFlags : UInt32
  shAddr : UInt32
  shOffset : UInt32
  shSize : UInt32
  shLink : UInt32
  shInfo : UInt32
  shAddralign : UInt32
  shEntsize : UInt32
  deriving DecidableEq, Repr

structure Elf32Sym where
  stName : UInt32
  stValue : UInt32
  stSize : UInt32
  stInfo : UInt8
  stOther : UInt8
  stShndx : UInt16
  deriving DecidableEq, Repr

structure Elf32Rel where
  rOffset : UInt32
  rInfo : UInt32
  deriving DecidableEq, Repr

/-- `ELF32_R_SYM` and `ELF32_R_TYPE`. -/
def Elf32Rel.sym (r : Elf32Rel) : Nat := r.rInfo.toNat / 256

def Elf32Rel.type (r : Elf32Rel) : Nat := r.rInfo.toNat % 256

/-- The bytes loaded for a section. The slot of an empty section, whose pointer the program does not
set, counts as an empty buffer. -/
structure SectionContent where
  size : Int
  sectionBytes : List UInt8
  deriving DecidableEq, Repr

/-- The entry counts stored so far in `TabNb`, and `nbSections`. -/
structure TableauSectionReloc where
  tabNb : List Nat
  nbSections : Nat
  deriving DecidableEq, Repr

structure Elf32Main where
  header : Elf32Ehdr
  sectHeader : List Elf32Shdr
  symTable : List Elf32Sym
  relTable : List (List Elf32Rel)
  sectionContent : List SectionContent
  tabSecRel : TableauSectionReloc
  nbSymboles : Int
  deriving DecidableEq, Repr

def shtSymtab : UInt32 := 2
def shtRela : UInt32 := 4
def shtHash : UInt32 := 5
def shtDynamic : UInt32 := 6
def shtNobits : UInt32 := 8
def shtRel : UInt32 := 9
def shtDynsym : UInt32 := 11
def shtGroup : UInt32 := 17
def shtSymtabShndx : UInt32 := 18
def shtArmExidx : UInt32 := 0x70000001
def shfLinkOrder : UInt32 := 0x80

def rArmAbs32 : Nat := 2
def rArmAbs16 : Nat := 5
def rArmAbs8 : Nat := 8
def rArmCall : Nat := 28
def rArmJump24 : Nat := 29

/-- Conversion of a `uint32_t` to `int`. -/
def asInt (x : UInt32) : Int := if x.toNat < 2 ^ 31 then x.toNat else x.toNat - 2 ^ 32

theorem asInt_of_lt {x : UInt32} (h : x.toNat < 2 ^ 31) : asInt x = x.toNat := if_pos h

theorem asInt_nonneg_iff {x : UInt32} : 0 ≤ asInt x ↔ x.toNat < 2 ^ 31 := by
  have bound := x.toNat_lt
  unfold asInt
  split <;> omega

def Elf32Shdr.isRel (s : Elf32Shdr) : Bool := s.shType == shtRel

/-- The sections that the deletion of the relocation tables keeps. -/
def Elf32Shdr.kept (s : Elf32Shdr) : Bool := !s.isRel

end ArmRunner
