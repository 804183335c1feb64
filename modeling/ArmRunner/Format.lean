import ArmRunner.Elf
import ArmRunner.Lib.Slice
import ArmRunner.Lib.Words

namespace ArmRunner

open Slice Words

/-- The big-endian half word at a position of the file. -/
def halfAt (file : List UInt8) (p : Nat) : UInt16 := UInt16.ofNat (beNat (slice file p (p + 2)))

def wordAt (file : List UInt8) (p : Nat) : UInt32 := UInt32.ofNat (beNat (slice file p (p + 4)))

def byteAt (file : List UInt8) (p : Nat) : UInt8 := UInt8.ofNat (beNat (slice file p (p + 1)))

def identOf (file : List UInt8) : ElfIdent where
  eiMag0 := byteAt file 0
  eiMag1 := byteAt file 1
  eiMag2 := byteAt file 2
  eiMag3 := byteAt file 3
  eiClass := byteAt file 4
  eiData := byteAt file 5
  eiVersion := byteAt file 6
  eiOsabi := byteAt file 7
  eiAbiversion := byteAt file 8
  eiPad := slice file 9 16

/-- The header that the ELF32 format gives a big-endian file. -/
def headerOf (file : List UInt8) : Elf32Ehdr where
  eIdent := identOf file
  eType := halfAt file 16
  eMachine := halfAt file 18
  eVersion := wordAt file 20
  eEntry := wordAt file 24
  ePhoff := wordAt file 28
  eShoff := wordAt file 32
  eFlags := wordAt file 36
  eEhsize := halfAt file 40
  ePhentsize := halfAt file 42
  ePhnum := halfAt file 44
  eShentsize := halfAt file 46
  eShnum := halfAt file 48
  eShstrndx := halfAt file 50

def shdrAt (file : List UInt8) (p : Nat) : Elf32Shdr where
  shName := wordAt file p
  shType := wordAt file (p + 4)
  shFlags := wordAt file (p + 8)
  shAddr := wordAt file (p + 12)
  shOffset := wordAt file (p + 16)
  shSize := wordAt file (p + 20)
  shLink := wordAt file (p + 24)
  shInfo := wordAt file (p + 28)
  shAddralign := wordAt file (p + 32)
  shEntsize := wordAt file (p + 36)

def symAt (file : List UInt8) (p : Nat) : Elf32Sym where
  stName := wordAt file p
  stValue := wordAt file (p + 4)
  stSize := wordAt file (p + 8)
  stInfo := byteAt file (p + 12)
  stOther := byteAt file (p + 13)
  stShndx := halfAt file (p + 14)

def relAt (file : List UInt8) (p : Nat) : Elf32Rel where
  rOffset := wordAt file p
  rInfo := wordAt file (p + 4)

/-- The section header table of the file. -/
def sectionsOf (file : List UInt8) : List Elf32Shdr :=
  (List.range (headerOf file).eShnum.toNat).map fun i =>
    shdrAt file ((headerOf file).eShoff.toNat + 40 * i)

def magicElf (ident : ElfIdent) : Prop :=
  ident.eiMag0 = 0x7f ∧ ident.eiMag1 = 0x45 ∧ ident.eiMag2 = 0x4c ∧ ident.eiMag3 = 0x46

instance (ident : ElfIdent) : Decidable (magicElf ident) := by
  unfold magicElf
  infer_instance

@[simp] theorem sectionsOf_length (file : List UInt8) :
    (sectionsOf file).length = (headerOf file).eShnum.toNat := by
  simp [sectionsOf]

theorem sectionsOf_getElem? {file : List UInt8} {i : Nat} (h : i < (headerOf file).eShnum.toNat) :
    (sectionsOf file)[i]? = some (shdrAt file ((headerOf file).eShoff.toNat + 40 * i)) := by
  simp [sectionsOf, h]

end ArmRunner
