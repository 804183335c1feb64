import ArmRunner.Elf
import ArmRunner.Lib.CFile
import ArmRunner.Lib.WriteLog

namespace ArmRunner

open CRun WriteLog

/-- The loop of `printName`, with `n` characters left of the 17 it keeps. -/
def scanName : Nat → CFile → List UInt8 × CFile
  | 0, f => ([], f.fgetc.2)
  | n + 1, f =>
    match f.fgetc with
    | (some c, f) =>
      if c ≠ 0 then
        let (name, f) := scanName n f
        (c :: name, f)
      else ([], f)
    | (none, f) => ([], f)

def printName (f : CFile) (offset : Int) : List UInt8 × CFile := scanName 17 (f.fseek offset)

/-- `.text` and `.data`. -/
def textName : List UInt8 := [0x2e, 0x74, 0x65, 0x78, 0x74]

def dataName : List UInt8 := [0x2e, 0x64, 0x61, 0x74, 0x61]

/-- What the two calls of `strcmp` select to add to the value of a symbol. -/
def amount (text data : UInt32) (nomSection : List UInt8) : UInt32 :=
  if nomSection = textName then text else if nomSection = dataName then data else 0

def correctSymbol (text data : UInt32) (j : Nat) (s : Elf32Main × CFile) :
    Run (Elf32Main × CFile) := do
  let (elf, f) := s
  let strings ← fetch elf.sectHeader elf.header.eShstrndx.toNat
  let sym ← fetch elf.symTable j
  let section' ← fetch elf.sectHeader sym.stShndx.toNat
  let (nomSection, f) := printName f (asInt (strings.shOffset + section'.shName))
  let symTable ← assign elf.symTable j
    { sym with stValue := sym.stValue + amount text data nomSection }
  .ok ({ elf with symTable }, f)

def correctSymTable (f : CFile) (elf : Elf32Main) (text data : UInt32) :
    Run (Elf32Main × CFile) :=
  forLoop (correctSymbol text data) 0 elf.nbSymboles.toNat (elf, f)

/-- Both branches of the source mask with all ones or with nothing: no sign is extended. -/
def signExtend16 (p : UInt16) : UInt32 :=
  let masque : UInt32 := 0
  if p >>> 15 = 1 then ~~~masque &&& p.toUInt32 else masque ||| p.toUInt32

def signExtend8 (p : UInt8) : UInt32 :=
  let masque : UInt32 := 0
  if p >>> 7 = 1 then ~~~masque &&& p.toUInt32 else masque ||| p.toUInt32

/-- `*(to_modify + offset) = x` for a section's buffer. -/
def storeByte (content : List SectionContent) (place : Nat × Nat) (x : UInt8) :
    Run (List SectionContent) := do
  let c ← fetch content place.1
  let sectionBytes ← assign c.sectionBytes place.2 x
  assign content place.1 { c with sectionBytes }

/-- One entry of a relocation table. The types 2, 28 and 29 and all others change nothing. -/
def correctEntry (rel : Elf32Rel) (elf : Elf32Main) : Run Elf32Main := do
  let sym ← fetch elf.symTable rel.sym
  let s ← fetch elf.sectHeader sym.stShndx.toNat
  let _ ← fetch elf.sectionContent s.shInfo.toNat
  if rel.type = rArmAbs16 then
    let p16 := (s.shAddr + rel.rOffset).toUInt16
    let addend := signExtend16 p16
    let sectionContent ← storeByte elf.sectionContent (s.shInfo.toNat, rel.rOffset.toNat)
      (sym.stValue + addend).toUInt8
    .ok { elf with sectionContent }
  else if rel.type = rArmAbs8 then
    let p8 := (s.shAddr + rel.rOffset).toUInt8
    let addend := signExtend8 p8
    let sectionContent ← storeByte elf.sectionContent (s.shInfo.toNat, rel.rOffset.toNat)
      (sym.stValue + addend).toUInt8
    .ok { elf with sectionContent }
  else .ok elf

def correctTable (i : Nat) (elf : Elf32Main) : Run Elf32Main := do
  let count ← fetch elf.tabSecRel.tabNb i
  forLoop (fun j elf => do
    let table ← fetch elf.relTable i
    let rel ← fetch table j
    correctEntry rel elf) 0 count elf

def correctABSReloc (elf : Elf32Main) : Run Elf32Main :=
  forLoop correctTable 0 elf.tabSecRel.nbSections elf

end ArmRunner
