import ArmRunner.Lib.CFile
import ArmRunner.Lib.Words
import ArmRunner.View
import Mathlib.Data.List.Sort

namespace ArmRunner

open CRun Words

def writeByte (f : CFile) (x : UInt8) : CFile := f.fwrite [x]

/-- The word is swapped into a temporary, whose bytes are written in host order. -/
def writeHalf (f : CFile) (x : UInt16) : CFile := f.fwrite (leBytes 2 (bswap16 x).toNat)

def writeWord (f : CFile) (x : UInt32) : CFile := f.fwrite (leBytes 4 (bswap32 x).toNat)

/-- The 64-bit branch writes eight bytes of host memory from the field on, unswapped: the field
and the one behind it. -/
def writeAddress (f : CFile) (eiClass : UInt8) (x behind : UInt32) : CFile :=
  if eiClass = 1 then writeWord f x
  else f.fwrite (leBytes 4 x.toNat ++ leBytes 4 behind.toNat)

def writeHeader (h : Elf32Ehdr) (fdest : CFile) : CFile :=
  let f := fdest.fseek 0
  let f := writeByte f h.eIdent.eiMag0
  let f := writeByte f h.eIdent.eiMag1
  let f := writeByte f h.eIdent.eiMag2
  let f := writeByte f h.eIdent.eiMag3
  let f := writeByte f h.eIdent.eiClass
  let f := writeByte f h.eIdent.eiData
  let f := writeByte f h.eIdent.eiVersion
  let f := writeByte f h.eIdent.eiOsabi
  let f := writeByte f h.eIdent.eiAbiversion
  let f := f.fwrite h.eIdent.eiPad
  let f := writeHalf f h.eType
  let f := writeHalf f h.eMachine
  let f := writeWord f h.eVersion
  let f := writeAddress f h.eIdent.eiClass h.eEntry h.ePhoff
  let f := writeAddress f h.eIdent.eiClass h.ePhoff h.eShoff
  let f := writeAddress f h.eIdent.eiClass h.eShoff h.eFlags
  let f := writeWord f h.eFlags
  let f := writeHalf f h.eEhsize
  let f := writeHalf f h.ePhentsize
  let f := writeHalf f h.ePhnum
  let f := writeHalf f h.eShentsize
  let f := writeHalf f h.eShnum
  writeHalf f h.eShstrndx

/-- The pairs that are sorted to list the sections by offset. -/
structure TempTab where
  indice : Nat
  offset : Int
  deriving DecidableEq, Repr

def compare (e1 e2 : TempTab) : Int :=
  if e1.offset = e2.offset then 0 else if e1.offset < e2.offset then -1 else 1

/-- What `qsort` with `compare` promises: the same entries, in an order `compare` accepts. The
order of entries that compare equal is left open. -/
structure Qsort where
  sort : List TempTab → List TempTab
  perm : ∀ tab, (sort tab).Perm tab
  sorted : ∀ tab, (sort tab).Pairwise fun e1 e2 => compare e1 e2 ≤ 0

instance : Std.Total (fun e1 e2 : TempTab => compare e1 e2 ≤ 0) := by
  constructor
  intro e1 e2
  simp only [compare]
  split <;> split <;> omega

instance : IsTrans TempTab (fun e1 e2 : TempTab => compare e1 e2 ≤ 0) := by
  constructor
  intro e1 e2 e3
  simp only [compare]
  split <;> split <;> split <;> omega

/-- Insertion sort keeps the promise. -/
def insertionQsort : Qsort where
  sort := List.insertionSort fun e1 e2 => compare e1 e2 ≤ 0
  perm := List.perm_insertionSort _
  sorted := List.pairwise_insertionSort _

def writeSym (f : CFile) (sym : Elf32Sym) : CFile :=
  let f := writeWord f sym.stName
  let f := writeWord f sym.stValue
  let f := writeWord f sym.stSize
  let f := writeByte f sym.stInfo
  let f := writeByte f sym.stOther
  writeHalf f sym.stShndx

/-- The bytes that a transfer of `size` bytes reads from the buffer. -/
def SectionContent.read (c : SectionContent) : Run (List UInt8) :=
  if 0 ≤ c.size ∧ c.size.toNat ≤ c.sectionBytes.length then
    .ok (c.sectionBytes.take c.size.toNat)
  else .error .fault

def sortTable (elf : Elf32Main) : Run (List TempTab) :=
  forLoop (fun i tab => do
    let s ← fetch elf.sectHeader i
    .ok (tab ++ [⟨i, asInt s.shOffset⟩])) 0 elf.header.eShnum.toNat []

def writeOneSection (elf : Elf32Main) (indice : Nat) (fdest : CFile) : Run CFile := do
  let s ← fetch elf.sectHeader indice
  if s.shType = shtSymtab then
    forLoop (fun j f => do
      let sym ← fetch elf.symTable j
      .ok (writeSym f sym)) 0 elf.nbSymboles.toNat fdest
  else
    let c ← fetch elf.sectionContent indice
    if c.size ≠ 0 then
      let bytes ← c.read
      .ok (fdest.fwrite bytes)
    else .ok fdest

def writeSectionContent (q : Qsort) (elf : Elf32Main) (fdest : CFile) : Run CFile := do
  let tab ← sortTable elf
  let tab := q.sort tab
  forLoop (fun i f => do
    let e ← fetch tab i
    writeOneSection elf e.indice f) 0 elf.header.eShnum.toNat fdest

def writeShdr (f : CFile) (s : Elf32Shdr) : CFile :=
  let f := writeWord f s.shName
  let f := writeWord f s.shType
  let f := writeWord f s.shFlags
  let f := writeWord f s.shAddr
  let f := writeWord f s.shOffset
  let f := writeWord f s.shSize
  let f := writeWord f s.shLink
  let f := writeWord f s.shInfo
  let f := writeWord f s.shAddralign
  writeWord f s.shEntsize

def writeSectionHeader (elf : Elf32Main) (fdest : CFile) : Run CFile :=
  forLoop (fun i f => do
    let s ← fetch elf.sectHeader i
    .ok (writeShdr f s)) 0 elf.header.eShnum.toNat fdest

/-- The three writes that end every option with a destination file. -/
def writeElf (q : Qsort) (elf : Elf32Main) (fdest : CFile) : Run CFile := do
  let f := writeHeader elf.header fdest
  let f ← writeSectionContent q elf f
  writeSectionHeader elf f

end ArmRunner
