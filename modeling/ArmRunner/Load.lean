import ArmRunner.Format
import ArmRunner.Lib.Block

namespace ArmRunner

open CRun Words

/-- `if (fread(p, n, 1, f) != 1) exit(1);` -/
def readBytes (f : CFile) (n : Nat) : Run (List UInt8 × CFile) :=
  match f.fread n with
  | some r => .ok r
  | none => .error .exit

def readByte (f : CFile) : Run (UInt8 × CFile) := do
  let (bs, f) ← readBytes f 1
  .ok (UInt8.ofNat (leNat bs), f)

/-- A half word is read into host memory and its bytes are swapped there. -/
def readHalf (f : CFile) : Run (UInt16 × CFile) := do
  let (bs, f) ← readBytes f 2
  .ok (bswap16 (hostWord16 bs), f)

def readWord (f : CFile) : Run (UInt32 × CFile) := do
  let (bs, f) ← readBytes f 4
  .ok (bswap32 (hostWord32 bs), f)

/-- The 64-bit branch of an address: eight bytes are read over a four-byte field. The last four
land in the field behind it, which the next read overwrites; the first four are widened before
the swap. -/
def readLong (f : CFile) : Run (UInt32 × CFile) := do
  let (bs, f) ← readBytes f 8
  .ok ((bswap64 (hostWord32 (bs.take 4)).toUInt64).toUInt32, f)

def readAddress (eiClass : UInt8) (f : CFile) : Run (UInt32 × CFile) :=
  if eiClass = 1 then readWord f else readLong f

def loadHeader (f : CFile) : Run (Elf32Ehdr × CFile) := do
  let (eiMag0, f) ← readByte f
  let (eiMag1, f) ← readByte f
  let (eiMag2, f) ← readByte f
  let (eiMag3, f) ← readByte f
  if eiMag0 ≠ 0x7f ∨ eiMag1 ≠ 0x45 ∨ eiMag2 ≠ 0x4c ∨ eiMag3 ≠ 0x46 then .error .exit else
  let (eiClass, f) ← readByte f
  let (eiData, f) ← readByte f
  let (eiVersion, f) ← readByte f
  let (eiOsabi, f) ← readByte f
  let (eiAbiversion, f) ← readByte f
  let (eiPad, f) ← readBytes f 7
  let (eType, f) ← readHalf f
  let (eMachine, f) ← readHalf f
  let (eVersion, f) ← readWord f
  let (eEntry, f) ← readAddress eiClass f
  let (ePhoff, f) ← readAddress eiClass f
  let (eShoff, f) ← readAddress eiClass f
  let (eFlags, f) ← readWord f
  let (eEhsize, f) ← readHalf f
  let (ePhentsize, f) ← readHalf f
  let (ePhnum, f) ← readHalf f
  let (eShentsize, f) ← readHalf f
  let (eShnum, f) ← readHalf f
  let (eShstrndx, f) ← readHalf f
  let eIdent := { eiMag0, eiMag1, eiMag2, eiMag3, eiClass, eiData, eiVersion, eiOsabi,
                  eiAbiversion, eiPad }
  .ok ({ eIdent, eType, eMachine, eVersion, eEntry, ePhoff, eShoff, eFlags, eEhsize, ePhentsize,
         ePhnum, eShentsize, eShnum, eShstrndx }, f)

def readShdr (f : CFile) : Run (Elf32Shdr × CFile) := do
  let (shName, f) ← readWord f
  let (shType, f) ← readWord f
  let (shFlags, f) ← readWord f
  let (shAddr, f) ← readWord f
  let (shOffset, f) ← readWord f
  let (shSize, f) ← readWord f
  let (shLink, f) ← readWord f
  let (shInfo, f) ← readWord f
  let (shAddralign, f) ← readWord f
  let (shEntsize, f) ← readWord f
  .ok ({ shName, shType, shFlags, shAddr, shOffset, shSize, shLink, shInfo, shAddralign,
         shEntsize }, f)

/-- The entries of the table, into a block that has room for them. A short read frees the table and
returns `NULL`; it does not end the program. -/
def readTabSectionHeader (f : CFile) (header : Elf32Ehdr) :
    Run (Option (List Elf32Shdr) × CFile) :=
  let f := f.fseek header.eShoff.toNat
  match collect (fun _ => readShdr) 0 header.eShnum.toNat f with
  | .ok (tab, f) => .ok (some tab, f)
  | .error _ => .ok (none, f)

def readSym (f : CFile) : Run (Elf32Sym × CFile) := do
  let (stName, f) ← readWord f
  let (stValue, f) ← readWord f
  let (stSize, f) ← readWord f
  let (stInfo, f) ← readByte f
  let (stOther, f) ← readByte f
  let (stShndx, f) ← readHalf f
  .ok ({ stName, stValue, stSize, stInfo, stOther, stShndx }, f)

/-- `while ((i < e_shnum) && (sectHeader[i].sh_type != 2)) i++;` with `n` tests left. -/
def symtabIndex (sectHeader : List Elf32Shdr) : Nat → Nat → Run Nat
  | i, 0 => .ok i
  | i, n + 1 => do
    let s ← fetch sectHeader i
    if s.shType ≠ shtSymtab then symtabIndex sectHeader (i + 1) n else .ok i

/-- The table and `nb_symboles`, which is `-1` when the file has no symbol table, into a block that
has room for the table. -/
def readSymTable (f : CFile) (header : Elf32Ehdr) (sectHeader : List Elf32Shdr) :
    Run ((List Elf32Sym × Int) × CFile) := do
  let i ← symtabIndex sectHeader 0 header.eShnum.toNat
  if i ≥ header.eShnum.toNat then .ok (([], -1), f) else
  let s ← fetch sectHeader i
  let count := s.shSize.toNat / 16
  let (tab, f) ← collect (fun _ => readSym) 0 count (f.fseek s.shOffset.toNat)
  .ok ((tab, count), f)

def readRel (f : CFile) : Run (Elf32Rel × CFile) := do
  let (rOffset, f) ← readWord f
  let (rInfo, f) ← readWord f
  .ok ({ rOffset, rInfo }, f)

/-- What the loop of `loadRelocTable` carries; `k` is the number of tables read. -/
structure RelocLoad where
  tables : List (List Elf32Rel)
  tabSecRel : TableauSectionReloc
  file : CFile

/-- One turn of the loop over the sections, into a block that has room for the table. `TabNb` has
256 entries. -/
def readRelocSection (sectHeader : List Elf32Shdr) (i : Nat) (r : RelocLoad) : Run RelocLoad := do
  let s ← fetch sectHeader i
  if s.shType = shtRel then
    let count := s.shSize.toNat / 8
    if 256 ≤ r.tables.length then .error .fault else
    let (entries, f) ← collect (fun _ => readRel) 0 count (r.file.fseek s.shOffset.toNat)
    .ok { tables := r.tables ++ [entries]
          tabSecRel := ⟨r.tabSecRel.tabNb ++ [count], r.tabSecRel.nbSections + 1⟩
          file := f }
  else .ok r

def readRelocTable (f : CFile) (header : Elf32Ehdr) (sectHeader : List Elf32Shdr)
    (tabSecRel : TableauSectionReloc) : Run RelocLoad :=
  forLoop (readRelocSection sectHeader) 0 header.eShnum.toNat ⟨[], tabSecRel, f⟩

/-- The scan for the section that follows section `i` in the file, started at `i + 1`. -/
def nextSection (sectHeader : List Elf32Shdr) (eShnum i : Nat) : Run Nat :=
  forLoop (fun j val => do
    let sj ← fetch sectHeader j
    let si ← fetch sectHeader i
    let sv ← fetch sectHeader val
    .ok (if sj.shOffset > si.shOffset ∧ sj.shOffset < sv.shOffset then j else val))
    0 eShnum (i + 1)

/-- One turn of the loop of `loadSectionContent`. A negative size makes `malloc` fail. -/
def loadOneContent (header : Elf32Ehdr) (sectHeader : List Elf32Shdr) (i : Nat) (f : CFile) :
    Run (SectionContent × CFile) := do
  let s ← fetch sectHeader i
  if s.shSize = 0 then .ok (⟨0, []⟩, f) else
  let f := f.fseek s.shOffset.toNat
  if i + 1 < header.eShnum.toNat then
    let val ← nextSection sectHeader header.eShnum.toNat i
    let sv ← fetch sectHeader val
    let size := asInt (if s.shType = shtRel then s.shSize else sv.shOffset - s.shOffset)
    if size < 0 then .error .exit else
    let (bytes, f) ← readBytes f size.toNat
    .ok (⟨size, bytes⟩, f)
  else
    let size := header.eShoff - s.shOffset
    let (bytes, f) ← readBytes f size.toNat
    .ok (⟨asInt size, bytes⟩, f)

def loadSectionContent (f : CFile) (header : Elf32Ehdr) (sectHeader : List Elf32Shdr) :
    Run (List SectionContent × CFile) :=
  collect (loadOneContent header sectHeader) 0 header.eShnum.toNat
    (f.fseek header.eEhsize.toNat)

/-- `if (fread(p + off, n, 1, f) != 1) exit(1);` for a block of `size` bytes at `p`. -/
def readBytesInto (size off n : Nat) (f : CFile) : Run (List UInt8 × CFile) := do
  let read ← f.freadInto size off n
  match read with
  | some r => .ok r
  | none => .error .exit

def readByteInto (size off : Nat) (f : CFile) : Run (UInt8 × CFile) := do
  let (bs, f) ← readBytesInto size off 1 f
  .ok (UInt8.ofNat (leNat bs), f)

def readHalfInto (size off : Nat) (f : CFile) : Run (UInt16 × CFile) := do
  let (bs, f) ← readBytesInto size off 2 f
  .ok (bswap16 (hostWord16 bs), f)

def readWordInto (size off : Nat) (f : CFile) : Run (UInt32 × CFile) := do
  let (bs, f) ← readBytesInto size off 4 f
  .ok (bswap32 (hostWord32 bs), f)

def readShdrInto (size off : Nat) (f : CFile) : Run (Elf32Shdr × CFile) := do
  let (shName, f) ← readWordInto size off f
  let (shType, f) ← readWordInto size (off + 4) f
  let (shFlags, f) ← readWordInto size (off + 8) f
  let (shAddr, f) ← readWordInto size (off + 12) f
  let (shOffset, f) ← readWordInto size (off + 16) f
  let (shSize, f) ← readWordInto size (off + 20) f
  let (shLink, f) ← readWordInto size (off + 24) f
  let (shInfo, f) ← readWordInto size (off + 28) f
  let (shAddralign, f) ← readWordInto size (off + 32) f
  let (shEntsize, f) ← readWordInto size (off + 36) f
  .ok ({ shName, shType, shFlags, shAddr, shOffset, shSize, shLink, shInfo, shAddralign,
         shEntsize }, f)

def readSymInto (size off : Nat) (f : CFile) : Run (Elf32Sym × CFile) := do
  let (stName, f) ← readWordInto size off f
  let (stValue, f) ← readWordInto size (off + 4) f
  let (stSize, f) ← readWordInto size (off + 8) f
  let (stInfo, f) ← readByteInto size (off + 12) f
  let (stOther, f) ← readByteInto size (off + 13) f
  let (stShndx, f) ← readHalfInto size (off + 14) f
  .ok ({ stName, stValue, stSize, stInfo, stOther, stShndx }, f)

def readRelInto (size off : Nat) (f : CFile) : Run (Elf32Rel × CFile) := do
  let (rOffset, f) ← readWordInto size off f
  let (rInfo, f) ← readWordInto size (off + 4) f
  .ok ({ rOffset, rInfo }, f)

/-- `malloc(e_shentsize * e_shnum)`: the product of two `int`s. From 2 GiB on it is negative, and
`malloc` fails. -/
def loadTabSectionHeader (f : CFile) (header : Elf32Ehdr) :
    Run (Option (List Elf32Shdr) × CFile) :=
  let size := header.eShentsize.toNat * header.eShnum.toNat
  if 2 ^ 31 ≤ size then .error .exit else
  let f := f.fseek header.eShoff.toNat
  match collect (fun i => readShdrInto size (40 * i)) 0 header.eShnum.toNat f with
  | .ok (tab, f) => .ok (some tab, f)
  | .error .exit => .ok (none, f)
  | .error .fault => .error .fault

/-- `malloc(sh_size * 16)`: a product of 32 bits. -/
def loadSymTable (f : CFile) (header : Elf32Ehdr) (sectHeader : List Elf32Shdr) :
    Run ((List Elf32Sym × Int) × CFile) := do
  let i ← symtabIndex sectHeader 0 header.eShnum.toNat
  if i ≥ header.eShnum.toNat then .ok (([], -1), f) else
  let s ← fetch sectHeader i
  let size := (s.shSize * 16).toNat
  let count := s.shSize.toNat / 16
  let (tab, f) ← collect (fun j => readSymInto size (16 * j)) 0 count (f.fseek s.shOffset.toNat)
  .ok ((tab, count), f)

/-- One turn of the loop over the sections, with `malloc(sh_size)` for each table. -/
def loadRelocSection (sectHeader : List Elf32Shdr) (i : Nat) (r : RelocLoad) :
    Run RelocLoad := do
  let s ← fetch sectHeader i
  if s.shType = shtRel then
    let size := s.shSize.toNat
    let count := s.shSize.toNat / 8
    if 256 ≤ r.tables.length then .error .fault else
    let (entries, f) ←
      collect (fun j => readRelInto size (8 * j)) 0 count (r.file.fseek s.shOffset.toNat)
    .ok { tables := r.tables ++ [entries]
          tabSecRel := ⟨r.tabSecRel.tabNb ++ [count], r.tabSecRel.nbSections + 1⟩
          file := f }
  else .ok r

def loadRelocTable (f : CFile) (header : Elf32Ehdr) (sectHeader : List Elf32Shdr)
    (tabSecRel : TableauSectionReloc) : Run RelocLoad :=
  forLoop (loadRelocSection sectHeader) 0 header.eShnum.toNat ⟨[], tabSecRel, f⟩

/-- The load sequence of `main` up to the section contents. -/
def loadTables (file : List UInt8) : Run (Elf32Main × CFile) := do
  let (header, f) ← loadHeader (CFile.openRead file)
  let (tab, f) ← loadTabSectionHeader f header
  let sectHeader := tab.getD []
  let ((symTable, nbSymboles), f) ← loadSymTable f header sectHeader
  let reloc ← loadRelocTable f header sectHeader ⟨[], 0⟩
  .ok ({ header, sectHeader, symTable, relTable := reloc.tables, sectionContent := [],
         tabSecRel := reloc.tabSecRel, nbSymboles }, reloc.file)

/-- The load sequence of `main`. A `NULL` section table has no entry to read, and the block of a
content is as large as what is read into it. -/
def load (file : List UInt8) : Run (Elf32Main × CFile) := do
  let (elf, f) ← loadTables file
  let (sectionContent, f) ← loadSectionContent f elf.header elf.sectHeader
  .ok ({ elf with sectionContent }, f)

end ArmRunner
