import ArmRunner.Names
import ArmRunner.Relocate

namespace ArmRunner

open CRun

def charBytes (text : String) : List UInt8 := text.toList.map fun c => UInt8.ofNat c.toNat

/-- `%08x`: the digits from the most significant one on. -/
def hexWord (x : UInt32) : List UInt8 :=
  (List.range 8).map fun k =>
    let digit := x.toNat / 16 ^ (7 - k) % 16
    UInt8.ofNat (if digit < 10 then 0x30 + digit else 0x61 + (digit - 10))

/-- A type without a case prints nothing, not even the tabulator. -/
def relocTypeName (type : Nat) : String :=
  if type = rArmAbs32 then "R_ARM_ABS32\t"
  else if type = rArmAbs16 then "R_ARM_ABS16\t"
  else if type = rArmAbs8 then "R_ARM_ABS8\t"
  else if type = rArmCall then "R_ARM_CALL\t"
  else if type = rArmJump24 then "R_ARM_JUMP24\t"
  else ""

/-- The section whose index is one below `e_shstrndx`; the subtraction is one of `int`s. -/
def sectionBefore (elf : Elf32Main) : Run Elf32Shdr :=
  if elf.header.eShstrndx = 0 then .error .fault
  else fetch elf.sectHeader (elf.header.eShstrndx.toNat - 1)

/-- The stream of the source, and what is printed. -/
abbrev Printed := CFile × List UInt8

/-- The name in a line: that of the symbol's section, when the symbol has the value 0. -/
def relocName (elf : Elf32Main) (sym : Elf32Sym) (f : CFile) : Run (List UInt8 × CFile) :=
  if sym.stValue = 0 then do
    let strings ← fetch elf.sectHeader elf.header.eShstrndx.toNat
    let s ← fetch elf.sectHeader sym.stShndx.toNat
    .ok (printName f (asInt (strings.shOffset + s.shName)))
  else do
    let strings ← sectionBefore elf
    .ok (printName f (asInt (strings.shOffset + sym.stName)))

def printReloc (elf : Elf32Main) (rel : Elf32Rel) (s : Printed) : Run Printed := do
  let (f, out) := s
  let out := out ++ hexWord rel.rOffset ++ charBytes "\t" ++ hexWord rel.rInfo ++ charBytes "\t" ++
    charBytes (relocTypeName rel.type)
  let sym ← fetch elf.symTable rel.sym
  let out := out ++ hexWord sym.stValue ++ charBytes "\t"
  let (nomSection, f) ← relocName elf sym f
  .ok (f, out ++ nomSection ++ charBytes "\t\n")

def printRelocSection (elf : Elf32Main) (i : Nat) (s : Printed) : Run Printed := do
  let count ← fetch elf.tabSecRel.tabNb i
  let (f, out) ← forLoop (fun j s => do
    let table ← fetch elf.relTable i
    let rel ← fetch table j
    printReloc elf rel s) 0 count s
  .ok (f, out ++ charBytes "\n")

/-- The loader returns `NULL` when there is no table. -/
def printRelocTable (f : CFile) (elf : Elf32Main) : Run Printed :=
  if elf.relTable ≠ [] then
    forLoop (printRelocSection elf) 0 elf.tabSecRel.nbSections (f, [])
  else .ok (f, charBytes "There are no relocations in this file.\n")

/-- The lookups for the name of a symbol. -/
def NameInRange (elf : Elf32Main) (sym : Elf32Sym) : Prop :=
  if sym.stValue = 0 then
    elf.header.eShstrndx.toNat < elf.sectHeader.length ∧
      sym.stShndx.toNat < elf.sectHeader.length
  else elf.header.eShstrndx ≠ 0 ∧ elf.header.eShstrndx.toNat ≤ elf.sectHeader.length

def LineInRange (elf : Elf32Main) (rel : Elf32Rel) : Prop :=
  ∃ sym, elf.symTable[rel.sym]? = some sym ∧ NameInRange elf sym

section lines

variable {elf : Elf32Main}

theorem sectionBefore_returns :
    (∃ s, sectionBefore elf = .ok s) ↔
      elf.header.eShstrndx ≠ 0 ∧ elf.header.eShstrndx.toNat ≤ elf.sectHeader.length := by
  unfold sectionBefore
  by_cases none : elf.header.eShstrndx = 0
  · simp [none]
  · have low := UInt16.lt_iff_toNat_lt.mp (UInt16.pos_iff_ne_zero.mpr none)
    rw [UInt16.toNat_zero] at low
    rw [if_neg none, fetch_returns]
    simp only [none, ne_eq, not_false_eq_true, true_and]
    omega

theorem relocName_returns (sym : Elf32Sym) (f : CFile) :
    (∃ r, relocName elf sym f = .ok r) ↔ NameInRange elf sym := by
  unfold relocName NameInRange
  by_cases zero : sym.stValue = 0
  · rw [if_pos zero, if_pos zero]
    constructor
    · rintro ⟨r, run⟩
      obtain ⟨strings, hstrings, run⟩ := bind_eq_ok.mp run
      obtain ⟨s, hs, _⟩ := bind_eq_ok.mp run
      exact ⟨fetch_returns.mp ⟨strings, hstrings⟩, fetch_returns.mp ⟨s, hs⟩⟩
    · rintro ⟨strings, there⟩
      rw [fetch_of_lt strings, ok_bind, fetch_of_lt there]
      exact ⟨_, rfl⟩
  · rw [if_neg zero, if_neg zero, ← sectionBefore_returns]
    exact bind_returns fun _ => ⟨_, rfl⟩

/-- A line is printed from any state of the stream, or from none. -/
theorem printReloc_returns (rel : Elf32Rel) (s : Printed) :
    (∃ s', printReloc elf rel s = .ok s') ↔ LineInRange elf rel := by
  unfold LineInRange
  rw [printReloc]
  dsimp only
  cases hsym : elf.symTable[rel.sym]? with
  | none => simp [fetch, hsym]
  | some sym =>
    rw [fetch_eq_ok.mpr hsym, ok_bind]
    simp only [Option.some.injEq, exists_eq_left']
    rw [← relocName_returns sym s.1]
    exact bind_returns fun _ => ⟨_, rfl⟩

theorem printRelocSection_eq {table : List Elf32Rel} (shape : RelocShape elf) {i : Nat}
    (ht : elf.relTable[i]? = some table) (s : Printed) :
    printRelocSection elf i s = (do
      let (f, out) ← table.foldlM (fun s rel => printReloc elf rel s) s
      .ok (f, out ++ charBytes "\n")) := by
  rw [printRelocSection, fetch_eq_ok.mpr (shape.count_at ht), ok_bind]
  congr 1
  apply forLoop_entries
  intro k rel t hk
  rw [Nat.zero_add, fetch_eq_ok.mpr ht, ok_bind, fetch_eq_ok.mpr hk, ok_bind]

/-- The listing is printed exactly when the lookups for every line are in range. -/
theorem printRelocTable_returns (shape : RelocShape elf) (f : CFile) :
    (∃ s, printRelocTable f elf = .ok s) ↔ ∀ rel ∈ elf.relTable.flatten, LineInRange elf rel := by
  by_cases none : elf.relTable = []
  · simp [printRelocTable, none]
  have tables : printRelocTable f elf = elf.relTable.foldlM (fun s table => do
      let (f, out) ← table.foldlM (fun s rel => printReloc elf rel s) s
      .ok (f, out ++ charBytes "\n")) (f, []) := by
    rw [printRelocTable, if_pos none, shape.nbSections]
    apply forLoop_entries
    intro k table t hk
    rw [Nat.zero_add, printRelocSection_eq shape hk]
  have turn (table : List Elf32Rel) (s : Printed) : (∃ s', (do
      let (f, out) ← table.foldlM (fun s rel => printReloc elf rel s) s
      .ok (f, out ++ charBytes "\n") : Run Printed) = .ok s') ↔
        ∀ rel ∈ table, LineInRange elf rel := by
    rw [← foldlM_returns_iff printReloc_returns table s]
    exact bind_returns fun _ => ⟨_, rfl⟩
  rw [tables, foldlM_returns_iff turn, List.forall_mem_flatten]

end lines

end ArmRunner
