import ArmRunner.Elf

namespace ArmRunner

open CRun

abbrev Section := Elf32Shdr × SectionContent

/-- The object file that a state in memory stands for: one list of sections, each with its
content, instead of two arrays and a count. `behind` is the header left over behind the table. -/
structure View where
  header : Elf32Ehdr
  sections : List Section
  symTable : List Elf32Sym
  behind : Option Elf32Shdr

structure Represents (elf : Elf32Main) (v : View) : Prop where
  header : elf.header = v.header
  count : elf.header.eShnum.toNat = v.sections.length
  heads : ∃ tail, elf.sectHeader = v.sections.map Prod.fst ++ tail ∧ tail.head? = v.behind
  contents : ∃ tail, elf.sectionContent = v.sections.map Prod.snd ++ tail
  symTable : elf.symTable = v.symTable
  nbSymboles : elf.nbSymboles.toNat = v.symTable.length

/-- The buffer has the recorded size. -/
def SectionContent.Filled (c : SectionContent) : Prop := c.size = c.sectionBytes.length

/-- What the loaders establish: full tables, and buffers of the recorded sizes unless the size,
which is an `int`, came out negative. -/
structure Loaded (elf : Elf32Main) : Prop where
  heads : elf.sectHeader.length = elf.header.eShnum.toNat
  contents : elf.sectionContent.length = elf.header.eShnum.toNat
  nbSymboles : elf.nbSymboles.toNat = elf.symTable.length
  sized : ∀ c ∈ elf.sectionContent, c.Filled ∨ c.size < 0

def viewOf (elf : Elf32Main) : View where
  header := elf.header
  sections := elf.sectHeader.zip elf.sectionContent
  symTable := elf.symTable
  behind := none

theorem Loaded.viewOf_heads {elf : Elf32Main} (h : Loaded elf) :
    (viewOf elf).sections.map Prod.fst = elf.sectHeader :=
  List.map_fst_zip (Nat.le_of_eq (h.heads.trans h.contents.symm))

theorem viewOf_represents {elf : Elf32Main} (h : Loaded elf) : Represents elf (viewOf elf) := by
  have lengths : elf.sectHeader.length = elf.sectionContent.length := h.heads.trans h.contents.symm
  refine ⟨rfl, ?_, ⟨[], ?_, rfl⟩, ⟨[], ?_⟩, rfl, h.nbSymboles⟩
  · simp [viewOf, ← h.heads, lengths]
  · rw [h.viewOf_heads, List.append_nil]
  · simp [viewOf, List.map_snd_zip (Nat.le_of_eq lengths.symm)]

theorem Represents.fetch_head {elf : Elf32Main} {v : View} (h : Represents elf v)
    {i : Nat} {s : Section} (hs : v.sections[i]? = some s) : fetch elf.sectHeader i = .ok s.1 := by
  obtain ⟨tail, heads, _⟩ := h.heads
  have hi := (List.getElem?_eq_some_iff.mp hs).1
  apply fetch_eq_ok.mpr
  rw [heads, List.getElem?_append_left (by simpa using hi), List.getElem?_map, hs]
  rfl

theorem Represents.fetch_content {elf : Elf32Main} {v : View} (h : Represents elf v)
    {i : Nat} {s : Section} (hs : v.sections[i]? = some s) :
    fetch elf.sectionContent i = .ok s.2 := by
  obtain ⟨tail, contents⟩ := h.contents
  have hi := (List.getElem?_eq_some_iff.mp hs).1
  apply fetch_eq_ok.mpr
  rw [contents, List.getElem?_append_left (by simpa using hi), List.getElem?_map, hs]
  rfl

end ArmRunner
