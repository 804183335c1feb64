import ArmRunner.Decode
import ArmRunner.Truncated
import ArmRunner.WellFormed

namespace ArmRunner

open CRun

/-- Every entry that the loaders of `header` store lies in the block requested for its table. The
loaders behind the first run on the table that it has read. -/
structure EntriesInside (header : Elf32Ehdr) (f : CFile) : Prop where
  sections : loadTabSectionHeader f header ≠ .error .fault
  symbols : ∀ tab g, loadTabSectionHeader f header = .ok (some tab, g) →
    loadSymTable g header tab ≠ .error .fault
  relocs : ∀ tab g, loadTabSectionHeader f header = .ok (some tab, g) →
    ∀ i < header.eShnum.toNat, ∀ r : RelocLoad, r.tables.length < 256 →
      loadRelocSection tab i r ≠ .error .fault

/-- The block requested for the section headers has room for what the file has of them. -/
def SectionsRoom (file : List UInt8) (header : Elf32Ehdr) : Prop :=
  header.eShnum = 0 ∨ 40 ≤ header.eShentsize.toNat ∨
    file.length - header.eShoff.toNat ≤ header.eShentsize.toNat * header.eShnum.toNat

/-- The block requested for the first symbol table has room for what the file has of it: the product
`sh_size * 16` drops the four most significant bits of the size. -/
def SymbolsRoom (file : List UInt8) (tab : List Elf32Shdr) : Prop :=
  ∀ s ∈ tab.find? Elf32Shdr.isSymtab, s.shSize.toNat / 16 ≤ s.shSize.toNat % 2 ^ 28 ∨
    file.length - s.shOffset.toNat ≤ 16 * (s.shSize.toNat % 2 ^ 28)

section room

variable {file : List UInt8} {header : Elf32Ehdr} {tab : List Elf32Shdr} {p : Nat} {f g : CFile}

theorem symtabContained_iff : SymtabContained file tab ↔ SymbolsRoom file tab := by
  have requested (s : Elf32Shdr) : (s.shSize * 16).toNat = 16 * (s.shSize.toNat % 2 ^ 28) := by
    rw [UInt32.toNat_mul]
    change s.shSize.toNat * 16 % 2 ^ 32 = _
    omega
  simp only [SymtabContained, SymbolsRoom, requested]
  refine forall_congr' fun s => imp_congr_right fun _ => ?_
  omega

/-- A product from 2 GiB on has a factor `e_shentsize` that is large enough. -/
theorem shentsize_of_large
    (large : 2 ^ 31 ≤ header.eShentsize.toNat * header.eShnum.toNat) :
    40 ≤ header.eShentsize.toNat := by
  have count := header.eShnum.toNat_lt
  by_contra small
  have product : header.eShentsize.toNat * header.eShnum.toNat ≤ 40 * 2 ^ 16 :=
    Nat.mul_le_mul (by omega) (by omega)
  omega

theorem sections_inside_iff :
    loadTabSectionHeader ⟨file, p⟩ header ≠ .error .fault ↔ SectionsRoom file header := by
  by_cases large : 2 ^ 31 ≤ header.eShentsize.toNat * header.eShnum.toNat
  · rw [loadTabSectionHeader, if_pos large]
    exact iff_of_true (by simp) (Or.inr (Or.inl (shentsize_of_large large)))
  have left : (⟨file, header.eShoff.toNat⟩ : CFile).left =
      file.length - header.eShoff.toNat := rfl
  have noFault : readTabSectionHeader ⟨file, p⟩ header ≠ .error .fault := by
    rw [readTabSectionHeader]
    split
    · simp
    · simp
  rw [loadTabSectionHeader_eq (by omega), CFile.fseek_natCast, left]
  have room : SectionsRoom file header ↔
      ¬header.eShentsize.toNat * header.eShnum.toNat <
        min (40 * header.eShnum.toNat) (file.length - header.eShoff.toNat) := by
    rw [SectionsRoom, not_lt, min_le_iff, ← or_assoc]
    refine or_congr_left ?_
    constructor
    · rintro (zero | entries)
      · simp [zero]
      · exact Nat.mul_le_mul_right _ entries
    · intro covered
      by_cases zero : header.eShnum = 0
      · exact Or.inl zero
      · exact Or.inr (Nat.le_of_mul_le_mul_right covered (eShnum_pos zero))
  rw [room]
  by_cases beyond : header.eShentsize.toNat * header.eShnum.toNat <
      min (40 * header.eShnum.toNat) (file.length - header.eShoff.toNat)
  · simp [beyond]
  · simp [beyond, noFault]

/-- A section header table that is read is the whole one of the file. -/
theorem loadTabSectionHeader_table
    (run : loadTabSectionHeader ⟨file, p⟩ header = .ok (some tab, g)) :
    header.eShentsize.toNat * header.eShnum.toNat < 2 ^ 31 ∧
      (header.eShnum = 0 ∨ header.eShoff.toNat + 40 * header.eShnum.toNat ≤ file.length) ∧
      tab = tableOf file header ∧ g.bytes = file := by
  have small : header.eShentsize.toNat * header.eShnum.toNat < 2 ^ 31 := by
    by_contra large
    rw [loadTabSectionHeader, if_pos (by omega)] at run
    cases run
  refine ⟨small, ?_⟩
  rw [loadTabSectionHeader_eq small] at run
  split at run
  · cases run
  · have reads := Reads.collect (@readShdr_fills 0 0).reads 0 header.eShnum.toNat
    have left : (⟨file, header.eShoff.toNat⟩ : CFile).left =
        file.length - header.eShoff.toNat := rfl
    by_cases zero : header.eShnum = 0
    · have none : header.eShnum.toNat = 0 := by
        rw [zero]
        rfl
      rw [readTabSectionHeader, none] at run
      cases run
      refine ⟨Or.inl zero, ?_, rfl⟩
      rw [tableOf, none]
      rfl
    · have positive := eShnum_pos zero
      by_cases short : file.length - header.eShoff.toNat < 40 * header.eShnum.toNat
      · rw [readTabSectionHeader, CFile.fseek_natCast, reads.short _ (by rwa [left])] at run
        cases run
      · have table : header.eShoff.toNat + 40 * header.eShnum.toNat ≤ file.length := by omega
        rw [readTabSectionHeader_table table] at run
        cases run
        exact ⟨Or.inr table, rfl, rfl⟩

theorem loadRelocSection_inside (full : tab.length = header.eShnum.toNat) {i : Nat}
    (hi : i < header.eShnum.toNat) {r : RelocLoad} (room : r.tables.length < 256) :
    loadRelocSection tab i r ≠ .error .fault := by
  have here : tab[i]? = some tab[i] := List.getElem?_eq_getElem (by omega)
  have reads := Reads.collect (@readRel_fills 0 0).reads 0 (tab[i].shSize.toNat / 8)
  rw [loadRelocSection_eq, readRelocSection, fetch_eq_ok.mpr here, ok_bind]
  split
  · rw [if_neg (by omega)]
    intro fault
    rcases bind_eq_error.mp fault with read | ⟨_, _, done⟩
    · exact reads.not_fault _ read
    · cases done
  · simp

/-- The section headers are read when the file has them all and their block can be requested. -/
def SectionsRead (file : List UInt8) (header : Elf32Ehdr) : Prop :=
  header.eShentsize.toNat * header.eShnum.toNat < 2 ^ 31 ∧
    (header.eShnum = 0 ∨ header.eShoff.toNat + 40 * header.eShnum.toNat ≤ file.length)

theorem loadTabSectionHeader_returns (room : SectionsRoom file header)
    (read : SectionsRead file header) : ∃ q, loadTabSectionHeader ⟨file, p⟩ header =
      .ok (some (tableOf file header), ⟨file, q⟩) := by
  obtain ⟨small, whole⟩ := read
  have fits := (@sections_inside_iff file header p).mpr room
  rw [loadTabSectionHeader_eq small] at fits ⊢
  split at fits
  · exact absurd rfl fits
  · next stored =>
    rw [if_neg stored]
    rcases whole with zero | table
    · have none : header.eShnum.toNat = 0 := by
        rw [zero]
        rfl
      rw [readTabSectionHeader, tableOf, none]
      exact ⟨_, rfl⟩
    · exact ⟨_, readTabSectionHeader_table table⟩

/-- The loader of the symbols, on the table of the file, stays in its block exactly when that has
room for what the file has of them. -/
theorem symbols_inside_iff (q : Nat) :
    loadSymTable ⟨file, q⟩ header (tableOf file header) ≠ .error .fault ↔
      SymbolsRoom file (tableOf file header) := by
  rw [← symtabContained_iff]
  rcases @loadSymTable_cases file header _ q (tableOf_length file header) with
    ⟨fault, beyond⟩ | ⟨ends, contained, -⟩ | ⟨⟨r, q', returns⟩, contained, -⟩
  · exact iff_of_false (fun inside => inside fault) beyond
  · refine iff_of_true ?_ contained
    rw [ends]
    simp
  · refine iff_of_true ?_ contained
    rw [returns]
    simp

/-- The requested blocks are large enough exactly when entries of the section header table have 40
bytes, and the size of the symbol table does not lose its entries with its upper bits. -/
theorem entriesInside_iff (file : List UInt8) (header : Elf32Ehdr) (p : Nat) :
    EntriesInside header ⟨file, p⟩ ↔ SectionsRoom file header ∧
      (SectionsRead file header → SymbolsRoom file (tableOf file header)) := by
  constructor
  · intro inside
    have room := sections_inside_iff.mp inside.sections
    refine ⟨room, ?_⟩
    intro read
    obtain ⟨q, run⟩ := @loadTabSectionHeader_returns file header p room read
    exact (symbols_inside_iff q).mp (inside.symbols _ _ run)
  · rintro ⟨room, symbols⟩
    refine ⟨sections_inside_iff.mpr room, ?_, ?_⟩
    · rintro tab ⟨_, q⟩ run
      obtain ⟨small, whole, rfl, rfl⟩ := loadTabSectionHeader_table run
      exact (symbols_inside_iff q).mpr (symbols ⟨small, whole⟩)
    · intro tab g run i hi r used
      obtain ⟨-, -, rfl, -⟩ := loadTabSectionHeader_table run
      exact loadRelocSection_inside (tableOf_length file header) hi used

/-- A section header table of one entry, for which a block of no bytes is requested. -/
def narrowFile : List UInt8 :=
  assemble { objectHeader 52 1 0 with eShentsize := 0 } [] [objectShdr 0 0 0 0 0 0]

theorem not_entriesInside_narrow :
    acceptedHeader narrowFile = some { objectHeader 52 1 0 with eShentsize := 0 } ∧
      ¬EntriesInside { objectHeader 52 1 0 with eShentsize := 0 } ⟨narrowFile, 52⟩ := by
  refine ⟨by decide, ?_⟩
  intro inside
  have room := sections_inside_iff.mp inside.sections
  rw [SectionsRoom] at room
  exact absurd room (by decide)

end room

section relocs

variable {file : List UInt8} {p : Nat}

/-- What `loadRelocTable` leaves in `tabSecRel`: the number of relocation sections and the number
of entries of each. -/
def RelocsCounted (file : List UInt8) (p : Nat) : Prop :=
  ∃ r, loadRelocTable ⟨file, p⟩ (headerOf file) (sectionsOf file) ⟨[], 0⟩ = .ok r ∧
    r.tabSecRel.nbSections = ((sectionsOf file).filter Elf32Shdr.isRel).length ∧
    r.tabSecRel.tabNb = ((sectionsOf file).filter Elf32Shdr.isRel).map fun s => s.shSize.toNat / 8

theorem WellFormed.rel_inside (wf : WellFormed file) :
    ∀ s ∈ sectionsOf file, s.isRel = true → s.shSize ≠ 0 →
      s.shOffset.toNat + s.shSize.toNat ≤ file.length := by
  intro s hs isRel nonempty
  refine wf.inside s hs ⟨nonempty, ?_⟩
  rw [Elf32Shdr.isRel, beq_iff_eq] at isRel
  rw [isRel]
  decide

/-- No relocation section of a well-formed file is cut off. -/
theorem WellFormed.relocsContained_iff (wf : WellFormed file) :
    RelocsContained file (sectionsOf file) ↔
      ((sectionsOf file).filter Elf32Shdr.isRel).length ≤ 256 := by
  rw [RelocsContained, or_iff_left]
  rintro ⟨s, hs, cut⟩
  obtain ⟨mem, isRel⟩ := List.mem_filter.mp (List.mem_of_mem_take hs)
  rw [Elf32Shdr.truncated] at cut
  have nonempty : s.shSize ≠ 0 := by
    intro empty
    rw [empty] at cut
    simp at cut
  have inside := wf.rel_inside s mem isRel nonempty
  omega

/-- The counts are right exactly when there are entries of `TabNb` for all the relocation
sections. -/
theorem relocsCounted_iff (wf : WellFormed file) (p : Nat) :
    RelocsCounted file p ↔ ((sectionsOf file).filter Elf32Shdr.isRel).length ≤ 256 := by
  have full := sectionsOf_length file
  rw [RelocsCounted, loadRelocTable_eq]
  constructor
  · rintro ⟨r, run, -, -⟩
    rw [← wf.relocsContained_iff]
    by_contra beyond
    rw [(readRelocTable_fault_iff full).mpr beyond] at run
    cases run
  · intro few
    obtain ⟨r, run, -, read⟩ := readRelocTable_at full wf.rel_inside few
    exact ⟨r, run, read.nbSections, read.tabNb⟩

theorem decodedFile_wellFormed : WellFormed decodedFile := by
  decide +kernel

theorem relocsCounted_decodedFile : RelocsCounted decodedFile 76 ↔
    ((sectionsOf decodedFile).filter Elf32Shdr.isRel).length ≤ 256 :=
  relocsCounted_iff decodedFile_wellFormed 76

/-- A file with 257 relocation sections, which have no entries. -/
def crowdedFile : List UInt8 :=
  assemble (objectHeader 52 257 0) [] (List.replicate 257 (objectShdr 0 shtRel 52 0 0 0))

theorem crowdedFile_sections :
    sectionsOf crowdedFile = List.replicate 257 (objectShdr 0 shtRel 52 0 0 0) :=
  sectionsOf_assemble rfl rfl (by rw [List.length_replicate]; rfl)

theorem crowdedFile_wellFormed : WellFormed crowdedFile := by
  have header : headerOf crowdedFile = objectHeader 52 257 0 := headerOf_assemble rfl
  have length : crowdedFile.length = 52 + 40 * 257 := by
    rw [crowdedFile, assemble_length rfl, List.length_replicate, List.length_nil]
  have empty : ∀ s ∈ sectionsOf crowdedFile, ¬s.inFile := by
    intro s hs
    rw [crowdedFile_sections] at hs
    rw [List.eq_of_mem_replicate hs]
    decide
  refine ⟨?_, ?_, ?_, ?_, by omega, ?_, ?_, ?_, ?_, ?_⟩
  · rw [header]
    exact ⟨rfl, rfl, rfl, rfl⟩
  · rw [header]
    rfl
  · rw [header]
    rfl
  · rw [header]
    rfl
  · rw [header, length]
    exact le_rfl
  · intro s hs occupied
    exact absurd occupied (empty s hs)
  · intro s hs occupied
    exact absurd occupied (empty s hs)
  · intro s hs occupied
    exact absurd occupied (empty s hs)
  · intro j _ i _ s hs t _ occupied
    exact absurd occupied (empty s (List.mem_of_getElem? hs))

/-- The count of the last section would go where `nbSections` is. -/
theorem not_relocsCounted_crowded : WellFormed crowdedFile ∧ ¬RelocsCounted crowdedFile 52 := by
  refine ⟨crowdedFile_wellFormed, ?_⟩
  rintro ⟨r, run, -, -⟩
  have beyond : ¬RelocsContained crowdedFile (sectionsOf crowdedFile) := by
    rw [crowdedFile_wellFormed.relocsContained_iff, crowdedFile_sections,
      List.filter_replicate_of_pos rfl, List.length_replicate]
    omega
  rw [loadRelocTable_eq, (readRelocTable_fault_iff (sectionsOf_length _)).mpr beyond] at run
  cases run

end relocs

end ArmRunner
