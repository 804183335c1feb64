import ArmRunner.Renumbering

namespace ArmRunner

open CRun NewIndex

/-- A state in memory whose two section arrays have one entry for each section, every content with
a buffer of its recorded size, and whose symbol table has the recorded number of entries. -/
structure Aligned (elf : Elf32Main) : Prop where
  heads : elf.sectHeader.length = elf.header.eShnum.toNat
  contents : elf.sectionContent.length = elf.header.eShnum.toNat
  filled : ∀ c ∈ elf.sectionContent, c.Filled
  nbSymboles : elf.nbSymboles.toNat = elf.symTable.length

/-- The two section arrays of `elf'` up to its number of sections are those of `elf` without the
relocation sections, and the header counts and places what is left. -/
structure Filtered (elf elf' : Elf32Main) : Prop where
  count : elf'.header.eShnum.toNat = (elf.sectHeader.filter Elf32Shdr.kept).length
  entry : ∀ (k : Nat) (s : Elf32Shdr) (c : SectionContent),
    ((elf.sectHeader.zip elf.sectionContent).filter keep)[k]? = some (s, c) →
    (∃ s', elf'.sectHeader[k]? = some s' ∧
      { s' with shOffset := s.shOffset, shLink := s.shLink } = s) ∧
    elf'.sectionContent[k]? = some c
  shoff : elf'.header.eShoff = elf.header.eShoff - UInt32.ofNat (relBytes elf.sectHeader)
  shstrndx : ∀ s, elf.sectHeader[elf.header.eShstrndx.toNat]? = some s → s.isRel = false →
    elf'.header.eShstrndx.toNat +
      (elf.sectHeader.take elf.header.eShstrndx.toNat).countP Elf32Shdr.isRel =
      elf.header.eShstrndx.toNat

section aligned

variable {elf elf' : Elf32Main} {w : View}

theorem Aligned.loaded (h : Aligned elf) : Loaded elf :=
  ⟨h.heads, h.contents, h.nbSymboles, fun c hc => Or.inl (h.filled c hc)⟩

theorem Aligned.contentsMovable (h : Aligned elf) : ContentsMovable elf := by
  intro i j r c _ _ _ hc
  have filled : c.size = c.sectionBytes.length := h.filled c (List.mem_of_getElem? hc)
  omega

theorem kept_length (h : Loaded elf) :
    ((viewOf elf).sections.filter keep).length = (elf.sectHeader.filter Elf32Shdr.kept).length := by
  rw [← h.viewOf_heads, List.filter_map, List.length_map]
  rfl

/-- A header that agrees with another up to the two fields that a deletion may rewrite is the
other with these two fields. -/
theorem stable_fst {s s' : Section} (h : s'.stable = s.stable) :
    { s'.1 with shOffset := s.1.shOffset, shLink := s.1.shLink } = s.1 :=
  congrArg (fun t : Section => { t.1 with shOffset := s.1.shOffset, shLink := s.1.shLink }) h

theorem removes_filtered (h : Loaded elf) (removes : Removes 0 (viewOf elf) w)
    (represents : Represents elf' w) : Filtered elf elf' := by
  have sections := removes_sections removes (by simp)
  refine ⟨?_, ?_, ?_, ?_⟩
  · rw [represents.count, removes_length removes (by simp), kept_length h]
  · intro k s c hk
    have there := congrArg (·[k]?) sections
    simp only [List.getElem?_map] at there
    rw [show ((viewOf elf).sections.filter keep)[k]? = some (s, c) from hk, Option.map_some,
      Option.map_eq_some_iff] at there
    obtain ⟨s', hs', stable⟩ := there
    have content := represents.fetch_content hs'
    rw [(stable_fields stable).1] at content
    exact ⟨⟨s'.1, fetch_eq_ok.mp (represents.fetch_head hs'), stable_fst stable⟩,
      fetch_eq_ok.mp content⟩
  · rw [represents.header, removes_eShoff removes (by simp), h.viewOf_heads]
    rfl
  · intro s hs hrel
    have moved := removes_eShstrndx removes (by simp)
    have counted : newIndex Elf32Shdr.kept elf.sectHeader elf.header.eShstrndx.toNat =
        elf.header.eShstrndx.toNat -
          (elf.sectHeader.take elf.header.eShstrndx.toNat).countP Elf32Shdr.isRel := by
      simp [newIndex, Elf32Shdr.kept]
    have below := List.countP_le_length (p := Elf32Shdr.isRel)
      (l := elf.sectHeader.take elf.header.eShstrndx.toNat)
    have short := List.length_take_le elf.header.eShstrndx.toNat elf.sectHeader
    rw [← represents.header, h.newIndex_eq] at moved
    change elf'.header.eShstrndx.toNat =
      newIndex Elf32Shdr.kept elf.sectHeader elf.header.eShstrndx.toNat at moved
    omega

end aligned

/-- With the contents as lists of bytes the deletion ends, with any fuel above the number of
sections, in the filtered state; with pointers it returns no other state. -/
theorem deleteRel_filters {elf : Elf32Main} (h : Aligned elf) :
    ∃ elf', (∀ fuel, elf.header.eShnum.toNat < fuel → dropRelFrom fuel 0 elf = .ok elf') ∧
      dropRel elf = .ok elf' ∧ (∀ other, deleteRel elf = .ok other → other = elf') ∧
      Filtered elf elf' := by
  obtain ⟨elf', w, run, removes, represents⟩ := h.loaded.dropRel_run h.contentsMovable
  refine ⟨elf', ?_, run, ?_, removes_filtered h.loaded removes represents⟩
  · intro fuel enough
    have more := deletePasses_fuel run (fuel - (elf.header.eShnum.toNat + 1))
    rwa [Nat.add_sub_cancel' enough] at more
  · intro other deleted
    exact Except.ok.inj ((deleteRel_weaker deleted).symm.trans run)

def adjacentSections : List Elf32Shdr :=
  [objectShdr 0 0 0 0 0 0, objectShdr 0 shtRel 52 8 5 3, objectShdr 0 shtRel 60 8 5 3,
    objectShdr 0 1 68 4 0 0, objectShdr 0 3 72 1 0 0, objectShdr 0 shtRel 73 8 5 3]

/-- A state in memory with relocation sections next to each other and at the end of the table. -/
def adjacentElf : Elf32Main where
  header := objectHeader 81 6 4
  sectHeader := adjacentSections
  symTable := []
  relTable := []
  sectionContent := [⟨0, []⟩, ⟨8, List.replicate 8 1⟩, ⟨8, List.replicate 8 2⟩, ⟨4, [3, 4, 5, 6]⟩,
    ⟨1, [0]⟩, ⟨8, List.replicate 8 7⟩]
  tabSecRel := ⟨[], 0⟩
  nbSymboles := -1

theorem adjacentElf_aligned : Aligned adjacentElf := by
  refine ⟨rfl, rfl, ?_, rfl⟩
  simp [adjacentElf, SectionContent.Filled]

theorem deleteRel_filters_adjacentElf :
    ∃ elf', (∀ fuel, adjacentElf.header.eShnum.toNat < fuel →
        dropRelFrom fuel 0 adjacentElf = .ok elf') ∧
      dropRel adjacentElf = .ok elf' ∧ (∀ other, deleteRel adjacentElf = .ok other → other = elf') ∧
      Filtered adjacentElf elf' :=
  deleteRel_filters adjacentElf_aligned

end ArmRunner
