import ArmRunner.Decode
import ArmRunner.LoadContent

namespace ArmRunner

open CRun Slice

/-- The offset where the next non-empty section in offset order begins, or the offset of the
section header table when there is none. -/
def nextStart (file : List UInt8) (s : Elf32Shdr) : Nat :=
  ((((sectionsOf file).filter fun t => t.shSize ≠ 0).map fun t => t.shOffset.toNat).filter
    (s.shOffset.toNat < ·)).min?.getD (headerOf file).eShoff.toNat

/-- The files whose non-empty sections, in offset order, fill the space between the header and
the section header table without gaps. -/
@[mk_iff]
structure Copyable (file : List UInt8) : Prop where
  magic : magicElf (headerOf file).eIdent
  class32 : (headerOf file).eIdent.eiClass = 1
  ehsize : (headerOf file).eEhsize = 52
  shentsize : (headerOf file).eShentsize = 40
  shnum : 2 ≤ (headerOf file).eShnum.toNat
  shoff : (headerOf file).eShoff.toNat < 2 ^ 31
  length : file.length = (headerOf file).eShoff.toNat + 40 * (headerOf file).eShnum.toNat
  symtab : ∀ i < (sectionsOf file).length, ∀ j < (sectionsOf file).length,
    ∀ s ∈ (sectionsOf file)[i]?, ∀ t ∈ (sectionsOf file)[j]?,
    s.shType = shtSymtab → t.shType = shtSymtab → i = j
  symtabSize : ∀ s ∈ sectionsOf file, s.shType = shtSymtab → s.shSize.toNat % 16 = 0
  rels : ((sectionsOf file).filter Elf32Shdr.isRel).length ≤ 256
  distinct : ∀ i < (sectionsOf file).length, ∀ j < (sectionsOf file).length,
    ∀ s ∈ (sectionsOf file)[i]?, ∀ t ∈ (sectionsOf file)[j]?,
    s.shSize ≠ 0 → t.shSize ≠ 0 → s.shOffset = t.shOffset → i = j
  first : ∃ s ∈ sectionsOf file, s.shSize ≠ 0 ∧ s.shOffset.toNat = 52
  behindHeader : ∀ s ∈ sectionsOf file, s.shSize ≠ 0 → 52 ≤ s.shOffset.toNat
  last : ∀ s ∈ (sectionsOf file).getLast?, s.shSize ≠ 0 ∧
    s.shOffset.toNat < (headerOf file).eShoff.toNat ∧
    ∀ t ∈ sectionsOf file, t.shSize ≠ 0 → t.shOffset.toNat ≤ s.shOffset.toNat
  empty : ∀ s ∈ sectionsOf file, s.shSize = 0 → s.shOffset = 0 ∨
    ∃ t ∈ sectionsOf file, t.shSize ≠ 0 ∧ t.shOffset = s.shOffset
  ascending : ∀ i < (sectionsOf file).length, ∀ s ∈ (sectionsOf file)[i]?,
    ∀ t ∈ (sectionsOf file)[i + 1]?, s.shSize ≠ 0 → s.isRel = false →
    s.shOffset.toNat < t.shOffset.toNat
  tight : ∀ s ∈ sectionsOf file, s.shSize ≠ 0 → s.isRel = true ∨ s.shType = shtSymtab →
    s.shOffset.toNat + s.shSize.toNat = nextStart file s

set_option synthInstance.maxSize 256 in
instance (file : List UInt8) : Decidable (Copyable file) :=
  decidable_of_iff _ (copyable_iff file).symm

/-- The same for any number of sections from one on. -/
structure Arranged (file : List UInt8) : Prop where
  magic : magicElf (headerOf file).eIdent
  class32 : (headerOf file).eIdent.eiClass = 1
  ehsize : (headerOf file).eEhsize = 52
  shentsize : (headerOf file).eShentsize = 40
  shnum : 0 < (headerOf file).eShnum.toNat
  shoff : (headerOf file).eShoff.toNat < 2 ^ 31
  length : file.length = (headerOf file).eShoff.toNat + 40 * (headerOf file).eShnum.toNat
  symtab : ∀ i < (sectionsOf file).length, ∀ j < (sectionsOf file).length,
    ∀ s ∈ (sectionsOf file)[i]?, ∀ t ∈ (sectionsOf file)[j]?,
    s.shType = shtSymtab → t.shType = shtSymtab → i = j
  symtabSize : ∀ s ∈ sectionsOf file, s.shType = shtSymtab → s.shSize.toNat % 16 = 0
  rels : ((sectionsOf file).filter Elf32Shdr.isRel).length ≤ 256
  distinct : ∀ i < (sectionsOf file).length, ∀ j < (sectionsOf file).length,
    ∀ s ∈ (sectionsOf file)[i]?, ∀ t ∈ (sectionsOf file)[j]?,
    s.shSize ≠ 0 → t.shSize ≠ 0 → s.shOffset = t.shOffset → i = j
  first : ∃ s ∈ sectionsOf file, s.shSize ≠ 0 ∧ s.shOffset.toNat = 52
  behindHeader : ∀ s ∈ sectionsOf file, s.shSize ≠ 0 → 52 ≤ s.shOffset.toNat
  last : ∀ s ∈ (sectionsOf file).getLast?, s.shSize ≠ 0 ∧
    s.shOffset.toNat < (headerOf file).eShoff.toNat ∧
    ∀ t ∈ sectionsOf file, t.shSize ≠ 0 → t.shOffset.toNat ≤ s.shOffset.toNat
  empty : ∀ s ∈ sectionsOf file, s.shSize = 0 → s.shOffset = 0 ∨
    ∃ t ∈ sectionsOf file, t.shSize ≠ 0 ∧ t.shOffset = s.shOffset
  ascending : ∀ i < (sectionsOf file).length, ∀ s ∈ (sectionsOf file)[i]?,
    ∀ t ∈ (sectionsOf file)[i + 1]?, s.shSize ≠ 0 → s.isRel = false →
    s.shOffset.toNat < t.shOffset.toNat
  tight : ∀ s ∈ sectionsOf file, s.shSize ≠ 0 → s.isRel = true ∨ s.shType = shtSymtab →
    s.shOffset.toNat + s.shSize.toNat = nextStart file s

theorem Copyable.arranged {file : List UInt8} (h : Copyable file) : Arranged file where
  magic := h.magic
  class32 := h.class32
  ehsize := h.ehsize
  shentsize := h.shentsize
  shnum := Nat.lt_of_lt_of_le Nat.zero_lt_two h.shnum
  shoff := h.shoff
  length := h.length
  symtab := h.symtab
  symtabSize := h.symtabSize
  rels := h.rels
  distinct := h.distinct
  first := h.first
  behindHeader := h.behindHeader
  last := h.last
  empty := h.empty
  ascending := h.ascending
  tight := h.tight

/-- The offsets at which some non-empty section above `s`, or the header table, begins. -/
def Starts (file : List UInt8) (s : Elf32Shdr) : Set Nat :=
  {p | (∃ t ∈ sectionsOf file, t.shSize ≠ 0 ∧ t.shOffset.toNat = p ∧ s.shOffset.toNat < p) ∨
    p = (headerOf file).eShoff.toNat}

section arranged

variable {file : List UInt8} {s : Elf32Shdr} {i : Nat}

theorem Arranged.getLast (h : Arranged file) :
    ∃ t, (sectionsOf file).getLast? = some t ∧
      (sectionsOf file)[(headerOf file).eShnum.toNat - 1]? = some t := by
  have positive : 0 < (sectionsOf file).length := by
    have := h.shnum
    rw [sectionsOf_length]
    omega
  refine ⟨(sectionsOf file)[(sectionsOf file).length - 1], ?_, ?_⟩
  · rw [List.getLast?_eq_getElem?, List.getElem?_eq_getElem]
  · rw [← sectionsOf_length, List.getElem?_eq_getElem]

theorem Arranged.below_shoff (h : Arranged file) (hs : s ∈ sectionsOf file)
    (nonempty : s.shSize ≠ 0) : s.shOffset.toNat < (headerOf file).eShoff.toNat := by
  obtain ⟨t, ht, _⟩ := h.getLast
  obtain ⟨_, below, top⟩ := h.last t ht
  have := top s hs nonempty
  omega

theorem Arranged.header_inside (h : Arranged file) : 52 ≤ file.length := by
  obtain ⟨t, ht, nonempty, at52⟩ := h.first
  have below := h.below_shoff ht nonempty
  have length := h.length
  omega

theorem nextStart_isLeast_of_below (below : ∀ t ∈ sectionsOf file, t.shSize ≠ 0 →
    t.shOffset.toNat < (headerOf file).eShoff.toNat) :
    IsLeast (Starts file s) (nextStart file s) := by
  unfold nextStart
  set starts := (((sectionsOf file).filter fun t => t.shSize ≠ 0).map fun t =>
    t.shOffset.toNat).filter (s.shOffset.toNat < ·) with hstarts
  have mem (p : Nat) : p ∈ starts ↔ ∃ t ∈ sectionsOf file, t.shSize ≠ 0 ∧
      t.shOffset.toNat = p ∧ s.shOffset.toNat < p := by
    simp only [hstarts, List.mem_filter, List.mem_map, decide_eq_true_eq]
    constructor
    · rintro ⟨⟨t, ⟨ht, hne⟩, rfl⟩, hp⟩
      exact ⟨t, ht, hne, rfl, hp⟩
    · rintro ⟨t, ht, hne, rfl, hp⟩
      exact ⟨⟨t, ⟨ht, hne⟩, rfl⟩, hp⟩
  cases hmin : starts.min? with
  | none =>
    have none_above := List.min?_eq_none_iff.mp hmin
    refine ⟨Or.inr rfl, ?_⟩
    intro p hp
    rcases hp with above | rfl
    · have := (mem p).mpr above
      rw [none_above] at this
      cases this
    · exact Nat.le_refl _
  | some m =>
    obtain ⟨hm, least⟩ := List.min?_eq_some_iff.mp hmin
    refine ⟨Or.inl ((mem m).mp hm), ?_⟩
    intro p hp
    rcases hp with above | rfl
    · exact least p ((mem p).mpr above)
    · obtain ⟨t, ht, hne, rfl, _⟩ := (mem m).mp hm
      exact Nat.le_of_lt (below t ht hne)

theorem Arranged.nextStart_isLeast (h : Arranged file) :
    IsLeast (Starts file s) (nextStart file s) :=
  nextStart_isLeast_of_below fun _ => h.below_shoff

theorem Arranged.above (h : Arranged file) (hs : s ∈ sectionsOf file) (nonempty : s.shSize ≠ 0) :
    s.shOffset.toNat < nextStart file s := by
  rcases (h.nextStart_isLeast (s := s)).1 with ⟨_, _, _, _, hlt⟩ | heq
  · exact hlt
  · rw [heq]
    exact h.below_shoff hs nonempty

theorem Arranged.nextStart_le (h : Arranged file) :
    nextStart file s ≤ (headerOf file).eShoff.toNat :=
  h.nextStart_isLeast.2 (Or.inr rfl)

/-- An empty section behind the header lies where a non-empty one starts. -/
theorem Arranged.offset_starts (h : Arranged file) {p : Nat} (hp : p ∈ offsets (sectionsOf file))
    (positive : 0 < p) : ∃ t ∈ sectionsOf file, t.shSize ≠ 0 ∧ t.shOffset.toNat = p := by
  obtain ⟨t, ht, rfl⟩ := List.mem_map.mp hp
  by_cases he : t.shSize = 0
  · rcases h.empty t ht he with zero | ⟨u, hu, hne, same⟩
    · rw [zero] at positive
      exact absurd positive (by simp)
    · exact ⟨u, hu, hne, by rw [same]⟩
  · exact ⟨t, ht, he, rfl⟩

/-- The search of the loader finds the next non-empty section. -/
theorem Arranged.follower_eq (h : Arranged file) {t : Elf32Shdr} (ht : t ∈ sectionsOf file)
    (above : s.shOffset.toNat < t.shOffset.toNat) :
    follower (sectionsOf file) s.shOffset.toNat t.shOffset.toNat = nextStart file s := by
  obtain ⟨⟨hf, hlt⟩, least⟩ := follower_isLeast above (List.mem_map_of_mem ht)
  obtain ⟨v, hv, hne, hoff⟩ := h.offset_starts hf (Nat.zero_lt_of_lt hlt)
  have found : IsLeast (Starts file s)
      (follower (sectionsOf file) s.shOffset.toNat t.shOffset.toNat) := by
    refine ⟨Or.inl ⟨v, hv, hne, hoff, hlt⟩, ?_⟩
    intro p hp
    rcases hp with ⟨u, hu, _, rfl, hup⟩ | rfl
    · exact least ⟨List.mem_map_of_mem hu, hup⟩
    · rw [← hoff]
      exact Nat.le_of_lt (h.below_shoff hv hne)
  exact found.unique h.nextStart_isLeast

/-- Nothing starts behind the last section of the table. -/
theorem Arranged.nextStart_last (h : Arranged file) (hs : (sectionsOf file)[i]? = some s)
    (last : ¬i + 1 < (headerOf file).eShnum.toNat) :
    nextStart file s = (headerOf file).eShoff.toNat := by
  have hi := (List.getElem?_eq_some_iff.mp hs).1
  obtain ⟨t, hlast, ht⟩ := h.getLast
  rw [sectionsOf_length] at hi
  have same : (headerOf file).eShnum.toNat - 1 = i := by omega
  rw [same, hs] at ht
  cases Option.some.inj ht
  obtain ⟨_, _, top⟩ := h.last s hlast
  have found : IsLeast (Starts file s) (headerOf file).eShoff.toNat := by
    refine ⟨Or.inr rfl, ?_⟩
    intro p hp
    rcases hp with ⟨u, hu, hne, rfl, hup⟩ | rfl
    · have := top u hu hne
      omega
    · exact Nat.le_refl _
  exact h.nextStart_isLeast.unique found

/-- For these files the extent of a non-empty section reaches to the next non-empty one. -/
theorem Arranged.extent_eq (h : Arranged file) (hs : (sectionsOf file)[i]? = some s)
    (nonempty : s.shSize ≠ 0) :
    s.shOffset.toNat + extent (headerOf file) (sectionsOf file) i s = nextStart file s := by
  have hmem := List.mem_of_getElem? hs
  have hi := (List.getElem?_eq_some_iff.mp hs).1
  have up := Nat.le_of_lt (h.above hmem nonempty)
  rw [extent]
  by_cases inner : i + 1 < (headerOf file).eShnum.toNat
  · rw [if_pos inner]
    by_cases hrel : s.isRel = true
    · rw [if_pos hrel]
      exact h.tight s hmem nonempty (Or.inl hrel)
    · obtain ⟨t, next⟩ : ∃ t, (sectionsOf file)[i + 1]? = some t :=
        ⟨_, List.getElem?_eq_getElem (by rwa [sectionsOf_length])⟩
      have above := h.ascending i hi s hs t next nonempty (by simpa using hrel)
      rw [if_neg hrel, next, Option.elim_some, h.follower_eq (List.mem_of_getElem? next) above,
        span, if_pos up, Nat.add_sub_cancel' up]
  · rw [if_neg inner, ← h.nextStart_last hs inner, span, if_pos up, Nat.add_sub_cancel' up]

theorem Arranged.in_file (h : Arranged file) (hs : s ∈ sectionsOf file)
    (kind : s.isRel = true ∨ s.shType = shtSymtab) :
    s.shOffset.toNat + s.shSize.toNat ≤ file.length := by
  have length := h.length
  by_cases nonempty : s.shSize = 0
  · rcases h.empty s hs nonempty with zero | ⟨t, ht, hne, same⟩
    · simp [nonempty, zero]
    · have below := h.below_shoff ht hne
      rw [same] at below
      simp only [nonempty, UInt32.toNat_zero]
      omega
  · have ends := h.tight s hs nonempty kind
    have := h.nextStart_le (s := s)
    omega

theorem Arranged.inside (h : Arranged file) : TablesInside file where
  header := h.header_inside
  magic := h.magic
  class32 := h.class32
  shentsize := h.shentsize
  table := by
    have length := h.length
    omega
  symtab s hs := h.in_file (List.mem_of_find?_eq_some hs)
    (Or.inr (by simpa [Elf32Shdr.isSymtab] using List.find?_some hs))
  rels s hs hrel := h.in_file hs (Or.inl hrel)
  few := h.rels

/-- The bytes of the file up to the next non-empty section. -/
def coveredBytes (file : List UInt8) (s : Elf32Shdr) : List UInt8 :=
  if s.shSize = 0 then [] else slice file s.shOffset.toNat (nextStart file s)

theorem Arranged.readable (h : Arranged file) (hs : (sectionsOf file)[i]? = some s)
    (nonempty : s.shSize ≠ 0) : Readable file (headerOf file) (sectionsOf file) i s := by
  have ends := h.extent_eq hs nonempty
  have above := h.above (List.mem_of_getElem? hs) nonempty
  have top := h.nextStart_le (s := s)
  have length := h.length
  have small := h.shoff
  refine ⟨by omega, by omega, fun _ => by omega⟩

theorem Arranged.contentAt_eq (h : Arranged file) (hs : (sectionsOf file)[i]? = some s) :
    contentAt file (headerOf file) (sectionsOf file) i s =
      ⟨(coveredBytes file s).length, coveredBytes file s⟩ := by
  by_cases nonempty : s.shSize = 0
  · simp [contentAt, coveredBytes, nonempty]
  · have ends := h.extent_eq hs nonempty
    have above := h.above (List.mem_of_getElem? hs) nonempty
    have top := h.nextStart_le (s := s)
    have length := h.length
    have small := h.shoff
    have word : (UInt32.ofNat (extent (headerOf file) (sectionsOf file) i s)).toNat =
        extent (headerOf file) (sectionsOf file) i s := by
      rw [UInt32.toNat_ofNat', Nat.mod_eq_of_lt (by omega)]
    have size : (slice file s.shOffset.toNat (nextStart file s)).length =
        extent (headerOf file) (sectionsOf file) i s := by
      rw [slice_length (by omega)]
      omega
    rw [contentAt, coveredBytes, if_neg nonempty, if_neg nonempty, size, ends,
      asInt_of_lt (by omega), word]

/-- What a load of such a file leaves in memory. -/
structure LoadedFrom (file : List UInt8) (elf : Elf32Main) : Prop where
  header : elf.header = headerOf file
  sectHeader : elf.sectHeader = sectionsOf file
  symTable : ∀ s ∈ sectionsOf file, s.shType = shtSymtab → elf.symTable = symbolsAt file s
  content : ∀ (i : Nat) (s : Elf32Shdr), (sectionsOf file)[i]? = some s →
    elf.sectionContent[i]? = some ⟨(coveredBytes file s).length, coveredBytes file s⟩

theorem Arranged.load_returns (h : Arranged file) (room : SymtabRoom file) :
    ∃ elf f, load file = .ok (elf, f) ∧ f.bytes = file ∧ LoadedFrom file elf := by
  have length := h.length
  have full : (sectionsOf file).length = (headerOf file).eShnum.toNat := sectionsOf_length file
  have table : (headerOf file).eShoff.toNat + 40 * (headerOf file).eShnum.toNat ≤ file.length := by
    omega
  have tab := h.inside.tab
  have symtab : ∀ s ∈ sectionsOf file, s.shType = shtSymtab →
      s.shOffset.toNat + s.shSize.toNat ≤ file.length := fun s hs ht => h.in_file hs (Or.inr ht)
  obtain ⟨symTable, nb, q, hsym, symbols⟩ := readSymTable_at
    (p := (headerOf file).eShoff.toNat + 40 * (headerOf file).eShnum.toNat) full symtab
    (fun i j s t hs ht => h.symtab i (List.getElem?_eq_some_iff.mp hs).1 j
      (List.getElem?_eq_some_iff.mp ht).1 s hs t ht)
  have rels : ∀ s ∈ sectionsOf file, s.isRel = true → s.shSize ≠ 0 →
      s.shOffset.toNat + s.shSize.toNat ≤ file.length := fun s hs ht _ => h.in_file hs (Or.inl ht)
  obtain ⟨r, hreloc, hbytes, _⟩ := readRelocTable_at (p := q) full rels h.rels
  obtain ⟨content, f, hcontent, hf⟩ := loadSectionContent_returns (f := r.file) full (by
    intro i s hs nonempty
    rw [hbytes]
    exact h.readable hs nonempty)
  refine ⟨{ header := headerOf file, sectHeader := sectionsOf file, symTable,
            relTable := r.tables, sectionContent := content, tabSecRel := r.tabSecRel,
            nbSymboles := nb }, f, ?_, hf.trans hbytes, ?_⟩
  · have head := loadHeader_at h.header_inside h.magic h.class32
    simp only [load, loadTables, head, ok_bind, tab, Option.getD_some, room.sym, hsym,
      loadRelocTable_eq, hreloc, hcontent]
  · refine ⟨rfl, rfl, symbols, ?_⟩
    intro i s hs
    obtain ⟨_, value⟩ := loadSectionContent_returned full hcontent hs
    rw [value, hbytes, h.contentAt_eq hs]

end arranged

end ArmRunner
