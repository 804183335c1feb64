import ArmRunner.Ordered

namespace ArmRunner

open CRun NewIndex Slice Tiling

/-- Every non-empty section that stays starts before the next one that stays. -/
def KeptAscending (sectHeader : List Elf32Shdr) : Prop :=
  (sectHeader.filter Elf32Shdr.kept).IsChain fun s t => s.shSize ≠ 0 → s.shOffset < t.shOffset

section loaded

variable {file : List UInt8} {elf : Elf32Main}

theorem LoadedFrom.symtab_length (arranged : Arranged file) (h : LoadedFrom file elf)
    {s : Section} (hs : s ∈ (viewOf elf).sections) (ht : s.1.shType = shtSymtab) :
    size (viewOf elf) s = s.1.shSize.toNat ∧ s.2.sectionBytes.length = s.1.shSize.toNat := by
  obtain ⟨head, content⟩ := h.mem hs
  have same : s.2.sectionBytes.length = size (viewOf elf) s := by
    rw [content, size, h.contentOf_eq arranged hs]
  have value : size (viewOf elf) s = s.1.shSize.toNat := by
    rw [h.size_eq arranged hs]
    by_cases empty : s.1.shSize = 0
    · simp [empty]
    · have ends := arranged.tight s.1 head empty (Or.inr ht)
      rw [if_neg empty]
      omega
  exact ⟨value, same.trans value⟩

theorem LoadedFrom.ordered (arranged : Arranged file) (h : LoadedFrom file elf)
    (loaded : Loaded elf) (last : ∀ s ∈ (sectionsOf file).getLast?, s.isRel = false)
    (ascending : KeptAscending (sectionsOf file)) : Ordered (viewOf elf) := by
  have heads : (viewOf elf).sections.map Prod.fst = sectionsOf file := by
    rw [loaded.viewOf_heads, h.sectHeader]
  refine ⟨h.layout arranged loaded, fun s hs => h.occupied_iff arranged hs,
    fun s hs ht => h.symtab_length arranged hs ht, ?_, ?_, ?_⟩
  · obtain ⟨t, hlast, _⟩ := arranged.getLast
    obtain ⟨nonempty, _, top⟩ := arranged.last t hlast
    have stays := last t hlast
    rw [← heads, List.getLast?_map] at hlast
    obtain ⟨s, hs, rfl⟩ := Option.map_eq_some_iff.mp hlast
    have hm := List.mem_of_mem_getLast? hs
    refine ⟨s, hs, keep_of_not_rel stays, (h.occupied_iff arranged hm).mpr nonempty, ?_⟩
    intro u hu hocc
    exact top u.1 (h.mem hu).1 ((h.occupied_iff arranged hu).mp hocc)
  · intro s hs hocc
    have hempty : s.1.shSize = 0 := by
      by_contra nonempty
      rw [(h.occupied_iff arranged hs).mpr nonempty] at hocc
      cases hocc
    rcases arranged.empty s.1 (h.mem hs).1 hempty with zero | ⟨t, ht, nonempty, same⟩
    · exact Or.inl (by simp [start, zero])
    · obtain ⟨u, hu, rfl⟩ := List.mem_map.mp (heads ▸ ht)
      exact Or.inr ⟨u, hu, (h.occupied_iff arranged hu).mpr nonempty, by rw [start, same, start]⟩
  · have chain := ascending
    rw [KeptAscending, ← heads, List.filter_map, List.isChain_map] at chain
    refine chain.imp_of_mem_imp ?_
    intro s t hs _ lt hocc
    have hm := (List.mem_filter.mp hs).1
    exact UInt32.lt_iff_toNat_lt.mp (lt ((h.occupied_iff arranged hm).mp hocc))

end loaded

/-- An object file without relocation sections that can be written and read again. -/
structure Reloadable (w : View) : Prop extends Ordered w where
  magic : magicElf w.header.eIdent
  class32 : w.header.eIdent.eiClass = 1
  pad : w.header.eIdent.eiPad.length = 7
  ehsize : w.header.eEhsize = 52
  shentsize : w.header.eShentsize = 40
  count : w.header.eShnum.toNat = w.sections.length
  kept : ∀ s ∈ w.sections, keep s = true
  unique : w.sections.Pairwise fun s t => s.1.shType = shtSymtab → t.1.shType ≠ shtSymtab
  whole : ∀ s ∈ w.sections, s.1.shType = shtSymtab → s.1.shSize.toNat % 16 = 0

section written

variable {w : View} {order : List Section} {s : Section}

theorem Reloadable.not_rel (h : Reloadable w) (hs : s ∈ w.sections) : s.1.isRel = false :=
  not_rel_of_keep (h.kept s hs)

theorem Reloadable.header (h : Reloadable w) : headerOf (fileOf w order) = w.header :=
  headerOf_fileOf h.pad

theorem Reloadable.sections (h : Reloadable w)
    (tiles : Tiles start (size w) 52 order w.header.eShoff.toNat) :
    sectionsOf (fileOf w order) = w.sections.map Prod.fst :=
  sectionsOf_fileOf h.pad tiles h.count

theorem Reloadable.below (h : Reloadable w) (hs : s ∈ w.sections) (nonempty : s.1.shSize ≠ 0) :
    52 ≤ start s ∧ start s < w.header.eShoff.toNat := by
  obtain ⟨order, perm, tiles⟩ := h.layout.tiled
  have hocc := (h.measured s hs).mpr nonempty
  have bounds := tiles_mem tiles (perm.mem_iff.mpr (List.mem_filter.mpr ⟨hs, hocc⟩))
  omega

/-- In the written file the next section starts where a content ends. -/
theorem Reloadable.nextStart_eq (h : Reloadable w)
    (perm : order.Perm (w.sections.filter (occupied w)))
    (tiles : Tiles start (size w) 52 order w.header.eShoff.toNat) (hs : s ∈ w.sections)
    (nonempty : s.1.shSize ≠ 0) :
    nextStart (fileOf w order) s.1 = start s + size w s := by
  have sections := h.sections tiles
  have header : headerOf (fileOf w order) = w.header := h.header
  have mem {t : Section} (ht : t ∈ w.sections) (hne : t.1.shSize ≠ 0) : t ∈ order :=
    perm.mem_iff.mpr (List.mem_filter.mpr ⟨ht, (h.measured t ht).mpr hne⟩)
  have found : IsLeast (Starts (fileOf w order) s.1) (nextStart (fileOf w order) s.1) := by
    apply nextStart_isLeast_of_below
    intro t ht hne
    obtain ⟨u, hu, rfl⟩ := List.mem_map.mp (sections ▸ ht)
    rw [header]
    exact (h.below hu hne).2
  have ends : IsLeast (Starts (fileOf w order) s.1) (start s + size w s) := by
    obtain ⟨next, least⟩ := tiles_next_isLeast tiles (mem hs nonempty)
    refine ⟨?_, ?_⟩
    · rcases next with ⟨t, ht, same, above⟩ | same
      · obtain ⟨htm, htocc⟩ := List.mem_filter.mp (perm.mem_iff.mp ht)
        refine Or.inl ⟨t.1, sections ▸ List.mem_map_of_mem htm, ?_, same, above⟩
        exact (h.measured t htm).mp htocc
      · exact Or.inr (by rw [header, same])
    · rintro p (⟨t, ht, hne, same, above⟩ | same)
      · obtain ⟨u, hu, rfl⟩ := List.mem_map.mp (sections ▸ ht)
        exact least (Or.inl ⟨u, mem hu hne, same, above⟩)
      · exact least (Or.inr (by rw [same, header]))
  exact found.unique ends

theorem Reloadable.contentOf_empty (h : Reloadable w) (hs : s ∈ w.sections)
    (empty : s.1.shSize = 0) : contentOf w s = [] := by
  apply List.length_eq_zero_iff.mp
  by_contra nonempty
  have positive : 0 < size w s := Nat.pos_of_ne_zero nonempty
  have hocc : occupied w s = true := by simpa [occupied] using positive
  exact (h.measured s hs).mp hocc empty

/-- What a load of the written file takes for a section is what was written for it. -/
theorem Reloadable.coveredBytes_eq (h : Reloadable w)
    (perm : order.Perm (w.sections.filter (occupied w)))
    (tiles : Tiles start (size w) 52 order w.header.eShoff.toNat) (hs : s ∈ w.sections) :
    coveredBytes (fileOf w order) s.1 = contentOf w s := by
  rw [coveredBytes]
  split
  next empty => exact (h.contentOf_empty hs empty).symm
  next nonempty =>
    rw [h.nextStart_eq perm tiles hs nonempty]
    have hocc := (h.measured s hs).mpr nonempty
    exact fileOf_slice h.pad tiles (perm.mem_iff.mpr (List.mem_filter.mpr ⟨hs, hocc⟩))

theorem Reloadable.symtab_unique (h : Reloadable w) {i j : Nat} {s t : Elf32Shdr}
    (hs : (w.sections.map Prod.fst)[i]? = some s) (ht : (w.sections.map Prod.fst)[j]? = some t)
    (stype : s.shType = shtSymtab) (ttype : t.shType = shtSymtab) : i = j := by
  have apart : (w.sections.map Prod.fst).Pairwise fun s t =>
      s.shType = shtSymtab → t.shType ≠ shtSymtab := List.pairwise_map.mpr h.unique
  rw [List.pairwise_iff_getElem] at apart
  obtain ⟨hi, rfl⟩ := List.getElem?_eq_some_iff.mp hs
  obtain ⟨hj, rfl⟩ := List.getElem?_eq_some_iff.mp ht
  rcases Nat.lt_trichotomy i j with lt | same | lt
  · exact absurd ttype (apart i j hi hj lt stype)
  · exact same
  · exact absurd stype (apart j i hj hi lt ttype)

theorem Reloadable.distinct (h : Reloadable w) {i j : Nat} {s t : Section}
    (hs : w.sections[i]? = some s) (ht : w.sections[j]? = some t) (sne : s.1.shSize ≠ 0)
    (tne : t.1.shSize ≠ 0) (same : start s = start t) : i = j := by
  obtain ⟨order, perm, tiles⟩ := h.layout.tiled
  have apart : (w.sections.filter (occupied w)).Pairwise fun s t => start s ≠ start t := by
    refine (perm.pairwise_iff fun {x y} (hxy : start x ≠ start y) => hxy.symm).mp ?_
    refine (tiles_sorted tiles).imp_of_mem ?_
    intro x y hx _ le
    have := tiles_mem tiles hx
    omega
  rw [List.pairwise_filter, List.pairwise_iff_getElem] at apart
  have socc := (h.measured s (List.mem_of_getElem? hs)).mpr sne
  have tocc := (h.measured t (List.mem_of_getElem? ht)).mpr tne
  obtain ⟨hi, rfl⟩ := List.getElem?_eq_some_iff.mp hs
  obtain ⟨hj, rfl⟩ := List.getElem?_eq_some_iff.mp ht
  rcases Nat.lt_trichotomy i j with lt | equal | lt
  · exact absurd same (apart i j hi hj lt socc tocc)
  · exact equal
  · exact absurd same.symm (apart j i hj hi lt tocc socc)

theorem Reloadable.mem_sections (h : Reloadable w)
    (tiles : Tiles start (size w) 52 order w.header.eShoff.toNat) {t : Elf32Shdr}
    (ht : t ∈ sectionsOf (fileOf w order)) : ∃ u ∈ w.sections, u.1 = t :=
  List.mem_map.mp (h.sections tiles ▸ ht)

theorem Reloadable.sections_getElem (h : Reloadable w)
    (tiles : Tiles start (size w) 52 order w.header.eShoff.toNat) {i : Nat} {t : Elf32Shdr}
    (ht : (sectionsOf (fileOf w order))[i]? = some t) :
    ∃ u, w.sections[i]? = some u ∧ u.1 = t := by
  rw [h.sections tiles, List.getElem?_map] at ht
  exact Option.map_eq_some_iff.mp ht

/-- The contents start right behind the header. -/
theorem Reloadable.first_section (h : Reloadable w)
    (perm : order.Perm (w.sections.filter (occupied w)))
    (tiles : Tiles start (size w) 52 order w.header.eShoff.toNat) :
    ∃ t ∈ sectionsOf (fileOf w order), t.shSize ≠ 0 ∧ t.shOffset.toNat = 52 := by
  obtain ⟨l, hlast, _, locc, _⟩ := h.last
  have member : l ∈ order :=
    perm.mem_iff.mpr (List.mem_filter.mpr ⟨List.mem_of_mem_getLast? hlast, locc⟩)
  obtain ⟨x, hx, at52⟩ : ∃ x ∈ order, start x = 52 := by
    cases order with
    | nil => cases member
    | cons x xs => exact ⟨x, List.mem_cons_self, tiles.1⟩
  obtain ⟨hxm, hxocc⟩ := List.mem_filter.mp (perm.mem_iff.mp hx)
  exact ⟨x.1, h.sections tiles ▸ List.mem_map_of_mem hxm, (h.measured x hxm).mp hxocc, at52⟩

theorem Reloadable.last_section (h : Reloadable w)
    (tiles : Tiles start (size w) 52 order w.header.eShoff.toNat) {t : Elf32Shdr}
    (ht : (sectionsOf (fileOf w order)).getLast? = some t) :
    t.shSize ≠ 0 ∧ t.shOffset.toNat < w.header.eShoff.toNat ∧
      ∀ x ∈ sectionsOf (fileOf w order), x.shSize ≠ 0 → x.shOffset.toNat ≤ t.shOffset.toNat := by
  obtain ⟨l, hlast, _, locc, top⟩ := h.last
  have hl := List.mem_of_mem_getLast? hlast
  have filled := (h.measured l hl).mp locc
  rw [h.sections tiles, List.getLast?_map, hlast] at ht
  cases ht
  refine ⟨filled, (h.below hl filled).2, ?_⟩
  intro x hx nonempty
  obtain ⟨u, hu, rfl⟩ := h.mem_sections tiles hx
  exact top u hu ((h.measured u hu).mpr nonempty)

theorem Reloadable.empty_section (h : Reloadable w)
    (tiles : Tiles start (size w) 52 order w.header.eShoff.toNat) {t : Elf32Shdr}
    (ht : t ∈ sectionsOf (fileOf w order)) (hempty : t.shSize = 0) : t.shOffset = 0 ∨
      ∃ x ∈ sectionsOf (fileOf w order), x.shSize ≠ 0 ∧ x.shOffset = t.shOffset := by
  obtain ⟨u, hu, rfl⟩ := h.mem_sections tiles ht
  have hocc : occupied w u = false := by
    by_contra full
    exact (h.measured u hu).mp (by simpa using full) hempty
  rcases h.empty u hu hocc with zero | ⟨x, hx, hxocc, same⟩
  · exact Or.inl (UInt32.toNat_inj.mp zero)
  · exact Or.inr ⟨x.1, h.sections tiles ▸ List.mem_map_of_mem hx, (h.measured x hx).mp hxocc,
      UInt32.toNat_inj.mp same⟩

/-- The section behind one that is not empty starts above it. -/
theorem Reloadable.ascending_sections (h : Reloadable w)
    (tiles : Tiles start (size w) 52 order w.header.eShoff.toNat) {i : Nat} {t x : Elf32Shdr}
    (ht : (sectionsOf (fileOf w order))[i]? = some t)
    (hx : (sectionsOf (fileOf w order))[i + 1]? = some x) (nonempty : t.shSize ≠ 0) :
    t.shOffset.toNat < x.shOffset.toNat := by
  obtain ⟨u, hu, rfl⟩ := h.sections_getElem tiles ht
  obtain ⟨y, hy, rfl⟩ := h.sections_getElem tiles hx
  have chain := h.ascending
  rw [List.filter_eq_self.mpr h.kept, List.isChain_iff_getElem] at chain
  obtain ⟨hyl, rfl⟩ := List.getElem?_eq_some_iff.mp hy
  obtain ⟨hul, rfl⟩ := List.getElem?_eq_some_iff.mp hu
  exact chain i hyl ((h.measured _ (List.getElem_mem hul)).mpr nonempty)

/-- The file that is written fulfils the conditions for being read. -/
theorem Reloadable.arranged (h : Reloadable w)
    (perm : order.Perm (w.sections.filter (occupied w)))
    (tiles : Tiles start (size w) 52 order w.header.eShoff.toNat) :
    Arranged (fileOf w order) := by
  have header : headerOf (fileOf w order) = w.header := h.header
  have sections := h.sections tiles
  have count := h.count
  constructor
  case magic =>
    rw [header]
    exact h.magic
  case class32 =>
    rw [header]
    exact h.class32
  case ehsize =>
    rw [header]
    exact h.ehsize
  case shentsize =>
    rw [header]
    exact h.shentsize
  case shnum =>
    obtain ⟨l, hlast, _⟩ := h.last
    have := List.length_pos_of_mem (List.mem_of_mem_getLast? hlast)
    rw [header]
    omega
  case shoff =>
    rw [header]
    exact h.layout.small
  case length =>
    rw [fileOf_length h.pad tiles, header, count]
  case symtab =>
    intro i _ j _ s hs t ht
    exact h.symtab_unique (sections ▸ hs) (sections ▸ ht)
  case symtabSize =>
    intro s hs ht
    obtain ⟨u, hu, rfl⟩ := h.mem_sections tiles hs
    exact h.whole u hu ht
  case rels =>
    have none : (sectionsOf (fileOf w order)).filter Elf32Shdr.isRel = [] := by
      apply List.filter_eq_nil_iff.mpr
      intro s hs
      obtain ⟨u, hu, rfl⟩ := h.mem_sections tiles hs
      simp [h.not_rel hu]
    simp [none]
  case distinct =>
    intro i _ j _ s hs t ht sne tne same
    obtain ⟨u, hu, rfl⟩ := h.sections_getElem tiles hs
    obtain ⟨x, hx, rfl⟩ := h.sections_getElem tiles ht
    exact h.distinct hu hx sne tne (congrArg UInt32.toNat same)
  case first =>
    exact h.first_section perm tiles
  case behindHeader =>
    intro s hs nonempty
    obtain ⟨u, hu, rfl⟩ := h.mem_sections tiles hs
    exact (h.below hu nonempty).1
  case last =>
    intro s hs
    rw [header]
    exact h.last_section tiles hs
  case empty =>
    exact fun s hs hempty => h.empty_section tiles hs hempty
  case ascending =>
    exact fun i _ s hs t ht nonempty _ => h.ascending_sections tiles hs ht nonempty
  case tight =>
    intro s hs nonempty kind
    obtain ⟨u, hu, rfl⟩ := h.mem_sections tiles hs
    rw [h.nextStart_eq perm tiles hu nonempty]
    have type := kind.resolve_left (by simp [h.not_rel hu])
    rw [(h.symtab u hu type).1]
    rfl

end written

section deleted

variable {file : List UInt8} {elf elf' : Elf32Main} {w : View}

/-- The types of the sections that stay are those of sections of the source file. -/
theorem removes_mem {v : View} (removes : Removes 0 v w) {s : Section} (hs : s ∈ w.sections) :
    ∃ t ∈ v.sections, s.1.shType = t.1.shType ∧ s.1.shSize = t.1.shSize := by
  have there : s.stable ∈ (v.sections.filter keep).map Section.stable :=
    removes_sections removes (by simp) ▸ List.mem_map_of_mem hs
  obtain ⟨t, ht, same⟩ := List.mem_map.mp there
  obtain ⟨_, _, type, size, _⟩ := stable_fields same.symm
  exact ⟨t, (List.mem_filter.mp ht).1, type, size⟩

theorem removes_unique {v : View} (removes : Removes 0 v w)
    (unique : v.sections.Pairwise fun s t => s.1.shType = shtSymtab → t.1.shType ≠ shtSymtab) :
    w.sections.Pairwise fun s t => s.1.shType = shtSymtab → t.1.shType ≠ shtSymtab := by
  have stable : (w.sections.map Section.stable).Pairwise fun s t =>
      s.1.shType = shtSymtab → t.1.shType ≠ shtSymtab := by
    rw [removes_sections removes (by simp)]
    exact List.pairwise_map.mpr (unique.filter keep)
  exact List.pairwise_map.mp stable

theorem LoadedFrom.reloadable (arranged : Arranged file) (h : LoadedFrom file elf)
    (loaded : Loaded elf) (last : ∀ s ∈ (sectionsOf file).getLast?, s.isRel = false)
    (ascending : KeptAscending (sectionsOf file)) (removes : Removes 0 (viewOf elf) w)
    (count : w.header.eShnum.toNat = w.sections.length) : Reloadable w := by
  have stable := removes_header removes (by simp)
  have header : (viewOf elf).header = headerOf file := h.header
  rw [header] at stable
  have idents := congrArg (fun e : Elf32Ehdr => e.eIdent) stable
  have ehsizes := congrArg (fun e : Elf32Ehdr => e.eEhsize) stable
  have shentsizes := congrArg (fun e : Elf32Ehdr => e.eShentsize) stable
  have ident : w.header.eIdent = (headerOf file).eIdent := idents
  have inside := arranged.header_inside
  refine ⟨(h.ordered arranged loaded last ascending).removes removes, ident ▸ arranged.magic,
    ident ▸ arranged.class32, ?_, ?_, ?_, count, removes_kept removes (by simp), ?_, ?_⟩
  · rw [ident]
    exact slice_length (by omega)
  · exact ehsizes.trans arranged.ehsize
  · exact shentsizes.trans arranged.shentsize
  · apply removes_unique removes
    rw [List.pairwise_iff_getElem]
    intro i j hi hj lt stype ttype
    have head_i := (h.section (List.getElem?_eq_getElem hi)).1
    have head_j := (h.section (List.getElem?_eq_getElem hj)).1
    have same := arranged.symtab i (List.getElem?_eq_some_iff.mp head_i).1 j
      (List.getElem?_eq_some_iff.mp head_j).1 _ head_i _ head_j stype ttype
    omega
  · intro s hs type
    obtain ⟨t, ht, types, sizes⟩ := removes_mem removes hs
    rw [sizes]
    exact arranged.symtabSize t.1 (h.mem ht).1 (types.symm.trans type)

/-- The table and the number of symbols of a state, as the sections of its object file say. -/
structure SymbolsCounted (elf : Elf32Main) (v : View) : Prop where
  some : ∀ s ∈ v.sections, s.1.shType = shtSymtab → elf.nbSymboles = elf.symTable.length
  none : (∀ s ∈ v.sections, s.1.shType ≠ shtSymtab) → elf.symTable = [] ∧ elf.nbSymboles = -1

theorem load_symbolsCounted {f : CFile} (hload : load file = .ok (elf, f)) :
    SymbolsCounted elf (viewOf elf) := by
  have heads := (load_loaded hload).viewOf_heads
  refine ⟨?_, ?_⟩
  · intro s hs type
    exact load_nbSymboles hload (heads ▸ List.mem_map_of_mem hs) type
  · intro none
    apply load_symTable_none hload
    intro s hs
    obtain ⟨t, ht, rfl⟩ := List.mem_map.mp (heads.symm ▸ hs)
    exact none t ht

theorem deleted_symbolsCounted (counted : SymbolsCounted elf (viewOf elf))
    (run : dropRel elf = .ok elf') (removes : Removes 0 (viewOf elf) w)
    (represents : Represents elf' w) : SymbolsCounted elf' w := by
  have nb := dropRelFrom_nbSymboles run
  have length : elf'.symTable.length = elf.symTable.length := by
    rw [represents.symTable]
    exact removes_symTable_length removes (by simp)
  refine ⟨?_, ?_⟩
  · intro s hs type
    obtain ⟨t, ht, types, _⟩ := removes_mem removes hs
    rw [nb, length]
    exact counted.some t ht (types.symm.trans type)
  · intro none
    have absent : ∀ s ∈ (viewOf elf).sections, s.1.shType ≠ shtSymtab := by
      intro s hs type
      have stays : keep s = true :=
        keep_of_not_rel (by simp [Elf32Shdr.isRel, type, shtSymtab, shtRel])
      obtain ⟨k, hk⟩ := List.mem_iff_getElem?.mp hs
      obtain ⟨t, ht, stable⟩ := removes_getElem? removes (by simp) hk stays
      obtain ⟨_, _, types, _⟩ := stable_fields stable
      exact none t (List.mem_of_getElem? ht) (types.trans type)
    obtain ⟨empty, minus⟩ := counted.none absent
    rw [empty] at length
    exact ⟨List.length_eq_zero_iff.mp length, nb.trans minus⟩

/-- The symbol table is the only one, so its entries have room. -/
theorem Arranged.room_of_mem {file : List UInt8} (h : Arranged file) (room : SymtabRoom file)
    {s : Elf32Shdr} (hs : s ∈ sectionsOf file) (type : s.shType = shtSymtab) :
    16 * (s.shSize.toNat / 16) ≤ (s.shSize * 16).toNat := by
  have isSymtab : s.isSymtab = true := by simp [Elf32Shdr.isSymtab, type]
  obtain ⟨t, found⟩ := Option.isSome_iff_exists.mp
    (List.find?_isSome.mpr ⟨s, hs, isSymtab⟩)
  have also : t.shType = shtSymtab := by simpa [Elf32Shdr.isSymtab] using List.find?_some found
  obtain ⟨i, hi, rfl⟩ := List.mem_iff_getElem.mp hs
  obtain ⟨j, hj, rfl⟩ := List.mem_iff_getElem.mp (List.mem_of_find?_eq_some found)
  obtain rfl : i = j := h.symtab i hi j hj _ (by simp) _ (by simp) type also
  exact room _ found

end deleted

/-- The section contents that a file written from `elf` is loaded with: the slot of the symbol
table is given the symbols of memory, the others keep their bytes. -/
def reloadedContent (elf : Elf32Main) (s : Elf32Shdr) (c : SectionContent) : SectionContent :=
  if s.shType = shtSymtab then ⟨c.size, elf.symTable.flatMap symBytes⟩ else c

/-- What a load of the file written from `elf` gives. -/
structure Reloaded (elf elfG : Elf32Main) : Prop where
  header : elfG.header = elf.header
  sectHeader : elfG.sectHeader = elf.sectHeader.take elf.header.eShnum.toNat
  symTable : elfG.symTable = elf.symTable
  nbSymboles : elfG.nbSymboles = elf.nbSymboles
  content : ∀ (i : Nat) (s : Elf32Shdr), elfG.sectHeader[i]? = some s →
    ∃ c, elf.sectionContent[i]? = some c ∧
      elfG.sectionContent[i]? = some (reloadedContent elf s c)

section reloaded

variable {w : View} {order : List Section} {elf elfG : Elf32Main} {fG : CFile}

theorem Reloadable.symTable_length (h : Reloadable w) {s : Section} (hs : s ∈ w.sections)
    (type : s.1.shType = shtSymtab) : s.1.shSize.toNat = 16 * w.symTable.length := by
  rw [← (h.symtab s hs type).1, size, contentOf, if_pos type,
    flatMap_length_const symBytes_length]

theorem Reloadable.symbolsAt_eq (h : Reloadable w)
    (perm : order.Perm (w.sections.filter (occupied w)))
    (tiles : Tiles start (size w) 52 order w.header.eShoff.toNat) {s : Section}
    (hs : s ∈ w.sections) (type : s.1.shType = shtSymtab) :
    symbolsAt (fileOf w order) s.1 = w.symTable := by
  have length := h.symTable_length hs type
  by_cases empty : s.1.shSize = 0
  · rw [empty, UInt32.toNat_zero] at length
    have none : w.symTable = [] := List.length_eq_zero_iff.mp (by omega)
    simp [symbolsAt, empty, none]
  · have hocc := (h.measured s hs).mpr empty
    exact symbolsAt_fileOf h.pad tiles (perm.mem_iff.mpr (List.mem_filter.mpr ⟨hs, hocc⟩)) type
      (by omega)

theorem Reloadable.reloaded (h : Reloadable w) (represents : Represents elf w)
    (counted : SymbolsCounted elf w)
    (perm : order.Perm (w.sections.filter (occupied w)))
    (tiles : Tiles start (size w) 52 order w.header.eShoff.toNat)
    (hload : load (fileOf w order) = .ok (elfG, fG)) : Reloaded elf elfG := by
  have fromFile := (h.arranged perm tiles).loadedFrom hload
  have sections : elfG.sectHeader = w.sections.map Prod.fst :=
    fromFile.sectHeader.trans (h.sections tiles)
  have header : elfG.header = w.header := fromFile.header.trans h.header
  have symbols : elfG.symTable = elf.symTable ∧ elfG.nbSymboles = elf.nbSymboles := by
    by_cases present : ∃ s ∈ w.sections, s.1.shType = shtSymtab
    · obtain ⟨s, hs, type⟩ := present
      have head : s.1 ∈ elfG.sectHeader := sections ▸ List.mem_map_of_mem hs
      have table : elfG.symTable = elf.symTable := by
        rw [fromFile.symTable s.1 (fromFile.sectHeader ▸ head) type,
          h.symbolsAt_eq perm tiles hs type, represents.symTable]
      refine ⟨table, ?_⟩
      rw [load_nbSymboles hload head type, table, counted.some s hs type]
    · have absent : ∀ s ∈ w.sections, s.1.shType ≠ shtSymtab :=
        fun s hs type => present ⟨s, hs, type⟩
      obtain ⟨empty, minus⟩ := counted.none absent
      obtain ⟨emptyG, minusG⟩ := load_symTable_none hload (by
        intro s hs
        obtain ⟨t, ht, rfl⟩ := List.mem_map.mp (sections ▸ hs)
        exact absent t ht)
      exact ⟨emptyG.trans empty.symm, minusG.trans minus.symm⟩
  refine ⟨header.trans represents.header.symm, ?_, symbols.1, symbols.2, ?_⟩
  · obtain ⟨tail, tab, _⟩ := represents.heads
    rw [sections, tab, represents.count, List.take_append_of_le_length (by simp),
      List.take_of_length_le (by simp)]
  · intro i s hs
    have there := hs
    rw [sections, List.getElem?_map] at there
    obtain ⟨u, hu, rfl⟩ := Option.map_eq_some_iff.mp there
    have hm := List.mem_of_getElem? hu
    refine ⟨u.2, fetch_eq_ok.mp (represents.fetch_content hu), ?_⟩
    rw [fromFile.content i u.1 (fromFile.sectHeader ▸ hs), h.coveredBytes_eq perm tiles hm,
      reloadedContent, contentOf]
    have filled : u.2.size = u.2.sectionBytes.length := h.layout.filled u hm
    by_cases type : u.1.shType = shtSymtab
    · have length : (contentOf w u).length = u.2.sectionBytes.length := by
        obtain ⟨taken, held⟩ := h.symtab u hm type
        exact taken.trans held.symm
      rw [contentOf, if_pos type] at length
      rw [if_pos type, if_pos type, length, filled, represents.symTable]
    · rw [if_neg type, if_neg type, ← filled]

/-- The written file has a symbol table of the same size. -/
theorem Reloadable.room (h : Reloadable w) {file : List UInt8} (arranged : Arranged file)
    (fromFile : LoadedFrom file elf) (room : SymtabRoom file) (loaded : Loaded elf)
    (removes : Removes 0 (viewOf elf) w)
    (tiles : Tiles start (size w) 52 order w.header.eShoff.toNat) :
    SymtabRoom (fileOf w order) := by
  intro s found
  have type : s.shType = shtSymtab := by simpa [Elf32Shdr.isSymtab] using List.find?_some found
  have hs := List.mem_of_find?_eq_some found
  rw [h.sections tiles] at hs
  obtain ⟨u, hu, rfl⟩ := List.mem_map.mp hs
  obtain ⟨t, ht, types, sizes⟩ := removes_mem removes hu
  have member : t.1 ∈ sectionsOf file := by
    rw [← fromFile.sectHeader, ← loaded.viewOf_heads]
    exact List.mem_map_of_mem ht
  rw [sizes]
  exact arranged.room_of_mem room member (types.symm.trans type)

end reloaded

/-- The file written after the deletion of the relocation sections is loaded as the state it was
written from, with the bytes of the symbol table renewed, and the deletion writes it again, when the
symbols have room and no section that is moved or freed is empty. -/
theorem deleteRel_fixpoint {file : List UInt8} (h : Copyable file) (room : SymtabRoom file)
    (filled : Filled (fromFirstRel (sectionsOf file)))
    (last : ∀ s ∈ (sectionsOf file).getLast?, s.isRel = false)
    (ascending : KeptAscending (sectionsOf file)) (q q' : Qsort) :
    ∃ elf f elf' out, load file = .ok (elf, f) ∧ deleteRel elf = .ok elf' ∧
      writeElf q elf' CFile.openWrite = .ok out ∧
      ∃ elfG fG, load out.bytes = .ok (elfG, fG) ∧ Reloaded elf' elfG ∧
        ∃ elfG' outG, deleteRel elfG = .ok elfG' ∧
          writeElf q' elfG' CFile.openWrite = .ok outG ∧ outG.bytes = out.bytes := by
  obtain ⟨elf, f, hload, _, fromFile⟩ := h.arranged.load_returns room
  have loaded := load_loaded hload
  obtain ⟨elf', w, run, removes, represents⟩ :=
    loaded.deleteRel_run (load_matched hload) (fromFile.deletable loaded filled)
  have count : w.header.eShnum.toNat = w.sections.length := by
    rw [← represents.header, represents.count]
  have reloadable := fromFile.reloadable h.arranged loaded last ascending removes count
  have counted := deleted_symbolsCounted (load_symbolsCounted hload) (deleteRel_weaker run) removes
    represents
  obtain ⟨order, perm, tiles, written⟩ := reloadable.layout.write q represents reloadable.class32
    CFile.openWrite
  have rewound : CFile.openWrite.fseek 0 = CFile.openWrite := rfl
  rw [rewound, CFile.fwrite_openWrite] at written
  refine ⟨elf, f, elf', _, hload, run, written, ?_⟩
  have arranged := reloadable.arranged perm tiles
  have roomG := reloadable.room h.arranged fromFile room loaded removes tiles
  obtain ⟨elfG, fG, hloadG, _, fromG⟩ := arranged.load_returns roomG
  refine ⟨elfG, fG, hloadG, reloadable.reloaded represents counted perm tiles hloadG, ?_⟩
  have kept : ∀ s ∈ (viewOf elfG).sections, s.1.isRel = false := by
    intro s hs
    obtain ⟨u, hu, same⟩ := List.mem_map.mp (reloadable.sections tiles ▸ (fromG.mem hs).1)
    rw [← same]
    exact reloadable.not_rel hu
  have idle := deleteRel_of_kept (viewOf_represents (load_loaded hloadG)) kept
  obtain ⟨outG, writtenG, same⟩ := arranged.written hloadG q'
  exact ⟨elfG, outG, idle, writtenG, same⟩

instance (sectHeader : List Elf32Shdr) : Decidable (KeptAscending sectHeader) :=
  inferInstanceAs (Decidable (List.IsChain _ _))

/-- An object file with the relocation section before the sections that its symbol is in. -/
def relFirstFile : List UInt8 :=
  assemble (objectHeader 84 5 4)
    ([1, 2, 3, 0] ++ [0, 0, 0, 0, 0, 0, 0, 2] ++ symBytes ⟨0, 0, 0, 3, 0, 2⟩ ++ [0, 0x2e, 0x74, 0])
    [objectShdr 0 0 0 0 0 0, objectShdr 0 shtRel 56 8 3 2, objectShdr 1 1 52 3 0 0,
      objectShdr 0 shtSymtab 64 16 0 0, objectShdr 0 3 80 4 0 0]

theorem relFirstFile_copyable : Copyable relFirstFile := by
  decide +kernel

theorem relFirstFile_last : ∀ s ∈ (sectionsOf relFirstFile).getLast?, s.isRel = false := by
  decide

theorem relFirstFile_ascending : KeptAscending (sectionsOf relFirstFile) := by
  decide

theorem relFirstFile_room : SymtabRoom relFirstFile := by
  unfold SymtabRoom
  decide

theorem relFirstFile_filled : Filled (fromFirstRel (sectionsOf relFirstFile)) := by
  unfold Filled
  decide

theorem deleteRel_fixpoint_relFirstFile :
    ∃ elf f elf' out, load relFirstFile = .ok (elf, f) ∧ deleteRel elf = .ok elf' ∧
      writeElf insertionQsort elf' CFile.openWrite = .ok out ∧
      ∃ elfG fG, load out.bytes = .ok (elfG, fG) ∧ Reloaded elf' elfG ∧
        ∃ elfG' outG, deleteRel elfG = .ok elfG' ∧
          writeElf insertionQsort elfG' CFile.openWrite = .ok outG ∧ outG.bytes = out.bytes :=
  deleteRel_fixpoint relFirstFile_copyable relFirstFile_room relFirstFile_filled relFirstFile_last
    relFirstFile_ascending insertionQsort insertionQsort

/-- The state that `-d` writes a file from, and the state that is loaded from the written file. -/
def reloadDeleted (file : List UInt8) : Run (Elf32Main × Elf32Main) := do
  let (elf, _) ← load file
  let elf ← deleteRel elf
  let out ← writeElf insertionQsort elf CFile.openWrite
  let (elfG, _) ← load out.bytes
  .ok (elf, elfG)

/-- The content of the symbol table still has the old section index of its symbol. -/
theorem deleteRel_reloaded_differs :
    ∃ elf elfG, Copyable relFirstFile ∧
      (∀ s ∈ (sectionsOf relFirstFile).getLast?, s.isRel = false) ∧
      KeptAscending (sectionsOf relFirstFile) ∧ reloadDeleted relFirstFile = .ok (elf, elfG) ∧
      ∃ i, i < elf.header.eShnum.toNat ∧ elfG.sectionContent[i]? ≠ elf.sectionContent[i]? := by
  have differs : (reloadDeleted relFirstFile).toOption.any (fun r =>
      2 < r.1.header.eShnum.toNat ∧ r.2.sectionContent[2]? ≠ r.1.sectionContent[2]?) = true := by
    decide +kernel
  cases run : reloadDeleted relFirstFile with
  | error e =>
    rw [run] at differs
    cases differs
  | ok r =>
    rw [run] at differs
    obtain ⟨inside, different⟩ := of_decide_eq_true differs
    exact ⟨r.1, r.2, relFirstFile_copyable, relFirstFile_last, relFirstFile_ascending, rfl, 2,
      inside, different⟩

end ArmRunner
