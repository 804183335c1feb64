import ArmRunner.Copyable
import ArmRunner.Layout
import ArmRunner.Renumbering

namespace ArmRunner

open CRun Slice Tiling

section symbols

variable {file : List UInt8} {s : Elf32Shdr}

/-- Encoding the symbols of a table gives back the bytes of the whole entries. -/
theorem symbolsAt_bytes (fits : s.shOffset.toNat + s.shSize.toNat ≤ file.length) :
    (symbolsAt file s).flatMap symBytes =
      slice file s.shOffset.toNat (s.shOffset.toNat + 16 * (s.shSize.toNat / 16)) := by
  rw [symbolsAt, List.flatMap_map, ← slice_records]
  apply List.flatMap_congr
  intro j hj
  have hj' := List.mem_range.mp hj
  exact symBytes_symAt (by omega)

theorem sectionsOf_bytes
    (fits : (headerOf file).eShoff.toNat + 40 * (headerOf file).eShnum.toNat ≤ file.length) :
    (sectionsOf file).flatMap shdrBytes = slice file (headerOf file).eShoff.toNat
      ((headerOf file).eShoff.toNat + 40 * (headerOf file).eShnum.toNat) := by
  rw [sectionsOf, List.flatMap_map, ← slice_records]
  apply List.flatMap_congr
  intro j hj
  have hj' := List.mem_range.mp hj
  exact shdrBytes_shdrAt (by omega)

end symbols

section loaded

variable {file : List UInt8} {elf : Elf32Main}

theorem LoadedFrom.section (h : LoadedFrom file elf) {k : Nat} {s : Section}
    (hs : (viewOf elf).sections[k]? = some s) :
    (sectionsOf file)[k]? = some s.1 ∧
      s.2 = ⟨(coveredBytes file s.1).length, coveredBytes file s.1⟩ := by
  obtain ⟨head, content⟩ := viewOf_getElem?.mp hs
  rw [h.sectHeader] at head
  exact ⟨head, Option.some.inj (content.symm.trans (h.content k s.1 head))⟩

theorem LoadedFrom.mem (h : LoadedFrom file elf) {s : Section} (hs : s ∈ (viewOf elf).sections) :
    s.1 ∈ sectionsOf file ∧ s.2 = ⟨(coveredBytes file s.1).length, coveredBytes file s.1⟩ := by
  obtain ⟨k, hk⟩ := List.mem_iff_getElem?.mp hs
  obtain ⟨head, content⟩ := h.section hk
  exact ⟨List.mem_of_getElem? head, content⟩

/-- A section, the symbol table too, is written back as the bytes it was loaded from. -/
theorem LoadedFrom.contentOf_eq (arranged : Arranged file) (h : LoadedFrom file elf)
    {s : Section} (hs : s ∈ (viewOf elf).sections) :
    contentOf (viewOf elf) s = coveredBytes file s.1 := by
  obtain ⟨head, content⟩ := h.mem hs
  by_cases ht : s.1.shType = shtSymtab
  · have whole := arranged.symtabSize s.1 head ht
    have bytes := symbolsAt_bytes (arranged.in_file head (Or.inr ht))
    have table : (viewOf elf).symTable = symbolsAt file s.1 := h.symTable s.1 head ht
    rw [contentOf, if_pos ht, table, bytes, coveredBytes]
    by_cases nonempty : s.1.shSize = 0
    · simp [nonempty]
    · rw [if_neg nonempty, ← arranged.tight s.1 head nonempty (Or.inr ht)]
      congr 1
      omega
  · rw [contentOf, if_neg ht, content]

theorem LoadedFrom.size_eq (arranged : Arranged file) (h : LoadedFrom file elf)
    {s : Section} (hs : s ∈ (viewOf elf).sections) :
    size (viewOf elf) s =
      if s.1.shSize = 0 then 0 else nextStart file s.1 - s.1.shOffset.toNat := by
  have top := arranged.nextStart_le (s := s.1)
  have length := arranged.length
  rw [size, h.contentOf_eq arranged hs, coveredBytes]
  split
  · rfl
  · exact slice_length (by omega)

theorem LoadedFrom.occupied_iff (arranged : Arranged file) (h : LoadedFrom file elf)
    {s : Section} (hs : s ∈ (viewOf elf).sections) :
    occupied (viewOf elf) s = true ↔ s.1.shSize ≠ 0 := by
  have value := h.size_eq arranged hs
  simp only [occupied, decide_eq_true_eq, value]
  by_cases nonempty : s.1.shSize = 0
  · simp [nonempty]
  · have above := arranged.above (h.mem hs).1 nonempty
    rw [if_neg nonempty]
    constructor
    · intro _
      exact nonempty
    · intro _
      omega

theorem LoadedFrom.ends (arranged : Arranged file) (h : LoadedFrom file elf) {s : Section}
    (hs : s ∈ (viewOf elf).sections) (nonempty : s.1.shSize ≠ 0) :
    start s + size (viewOf elf) s = nextStart file s.1 := by
  have above := arranged.above (h.mem hs).1 nonempty
  rw [h.size_eq arranged hs, if_neg nonempty]
  exact Nat.add_sub_cancel' (Nat.le_of_lt above)

/-- The sections that take bytes start at different offsets. -/
theorem LoadedFrom.starts_apart (arranged : Arranged file) (h : LoadedFrom file elf) :
    ((viewOf elf).sections.filter (occupied (viewOf elf))).Pairwise
      fun s t => start s ≠ start t := by
  rw [List.pairwise_filter, List.pairwise_iff_getElem]
  intro i j hi hj hij hoi hoj same
  have head_i := (h.section (List.getElem?_eq_getElem hi)).1
  have head_j := (h.section (List.getElem?_eq_getElem hj)).1
  have eq := arranged.distinct i (List.getElem?_eq_some_iff.mp head_i).1 j
    (List.getElem?_eq_some_iff.mp head_j).1 _ head_i _ head_j
    ((h.occupied_iff arranged (List.getElem_mem hi)).mp hoi)
    ((h.occupied_iff arranged (List.getElem_mem hj)).mp hoj) (UInt32.toNat_inj.mp same)
  omega

/-- The sections that take bytes can be listed so that they tile the space between header and
section header table. -/
theorem LoadedFrom.tiled (arranged : Arranged file) (h : LoadedFrom file elf)
    (loaded : Loaded elf) :
    ∃ order, order.Perm ((viewOf elf).sections.filter (occupied (viewOf elf))) ∧
      Tiles start (size (viewOf elf)) 52 order (headerOf file).eShoff.toNat := by
  obtain ⟨order, perm, sorted⟩ := exists_sorted start (h.starts_apart arranged)
  have mem {s : Section} (hs : s ∈ order) :
      s ∈ (viewOf elf).sections ∧ s.1 ∈ sectionsOf file ∧ s.1.shSize ≠ 0 := by
    obtain ⟨hm, hocc⟩ := List.mem_filter.mp (perm.mem_iff.mp hs)
    exact ⟨hm, (h.mem hm).1, (h.occupied_iff arranged hm).mp hocc⟩
  have covers {t : Elf32Shdr} (ht : t ∈ sectionsOf file) (hne : t.shSize ≠ 0) :
      ∃ s ∈ order, s.1 = t := by
    obtain ⟨k, hk⟩ := List.mem_iff_getElem?.mp ht
    obtain ⟨c, hc⟩ := loaded.section_of_head (h.sectHeader ▸ hk)
    have hm := List.mem_of_getElem? hc
    refine ⟨(t, c), perm.mem_iff.mpr (List.mem_filter.mpr ⟨hm, ?_⟩), rfl⟩
    exact (h.occupied_iff arranged hm).mpr hne
  refine ⟨order, perm, tiles_of_least sorted ?_ ?_ ?_ ?_⟩
  · obtain ⟨t, ht, htne, at52⟩ := arranged.first
    obtain ⟨s, hs, rfl⟩ := covers ht htne
    exact ⟨s, hs, at52⟩
  · intro s hs
    obtain ⟨_, head, hne⟩ := mem hs
    exact arranged.behindHeader s.1 head hne
  · intro s hs
    obtain ⟨hm, head, hne⟩ := mem hs
    rw [h.ends arranged hm hne]
    obtain ⟨found, least⟩ := arranged.nextStart_isLeast (s := s.1)
    refine ⟨?_, ?_⟩
    · rcases found with ⟨t, ht, htne, hoff, hlt⟩ | heq
      · obtain ⟨u, hu, rfl⟩ := covers ht htne
        exact Or.inl ⟨u, hu, hoff, hlt⟩
      · exact Or.inr heq
    · intro p hp
      rcases hp with ⟨u, hu, hoff, hlt⟩ | heq
      · obtain ⟨_, uhead, une⟩ := mem hu
        exact least (Or.inl ⟨u.1, uhead, une, hoff, hlt⟩)
      · exact least (Or.inr heq)
  · intro s hs
    obtain ⟨_, head, hne⟩ := mem hs
    exact arranged.below_shoff head hne

/-- What is loaded from such a file is laid out for the writes. -/
theorem LoadedFrom.layout (arranged : Arranged file) (h : LoadedFrom file elf)
    (loaded : Loaded elf) : Layout (viewOf elf) := by
  have shoff : (viewOf elf).header.eShoff = (headerOf file).eShoff := by
    rw [← h.header]
    rfl
  refine ⟨?_, shoff ▸ arranged.shoff, ?_, shoff ▸ h.tiled arranged loaded⟩
  · intro s hs
    rw [(h.mem hs).2]
    rfl
  · intro s hs hrel
    rw [h.size_eq arranged hs]
    by_cases nonempty : s.1.shSize = 0
    · simp [nonempty]
    · have ends := arranged.tight s.1 (h.mem hs).1 nonempty (Or.inl hrel)
      rw [if_neg nonempty]
      omega

theorem LoadedFrom.contentsMovable (h : LoadedFrom file elf) (loaded : Loaded elf) :
    ContentsMovable elf := by
  intro i j r c _ _ _ hc
  have hj := (List.getElem?_eq_some_iff.mp hc).1
  rw [loaded.contents, ← loaded.heads, h.sectHeader] at hj
  have content := h.content j _ (List.getElem?_eq_getElem hj)
  rw [Option.some.inj (hc.symm.trans content)]
  exact Int.natCast_nonneg _

theorem LoadedFrom.deletable (h : LoadedFrom file elf) (loaded : Loaded elf)
    (filled : Filled (fromFirstRel (sectionsOf file))) : Deletable elf :=
  ⟨h.contentsMovable loaded, h.sectHeader ▸ filled⟩

/-- A file that loads had room for its symbols. -/
theorem Arranged.room (h : Arranged file) {f : CFile} (hload : load file = .ok (elf, f)) :
    SymtabRoom file := by
  intro s present
  by_contra beyond
  have fault := h.inside.loadTables_fault present (by omega)
  rw [load, fault, error_bind] at hload
  cases hload

theorem Arranged.loadedFrom (h : Arranged file) {f : CFile} (hload : load file = .ok (elf, f)) :
    LoadedFrom file elf := by
  obtain ⟨elf', f', hload', _, fromFile⟩ := h.load_returns (h.room hload)
  cases Except.ok.inj (hload.symm.trans hload')
  exact fromFile

theorem viewOf_table (loaded : Loaded elf) :
    ((viewOf elf).sections.flatMap fun s => shdrBytes s.1) = elf.sectHeader.flatMap shdrBytes := by
  rw [← loaded.viewOf_heads, List.flatMap_map]

end loaded

/-- What is loaded from such a file is written as the same bytes. -/
theorem Arranged.written {file : List UInt8} (h : Arranged file) {elf : Elf32Main} {f : CFile}
    (hload : load file = .ok (elf, f)) (q : Qsort) :
    ∃ out, writeElf q elf CFile.openWrite = .ok out ∧ out.bytes = file := by
  have fromFile := h.loadedFrom hload
  have loaded := load_loaded hload
  have layout := fromFile.layout h loaded
  have header : (viewOf elf).header = headerOf file := fromFile.header
  have length := h.length
  obtain ⟨order, perm, tiles, run⟩ := layout.write q (viewOf_represents loaded)
    (header ▸ h.class32) CFile.openWrite
  have body : order.flatMap (contentOf (viewOf elf)) =
      slice file 52 (headerOf file).eShoff.toNat := by
    rw [← header]
    apply tiles_flatMap_eq_slice tiles
    intro s hs
    obtain ⟨hm, hocc⟩ := List.mem_filter.mp (perm.mem_iff.mp hs)
    have nonempty := (fromFile.occupied_iff h hm).mp hocc
    rw [fromFile.contentOf_eq h hm, coveredBytes, if_neg nonempty, fromFile.ends h hm nonempty]
    rfl
  have inside := tiles_le tiles
  rw [header] at inside
  refine ⟨_, run, ?_⟩
  have rewound : CFile.openWrite.fseek 0 = CFile.openWrite := rfl
  rw [rewound, CFile.fwrite_openWrite, fileOf, header, headerBytes_headerOf (by omega), body,
    viewOf_table loaded, fromFile.sectHeader, sectionsOf_bytes (by omega),
    slice_append_slice file (by omega) inside, slice_append_slice file (by omega) (by omega),
    ← length, slice_zero, List.take_length]

/-- Loading such a file and writing it to a new file gives the same bytes, whatever order
`qsort` leaves equal entries in, exactly when the block for the symbols has room for them. -/
theorem copy_round_trip {file : List UInt8} (h : Copyable file) (q : Qsort) :
    (∃ elf f out, load file = .ok (elf, f) ∧ writeElf q elf CFile.openWrite = .ok out ∧
      out.bytes = file) ↔ SymtabRoom file := by
  constructor
  · rintro ⟨elf, f, _, hload, _⟩
    exact h.arranged.room hload
  · intro room
    obtain ⟨elf, f, hload, _⟩ := h.arranged.load_returns room
    obtain ⟨out, run, same⟩ := h.arranged.written hload q
    exact ⟨elf, f, out, hload, run, same⟩

/-- An object file with a padded text section, and with its relocation section placed behind the
symbol table. -/
def objectFile : List UInt8 :=
  assemble (objectHeader 84 5 4)
    ([1, 2, 3, 0] ++ symBytes ⟨0, 0, 0, 3, 0, 1⟩ ++ [0, 0, 0, 0, 0, 0, 0, 2] ++ [0, 0x2e, 0x74, 0])
    [objectShdr 0 0 0 0 0 0, objectShdr 1 1 52 3 0 0, objectShdr 0 shtRel 72 8 3 1,
      objectShdr 0 shtSymtab 56 16 0 0, objectShdr 0 3 80 4 0 0]

theorem objectFile_copyable : Copyable objectFile := by
  decide +kernel

theorem objectFile_room : SymtabRoom objectFile := by
  unfold SymtabRoom
  decide

theorem copy_round_trip_objectFile :
    (∃ elf f out, load objectFile = .ok (elf, f) ∧
      writeElf insertionQsort elf CFile.openWrite = .ok out ∧ out.bytes = objectFile) ↔
    SymtabRoom objectFile :=
  copy_round_trip objectFile_copyable insertionQsort

section symtabFile

variable {body : List UInt8}

/-- A file that is a symbol table between its header and its section headers can be copied, but for
the size of the block. -/
theorem symtabFile_copyable (small : 52 + body.length < 2 ^ 31) (nonempty : 0 < body.length)
    (whole : body.length % 16 = 0) : Copyable (symtabFile body) := by
  have length : (symtabFile body).length = 52 + body.length + 40 * 2 := assemble_length (by rfl)
  have header : headerOf (symtabFile body) = _ := symtabFile_header
  have sections := @symtabFile_sections body (by omega)
  have shoff : (headerOf (symtabFile body)).eShoff.toNat = 52 + body.length := by
    rw [header, objectHeader, UInt32.toNat_ofNat', Nat.mod_eq_of_lt (by omega)]
  have size : (UInt32.ofNat body.length).toNat = body.length := by
    rw [UInt32.toNat_ofNat', Nat.mod_eq_of_lt (by omega)]
  have some_bytes : UInt32.ofNat body.length ≠ 0 := by
    intro zero
    rw [zero] at size
    simp at size
    omega
  set null := objectShdr 0 0 0 0 0 0 with hnull
  set syms := objectShdr 0 shtSymtab 52 (UInt32.ofNat body.length) 0 0 with hsyms
  have empty : null.shSize = 0 := rfl
  have filled : syms.shSize ≠ 0 := some_bytes
  have start : syms.shOffset.toNat = 52 := rfl
  have mem : ∀ s ∈ sectionsOf (symtabFile body), s = null ∨ s = syms := by
    rw [sections]
    simp
  have at_index : ∀ i s, (sectionsOf (symtabFile body))[i]? = some s → s.shSize ≠ 0 →
      i = 1 ∧ s = syms := by
    rw [sections]
    intro i s hs nonempty
    rcases i with _ | _ | i
    · cases hs
      exact absurd empty nonempty
    · cases hs
      exact ⟨rfl, rfl⟩
    · cases hs
  have symtab : ∀ i s, (sectionsOf (symtabFile body))[i]? = some s → s.shType = shtSymtab →
      i = 1 := by
    intro i s hs type
    refine (at_index i s hs ?_).1
    rcases mem s (List.mem_of_getElem? hs) with rfl | rfl
    · cases type
    · exact filled
  have ends : nextStart (symtabFile body) syms = 52 + body.length := by
    have none : (((sectionsOf (symtabFile body)).filter fun t => t.shSize ≠ 0).map fun t =>
        t.shOffset.toNat).filter (syms.shOffset.toNat < ·) = [] := by
      rw [sections, start]
      simp [empty, filled, start]
    rw [nextStart, none, shoff]
    rfl
  constructor
  case magic => rw [header]; exact ⟨rfl, rfl, rfl, rfl⟩
  case class32 => rw [header]; rfl
  case ehsize => rw [header]; rfl
  case shentsize => rw [header]; rfl
  case shnum => rw [header]; exact Nat.le_refl 2
  case shoff => omega
  case length => rw [length, shoff, header]; rfl
  case symtab =>
    intro i _ j _ s hs t ht stype ttype
    rw [symtab i s hs stype, symtab j t ht ttype]
  case symtabSize =>
    intro s hs type
    rcases mem s hs with rfl | rfl
    · cases type
    · rw [show syms.shSize.toNat = body.length from size, whole]
  case rels =>
    rw [sections]
    simp [hnull, hsyms, objectShdr, Elf32Shdr.isRel, shtSymtab, shtRel]
  case distinct =>
    intro i _ j _ s hs t ht sne tne _
    rw [(at_index i s hs sne).1, (at_index j t ht tne).1]
  case first => exact ⟨syms, by rw [sections]; simp, filled, rfl⟩
  case behindHeader =>
    intro s hs nonempty
    rcases mem s hs with rfl | rfl
    · exact absurd empty nonempty
    · exact start.ge
  case last =>
    intro s hs
    have same : s = syms := by
      rw [sections] at hs
      exact (Option.some.inj hs).symm
    rw [same]
    refine ⟨filled, by omega, ?_⟩
    intro t ht nonempty
    rcases mem t ht with rfl | rfl
    · exact absurd empty nonempty
    · exact Nat.le_refl _
  case empty =>
    intro s hs none
    rcases mem s hs with rfl | rfl
    · exact Or.inl rfl
    · exact absurd none filled
  case ascending =>
    intro i _ s hs t ht nonempty
    rw [(at_index i s hs nonempty).1, sections] at ht
    cases ht
  case tight =>
    intro s hs nonempty _
    rcases mem s hs with rfl | rfl
    · exact absurd empty nonempty
    · rw [ends, start, show syms.shSize.toNat = body.length from size]

end symtabFile

/-- A file whose symbol table has 256 MiB is not copied: the block that is allocated for its symbols
has no bytes. -/
theorem not_copy_round_trip : ∃ file, Copyable file ∧ ∀ q,
    ¬∃ elf f out, load file = .ok (elf, f) ∧ writeElf q elf CFile.openWrite = .ok out ∧
      out.bytes = file := by
  have length : (List.replicate (2 ^ 28) (0 : UInt8)).length = 2 ^ 28 := List.length_replicate
  generalize List.replicate (2 ^ 28) (0 : UInt8) = body at length
  have inside := @symtabFile_inside body (by omega)
  have present := @symtabFile_find body (by omega)
  refine ⟨symtabFile body, symtabFile_copyable (by omega) (by omega) (by omega), fun q => ?_⟩
  rintro ⟨elf, f, out, hload, _⟩
  rw [length] at present
  rw [load, inside.loadTables_fault present (by decide), error_bind] at hload
  cases hload

end ArmRunner
