import ArmRunner.Destination
import ArmRunner.Fixpoint
import Mathlib.Data.List.TakeWhile

namespace ArmRunner

open CRun Slice Tiling

/-- Two files of one length with the same header and the same section header table. -/
structure SameHeads (file out : List UInt8) : Prop where
  header : headerOf out = headerOf file
  sections : sectionsOf out = sectionsOf file
  length : out.length = file.length

section heads

variable {file out : List UInt8} {e : Elf32Shdr}

theorem SameHeads.nextStart_eq (h : SameHeads file out) (e : Elf32Shdr) :
    nextStart out e = nextStart file e := by
  simp only [nextStart, h.header, h.sections]

/-- Whether a file can be copied does not depend on the bytes between its tables. -/
theorem SameHeads.copyable (h : SameHeads file out) (copyable : Copyable file) : Copyable out := by
  have next : nextStart out = nextStart file := funext h.nextStart_eq
  rw [copyable_iff, h.header, h.sections, h.length, next]
  exact (copyable_iff file).mp copyable

theorem SameHeads.room (h : SameHeads file out) (room : SymtabRoom file) : SymtabRoom out := by
  unfold SymtabRoom
  rw [h.sections]
  exact room

theorem coveredBytes_length (h : Arranged file) (nonempty : e.shSize ≠ 0) :
    (coveredBytes file e).length = nextStart file e - e.shOffset.toNat := by
  have top := h.nextStart_le (s := e)
  have length := h.length
  rw [coveredBytes, if_neg nonempty, slice_length (by omega)]

/-- A file of this kind is its header, the bytes of its sections and its table. -/
theorem SameHeads.eq (h : SameHeads file out) (arranged : Arranged file)
    (room : SymtabRoom file)
    (covered : ∀ e ∈ sectionsOf file, coveredBytes out e = coveredBytes file e) : out = file := by
  obtain ⟨elf, f, hload, _, fromFile⟩ := arranged.load_returns room
  obtain ⟨order, perm, tiles⟩ := fromFile.tiled arranged (load_loaded hload)
  have inside := tiles_le tiles
  have length := arranged.length
  have head : slice out 0 52 = slice file 0 52 := by
    have long := h.length
    rw [← headerBytes_headerOf (by omega), h.header, headerBytes_headerOf (by omega)]
  have cut {bytes : List UInt8} {s : Section} (nonempty : s.1.shSize ≠ 0)
      (next : nextStart bytes s.1 = start s + size (viewOf elf) s) :
      coveredBytes bytes s.1 = slice bytes (start s) (start s + size (viewOf elf) s) := by
    rw [coveredBytes, if_neg nonempty, next]
    rfl
  have body : slice out 52 (headerOf file).eShoff.toNat =
      slice file 52 (headerOf file).eShoff.toNat := by
    have members : ∀ s ∈ order, s.1 ∈ sectionsOf file ∧
        coveredBytes file s.1 = slice file (start s) (start s + size (viewOf elf) s) ∧
        coveredBytes out s.1 = slice out (start s) (start s + size (viewOf elf) s) := by
      intro s hs
      obtain ⟨hm, hocc⟩ := List.mem_filter.mp (perm.mem_iff.mp hs)
      have nonempty := (fromFile.occupied_iff arranged hm).mp hocc
      have ends := fromFile.ends arranged hm nonempty
      exact ⟨(fromFile.mem hm).1, cut nonempty ends.symm,
        cut nonempty ((h.nextStart_eq s.1).trans ends.symm)⟩
    rw [← tiles_flatMap_eq_slice tiles fun s hs => (members s hs).2.2,
      ← tiles_flatMap_eq_slice tiles fun s hs => (members s hs).2.1]
    exact List.flatMap_congr fun s hs => covered s.1 (members s hs).1
  have table : slice out (headerOf file).eShoff.toNat file.length =
      slice file (headerOf file).eShoff.toNat file.length := by
    have long := h.length
    have same := @sectionsOf_bytes out (by rw [h.header]; omega)
    rw [h.header, h.sections, sectionsOf_bytes (by omega), ← length] at same
    exact same.symm
  have whole (bytes : List UInt8) (long : bytes.length = file.length) : bytes =
      slice bytes 0 52 ++ slice bytes 52 (headerOf file).eShoff.toNat ++
        slice bytes (headerOf file).eShoff.toNat file.length := by
    rw [slice_append_slice bytes (by omega) inside, slice_append_slice bytes (by omega) (by omega),
      slice_zero, ← long, List.take_length]
  rw [whole out h.length, head, body, table, ← whole file rfl]

end heads

section reads

variable {file : List UInt8} {elf : Elf32Main} {f : CFile} {e : Elf32Shdr}

theorem relAt_slice {xs : List UInt8} {a b p : Nat} (h : a + p + 8 ≤ b) :
    relAt (slice xs a b) p = relAt xs (a + p) := by
  simp (disch := omega) only [relAt, wordAt, slice_slice, Nat.add_assoc]

/-- The relocations of a section are read from the bytes that are kept for it. -/
theorem relocsAt_covered (h : Arranged file) (he : e ∈ sectionsOf file) (hrel : e.isRel = true) :
    relocsAt file e =
      (List.range (e.shSize.toNat / 8)).map fun j => relAt (coveredBytes file e) (8 * j) := by
  apply List.map_congr_left
  intro j hj
  have below := List.mem_range.mp hj
  have nonempty : e.shSize ≠ 0 := by
    rintro zero
    rw [zero] at below
    exact absurd below (Nat.not_lt_zero j)
  have ends := h.tight e he nonempty (Or.inl hrel)
  rw [coveredBytes, if_neg nonempty, relAt_slice (by omega)]

/-- A name that ends in the bytes kept for a section is read from them. -/
theorem fullName_covered (h : Arranged file) (he : e ∈ sectionsOf file) {n : Nat}
    (ends : 0 ∈ (coveredBytes file e).drop n) : fullName file (e.shOffset.toNat + n) =
      ((coveredBytes file e).drop n).takeWhile (· ≠ 0) := by
  have nonempty : e.shSize ≠ 0 := by
    intro zero
    rw [coveredBytes, if_pos zero, List.drop_nil] at ends
    cases ends
  have split : file.drop (e.shOffset.toNat + n) =
      (coveredBytes file e).drop n ++ file.drop (max (nextStart file e) (e.shOffset.toNat + n)) := by
    have above := h.above he nonempty
    have length := coveredBytes_length h nonempty
    have inside : n < (coveredBytes file e).length := by
      by_contra beyond
      rw [List.drop_eq_nil_of_le (by omega)] at ends
      cases ends
    rw [Nat.max_eq_left (by omega), coveredBytes, if_neg nonempty, slice, List.drop_take,
      List.drop_drop]
    have rest : file.drop (nextStart file e) =
        (file.drop (e.shOffset.toNat + n)).drop (nextStart file e - e.shOffset.toNat - n) := by
      rw [List.drop_drop]
      congr 1
      omega
    rw [rest, List.take_append_drop]
  have stops : ((coveredBytes file e).drop n).takeWhile (· ≠ 0) ≠ (coveredBytes file e).drop n := by
    intro all
    have kept := List.takeWhile_eq_self_iff.mp all 0 ends
    simp at kept
  rw [fullName, split, List.takeWhile_append]
  split
  next same =>
    have whole := (List.takeWhile_prefix (p := fun x : UInt8 => decide (x ≠ 0))
      (l := (coveredBytes file e).drop n)).eq_of_length same
    exact absurd whole stops
  next => rfl

theorem Arranged.load_relocs (h : Arranged file) (hload : load file = .ok (elf, f)) :
    elf.relTable = ((sectionsOf file).filter Elf32Shdr.isRel).map (relocsAt file) ∧
      elf.tabSecRel = ⟨((sectionsOf file).filter Elf32Shdr.isRel).map fun s => s.shSize.toNat / 8,
        ((sectionsOf file).filter Elf32Shdr.isRel).length⟩ := by
  have fromFile := h.loadedFrom hload
  have length := h.length
  have full : (sectionsOf file).length = (headerOf file).eShnum.toNat := sectionsOf_length file
  obtain ⟨f1, f2, f3, f4, tab, hheader, htab, _, hsym, hreloc, _⟩ := load_eq_ok hload
  rw [fromFile.header] at hheader htab hsym hreloc
  rw [fromFile.sectHeader] at hsym hreloc
  cases Except.ok.inj (hheader.symm.trans (loadHeader_at h.header_inside h.magic h.class32))
  cases Except.ok.inj (htab.symm.trans (readTabSectionHeader_at (by omega)))
  obtain ⟨symTable, nb, q, hsym', _⟩ := readSymTable_at
    (p := (headerOf file).eShoff.toNat + 40 * (headerOf file).eShnum.toNat) full
    (fun s hs ht => h.in_file hs (Or.inr ht))
    (fun i j s t hs ht => h.symtab i (List.getElem?_eq_some_iff.mp hs).1 j
      (List.getElem?_eq_some_iff.mp ht).1 s hs t ht)
  cases Except.ok.inj (hsym.symm.trans hsym')
  obtain ⟨r, hreloc', _, tables, counts, number⟩ := readRelocTable_at (p := q) full
    (fun s hs hrel _ => h.in_file hs (Or.inl hrel)) h.rels
  cases Except.ok.inj (hreloc.symm.trans hreloc')
  refine ⟨tables, ?_⟩
  rw [← counts, ← number]

end reads

/-- A state that differs from another one in the symbols and in the bytes of the buffers only. -/
structure Edited (elf elf1 : Elf32Main) : Prop where
  rest : elf1 = { elf with symTable := elf1.symTable, sectionContent := elf1.sectionContent }
  symTable : elf1.symTable.length = elf.symTable.length
  contents : elf1.sectionContent.map contentShape = elf.sectionContent.map contentShape

/-- What the image of a state does not show is the content kept for the symbol table. -/
structure Alike (elf elf1 : Elf32Main) : Prop where
  rest : elf1 = { elf with sectionContent := elf1.sectionContent }
  contents : elf1.sectionContent.map contentShape = elf.sectionContent.map contentShape
  bytes : ∀ (i : Nat) (e : Elf32Shdr), elf.sectHeader[i]? = some e → e.shType ≠ shtSymtab →
    elf1.sectionContent[i]? = elf.sectionContent[i]?

section edited

variable {file out img : List UInt8} {elf elf1 elfG : Elf32Main} {f fG : CFile}

theorem Edited.header (h : Edited elf elf1) : elf1.header = elf.header := by
  rw [h.rest]

theorem Edited.sectHeader (h : Edited elf elf1) : elf1.sectHeader = elf.sectHeader := by
  rw [h.rest]

theorem Edited.length (h : Edited elf elf1) :
    elf1.sectionContent.length = elf.sectionContent.length := by
  simpa using congrArg List.length h.contents

theorem Edited.loaded (h : Edited elf elf1) (loaded : Loaded elf) : Loaded elf1 := by
  have count : elf1.nbSymboles = elf.nbSymboles := by rw [h.rest]
  refine ⟨?_, ?_, ?_, ?_⟩
  · rw [h.sectHeader, h.header, loaded.heads]
  · rw [h.length, h.header, loaded.contents]
  · rw [count, h.symTable, loaded.nbSymboles]
  · intro c hc
    have there : contentShape c ∈ elf.sectionContent.map contentShape :=
      h.contents ▸ List.mem_map_of_mem hc
    obtain ⟨c0, hc0, same⟩ := List.mem_map.mp there
    obtain ⟨size, bytes⟩ := Prod.mk.inj same
    have sized := loaded.sized c0 hc0
    rw [SectionContent.Filled] at sized ⊢
    rwa [← size, ← bytes]

theorem Edited.sameLayout (h : Edited elf elf1) (loaded : Loaded elf) :
    SameLayout (viewOf elf) (viewOf elf1) := by
  refine ⟨h.header, h.symTable, ?_⟩
  have contents : (viewOf elf).sections.map Prod.snd = elf.sectionContent :=
    List.map_snd_zip (Nat.le_of_eq (loaded.contents.trans loaded.heads.symm))
  have same := @forall₂_sameShape (viewOf elf).sections elf1.sectionContent
    (by rw [contents, h.contents])
  rwa [loaded.viewOf_heads, ← h.sectHeader] at same

theorem Edited.writable (h : Edited elf elf1) (copyable : Copyable file)
    (hload : load file = .ok (elf, f)) : Writable elf1 (viewOf elf1) := by
  have loaded := load_loaded hload
  have shape := load_relocShape hload
  refine (loaded_writable copyable hload).sameLayout (h.sameLayout loaded)
    (viewOf_represents (h.loaded loaded)) ⟨?_, ?_⟩
  · rw [h.rest]
    exact shape.nbSections
  · rw [h.rest]
    exact shape.tabNb

theorem sameShape_of_mem {v w : View} (sections : List.Forall₂ SameShape v.sections w.sections)
    {t : Section} (ht : t ∈ w.sections) : ∃ s ∈ v.sections, SameShape s t := by
  obtain ⟨k, hk, rfl⟩ := List.getElem_of_mem ht
  have hk' : k < v.sections.length := by rw [sections.length_eq]; exact hk
  exact ⟨_, List.getElem_mem hk', sections.get hk' hk⟩

/-- What a file holds that a state was written to: the tables of the file that was loaded first,
and for each section the content in memory. -/
structure ImageOf (file : List UInt8) (elf1 : Elf32Main) (img : List UInt8) : Prop where
  heads : SameHeads file img
  covered : ∀ s ∈ (viewOf elf1).sections, coveredBytes img s.1 = contentOf (viewOf elf1) s

theorem Edited.sameHeads (h : Edited elf elf1) (copyable : Copyable file)
    (hload : load file = .ok (elf, f)) {order : List Section}
    (tiles : Tiles start (size (viewOf elf1)) 52 order (viewOf elf1).header.eShoff.toNat) :
    SameHeads file (fileOf (viewOf elf1) order) := by
  have fromFile := copyable.arranged.loadedFrom hload
  have loaded := h.loaded (load_loaded hload)
  have writable := h.writable copyable hload
  have header : (viewOf elf1).header = headerOf file := h.header.trans fromFile.header
  have count : (viewOf elf1).header.eShnum.toNat = (viewOf elf1).sections.length :=
    writable.represents.count
  refine ⟨?_, ?_, ?_⟩
  · rw [headerOf_fileOf writable.pad, header]
  · rw [sectionsOf_fileOf writable.pad tiles count, loaded.viewOf_heads, h.sectHeader,
      fromFile.sectHeader]
  · rw [fileOf_length writable.pad tiles, ← count, header, copyable.arranged.length]

/-- In the file that a state is written to, each section is covered by its content. -/
theorem Edited.covered (h : Edited elf elf1) (copyable : Copyable file)
    (hload : load file = .ok (elf, f)) {order : List Section}
    (perm : order.Perm ((viewOf elf1).sections.filter (occupied (viewOf elf1))))
    (tiles : Tiles start (size (viewOf elf1)) 52 order (viewOf elf1).header.eShoff.toNat)
    {t : Section} (ht : t ∈ (viewOf elf1).sections) :
    coveredBytes (fileOf (viewOf elf1) order) t.1 = contentOf (viewOf elf1) t := by
  have arranged := copyable.arranged
  have fromFile := arranged.loadedFrom hload
  have same := h.sameLayout (load_loaded hload)
  have heads := h.sameHeads copyable hload tiles
  obtain ⟨s, hs, shape⟩ := sameShape_of_mem same.sections ht
  have sizes : size (viewOf elf) s = size (viewOf elf1) t := size_sameShape same.symTable shape
  by_cases empty : t.1.shSize = 0
  · have none : (contentOf (viewOf elf1) t).length = 0 := by
      rw [← size, ← sizes, fromFile.size_eq arranged hs, shape.1, if_pos empty]
    rw [coveredBytes, if_pos empty, List.length_eq_zero_iff.mp none]
  · have nonempty : s.1.shSize ≠ 0 := by rwa [shape.1]
    have hocc : occupied (viewOf elf1) t = true := by
      have taken := (fromFile.occupied_iff arranged hs).mpr nonempty
      rwa [occupied, sizes] at taken
    have ends : start t + size (viewOf elf1) t = nextStart file t.1 := by
      rw [← sizes, ← shape.1, ← fromFile.ends arranged hs nonempty, start, start, shape.1]
    rw [coveredBytes, if_neg empty, heads.nextStart_eq, ← ends]
    exact fileOf_slice (h.writable copyable hload).pad tiles
      (perm.mem_iff.mpr (List.mem_filter.mpr ⟨ht, hocc⟩))

theorem Edited.image (h : Edited elf elf1) (copyable : Copyable file)
    (hload : load file = .ok (elf, f)) : ∃ img, ImageOf file elf1 img ∧
      (∀ bytes, IsImage elf1 bytes ↔ bytes = img) ∧
      ∀ q f, writeElf q elf1 f = .ok ((f.fseek 0).fwrite img) := by
  have writable := h.writable copyable hload
  obtain ⟨img, _, unique, writes⟩ := writable.image
  obtain ⟨order, perm, tiles, run⟩ := writable.layout.write insertionQsort writable.represents
    writable.class32 CFile.openWrite
  have rewound : CFile.openWrite.fseek 0 = CFile.openWrite := rfl
  have out := Except.ok.inj ((writes insertionQsort CFile.openWrite).symm.trans run)
  rw [rewound, CFile.fwrite_openWrite, CFile.fwrite_openWrite] at out
  have bytes : img = fileOf (viewOf elf1) order := congrArg CFile.bytes out
  refine ⟨img, ?_, unique, writes⟩
  rw [bytes]
  exact ⟨h.sameHeads copyable hload tiles, fun t ht => h.covered copyable hload perm tiles ht⟩

theorem SameHeads.covered_length (h : SameHeads file out) (arranged : Arranged file)
    (copyable : Arranged out) (e : Elf32Shdr) :
    (coveredBytes out e).length = (coveredBytes file e).length := by
  by_cases empty : e.shSize = 0
  · simp [coveredBytes, empty]
  · rw [coveredBytes_length copyable empty, coveredBytes_length arranged empty, h.nextStart_eq]

theorem LoadedFrom.contentShape (h : LoadedFrom file elf) (loaded : Loaded elf) :
    elf.sectionContent.map contentShape = (sectionsOf file).map fun e =>
      (((coveredBytes file e).length : Int), (coveredBytes file e).length) := by
  have lengths : elf.sectionContent.length = (sectionsOf file).length := by
    rw [loaded.contents, ← loaded.heads, h.sectHeader]
  apply List.ext_getElem (by simp [lengths])
  intro i hi hi'
  have there : i < (sectionsOf file).length := by simpa using hi'
  have content := h.content i _ (List.getElem?_eq_getElem there)
  obtain ⟨_, same⟩ := List.getElem?_eq_some_iff.mp content
  rw [List.getElem_map, List.getElem_map, same]
  rfl

/-- The symbols of a table are read from the bytes that are kept for it. -/
theorem symbolsAt_covered (h : Arranged file) {e : Elf32Shdr} (he : e ∈ sectionsOf file)
    (type : e.shType = shtSymtab) {tab : List Elf32Sym}
    (bytes : coveredBytes file e = tab.flatMap symBytes)
    (count : e.shSize.toNat / 16 = tab.length) : symbolsAt file e = tab := by
  apply List.ext_getElem (by simp [symbolsAt, count])
  intro j hj hj'
  have below : 16 * j + 16 ≤ e.shSize.toNat := by omega
  have nonempty : e.shSize ≠ 0 := by
    intro zero
    rw [zero] at below
    exact absurd below (by simp)
  have ends := h.tight e he nonempty (Or.inr type)
  have decoded := symAt_table (List.getElem?_eq_getElem hj')
  rw [← bytes, coveredBytes, if_neg nonempty, symAt_slice (by omega)] at decoded
  simp only [symbolsAt, List.getElem_map, List.getElem_range, decoded]

theorem ImageOf.symbols (image : ImageOf file elf1 img) (h : Edited elf elf1)
    (copyable : Copyable file) (hload : load file = .ok (elf, f))
    (hloadG : load img = .ok (elfG, fG)) :
    elfG.symTable = elf1.symTable ∧ elfG.nbSymboles = elf1.nbSymboles := by
  have arranged := copyable.arranged
  have arrangedG := (image.heads.copyable copyable).arranged
  have fromFile := arranged.loadedFrom hload
  have fromImage := arrangedG.loadedFrom hloadG
  have loaded := h.loaded (load_loaded hload)
  have heads : elfG.sectHeader = elf.sectHeader := by
    rw [fromImage.sectHeader, image.heads.sections, fromFile.sectHeader]
  have count : elf1.nbSymboles = elf.nbSymboles := by rw [h.rest]
  by_cases present : ∃ e ∈ elf.sectHeader, e.shType = shtSymtab
  · obtain ⟨e, he, type⟩ := present
    have inFile : e ∈ sectionsOf file := fromFile.sectHeader ▸ he
    have inImage : e ∈ sectionsOf img := image.heads.sections ▸ inFile
    have size : e.shSize.toNat / 16 = elf1.symTable.length := by
      rw [h.symTable, fromFile.symTable e inFile type]
      simp [symbolsAt]
    have bytes : coveredBytes img e = elf1.symTable.flatMap symBytes := by
      obtain ⟨i, hi⟩ := List.mem_iff_getElem?.mp (h.sectHeader ▸ he)
      obtain ⟨c, hc⟩ := loaded.section_of_head hi
      rw [image.covered _ (List.mem_of_getElem? hc), contentOf, if_pos type]
      rfl
    have table : elfG.symTable = elf1.symTable := by
      rw [fromImage.symTable e inImage type, symbolsAt_covered arrangedG inImage type bytes size]
    refine ⟨table, ?_⟩
    rw [load_nbSymboles hloadG (heads ▸ he) type, table, h.symTable, count,
      load_nbSymboles hload he type]
  · have absent : ∀ e ∈ elf.sectHeader, e.shType ≠ shtSymtab :=
      fun e he type => present ⟨e, he, type⟩
    obtain ⟨empty, minus⟩ := load_symTable_none hload absent
    obtain ⟨emptyG, minusG⟩ := load_symTable_none hloadG (heads ▸ absent)
    have none := h.symTable
    rw [empty] at none
    rw [emptyG, minusG, count, minus, List.length_eq_zero_iff.mp none]
    exact ⟨rfl, rfl⟩

theorem ImageOf.content (image : ImageOf file elf1 img) (h : Edited elf elf1)
    (copyable : Copyable file) (hload : load file = .ok (elf, f)) {i : Nat} {e : Elf32Shdr}
    (he : elf.sectHeader[i]? = some e) (type : e.shType ≠ shtSymtab) :
    elf1.sectionContent[i]? = some ⟨(coveredBytes img e).length, coveredBytes img e⟩ := by
  have loaded := h.loaded (load_loaded hload)
  obtain ⟨c, hc⟩ := loaded.section_of_head (h.sectHeader ▸ he)
  have hm := List.mem_of_getElem? hc
  have filled : c.size = c.sectionBytes.length :=
    (h.writable copyable hload).layout.filled _ hm
  have bytes : coveredBytes img e = c.sectionBytes := by
    rw [image.covered _ hm, contentOf, if_neg type]
  rw [(viewOf_getElem?.mp hc).2, bytes, ← filled]

/-- The file that a state is written to is loaded as a state with the same image, when the
relocation sections are as they were loaded. -/
theorem ImageOf.alike (image : ImageOf file elf1 img) (h : Edited elf elf1)
    (copyable : Copyable file) (hload : load file = .ok (elf, f))
    (rels : ∀ (i : Nat) (e : Elf32Shdr), elf.sectHeader[i]? = some e → e.isRel = true →
      elf1.sectionContent[i]? = elf.sectionContent[i]?)
    (hloadG : load img = .ok (elfG, fG)) : Alike elf1 elfG := by
  have arranged := copyable.arranged
  have arrangedG := (image.heads.copyable copyable).arranged
  have fromFile := arranged.loadedFrom hload
  have fromImage := arrangedG.loadedFrom hloadG
  have heads : elfG.sectHeader = elf.sectHeader := by
    rw [fromImage.sectHeader, image.heads.sections, fromFile.sectHeader]
  have header : elfG.header = elf.header := by
    rw [fromImage.header, image.heads.header, fromFile.header]
  obtain ⟨symTable, nbSymboles⟩ := image.symbols h copyable hload hloadG
  obtain ⟨tables, counts⟩ := arranged.load_relocs hload
  obtain ⟨tablesG, countsG⟩ := arrangedG.load_relocs hloadG
  have same : ∀ e ∈ (sectionsOf file).filter Elf32Shdr.isRel,
      relocsAt img e = relocsAt file e := by
    intro e he
    obtain ⟨hm, hrel⟩ := List.mem_filter.mp he
    obtain ⟨i, hi⟩ := List.mem_iff_getElem?.mp hm
    have type : e.shType ≠ shtSymtab := by
      intro type
      simp [Elf32Shdr.isRel, type, shtSymtab, shtRel] at hrel
    have hi' : elf.sectHeader[i]? = some e := fromFile.sectHeader ▸ hi
    have kept := rels i e hi' hrel
    rw [image.content h copyable hload hi' type, fromFile.content i e hi] at kept
    have bytes : coveredBytes img e = coveredBytes file e :=
      congrArg SectionContent.sectionBytes (Option.some.inj kept)
    rw [relocsAt_covered arrangedG (image.heads.sections ▸ hm) hrel,
      relocsAt_covered arranged hm hrel, bytes]
  have relTable : elfG.relTable = elf1.relTable := by
    rw [tablesG, image.heads.sections, List.map_congr_left same, ← tables, h.rest]
  have tabSecRel : elfG.tabSecRel = elf1.tabSecRel := by
    rw [countsG, image.heads.sections, ← counts, h.rest]
  refine ⟨?_, ?_, ?_⟩
  · rw [← header.trans h.header.symm, ← heads.trans h.sectHeader.symm, ← symTable, ← relTable,
      ← tabSecRel, ← nbSymboles]
  · have lengths := funext fun e => image.heads.covered_length arranged arrangedG e
    rw [fromImage.contentShape (load_loaded hloadG), image.heads.sections, h.contents,
      fromFile.contentShape (load_loaded hload)]
    exact List.map_congr_left fun e _ => by rw [congrFun lengths e]
  · intro i e he type
    rw [h.sectHeader] at he
    rw [image.content h copyable hload he type]
    have hi : (sectionsOf img)[i]? = some e := by
      rw [image.heads.sections, ← fromFile.sectHeader, he]
    exact fromImage.content i e hi

/-- States that are alike have the same image. -/
theorem ImageOf.unique {imgG : List UInt8} (image : ImageOf file elf1 img)
    (imageG : ImageOf file elfG imgG) (h : Edited elf elf1) (alike : Alike elf1 elfG)
    (copyable : Copyable file) (hload : load file = .ok (elf, f)) : imgG = img := by
  have loaded := h.loaded (load_loaded hload)
  have arranged := (image.heads.copyable copyable).arranged
  have heads : SameHeads img imgG :=
    ⟨imageG.heads.header.trans image.heads.header.symm,
      imageG.heads.sections.trans image.heads.sections.symm,
      imageG.heads.length.trans image.heads.length.symm⟩
  apply heads.eq arranged (image.heads.room (copyable.arranged.room hload))
  intro e he
  have fromFile := copyable.arranged.loadedFrom hload
  obtain ⟨i, hi⟩ := List.mem_iff_getElem?.mp he
  rw [image.heads.sections, ← fromFile.sectHeader, ← h.sectHeader] at hi
  obtain ⟨c, hc⟩ := loaded.section_of_head hi
  have length : elfG.sectionContent.length = elf1.sectionContent.length := by
    simpa using congrArg List.length alike.contents
  obtain ⟨_, content⟩ := viewOf_getElem?.mp hc
  have there : i < elfG.sectionContent.length := by
    rw [length]
    exact (List.getElem?_eq_some_iff.mp content).1
  have hcG : (viewOf elfG).sections[i]? = some (e, elfG.sectionContent[i]) := by
    apply viewOf_getElem?.mpr
    have sectHeader : elfG.sectHeader = elf1.sectHeader := by rw [alike.rest]
    exact ⟨by rw [sectHeader, hi], List.getElem?_eq_getElem there⟩
  have symTable : (viewOf elfG).symTable = (viewOf elf1).symTable := by
    rw [viewOf, viewOf, alike.rest]
  rw [imageG.covered _ (List.mem_of_getElem? hcG), image.covered _ (List.mem_of_getElem? hc),
    contentOf, contentOf, symTable]
  by_cases type : e.shType = shtSymtab
  · rw [if_pos type, if_pos type]
  · have same := alike.bytes i e hi type
    rw [List.getElem?_eq_getElem there, content] at same
    rw [if_neg type, if_neg type, Option.some.inj same]

end edited

end ArmRunner
