import ArmRunner.CopyRoundTrip

namespace ArmRunner

open CRun NewIndex Slice Tiling

section fileOf

variable {v : View} {order : List Section}

theorem body_length (tiles : Tiles start (size v) 52 order v.header.eShoff.toNat) :
    (order.flatMap (contentOf v)).length = v.header.eShoff.toNat - 52 :=
  tiles_flatMap_length tiles (fun _ _ => rfl)

theorem fileOf_eq (v : View) (order : List Section) :
    fileOf v order =
      assemble v.header (order.flatMap (contentOf v)) (v.sections.map Prod.fst) := by
  rw [fileOf, assemble, List.flatMap_map]

theorem fileOf_length (pad : v.header.eIdent.eiPad.length = 7)
    (tiles : Tiles start (size v) 52 order v.header.eShoff.toNat) :
    (fileOf v order).length = v.header.eShoff.toNat + 40 * v.sections.length := by
  have inside := tiles_le tiles
  rw [fileOf_eq, assemble_length pad, body_length tiles, List.length_map]
  omega

theorem headerOf_fileOf (pad : v.header.eIdent.eiPad.length = 7) :
    headerOf (fileOf v order) = v.header := by
  rw [fileOf_eq, headerOf_assemble pad]

/-- The section header table of the written file is the one in memory. -/
theorem sectionsOf_fileOf (pad : v.header.eIdent.eiPad.length = 7)
    (tiles : Tiles start (size v) 52 order v.header.eShoff.toNat)
    (count : v.header.eShnum.toNat = v.sections.length) :
    sectionsOf (fileOf v order) = v.sections.map Prod.fst := by
  have inside := tiles_le tiles
  have body := body_length tiles
  rw [fileOf_eq]
  exact sectionsOf_assemble pad (by omega) (by rw [count, List.length_map])

/-- In the written file a content lies at the offset in its section header. -/
theorem fileOf_slice (pad : v.header.eIdent.eiPad.length = 7)
    (tiles : Tiles start (size v) 52 order v.header.eShoff.toNat) {s : Section}
    (hs : s ∈ order) : slice (fileOf v order) (start s) (start s + size v s) = contentOf v s := by
  have bounds := tiles_mem tiles hs
  have header := headerBytes_length pad
  have body := body_length tiles
  have there := tiles_flatMap_slice tiles (c := contentOf v) (fun _ _ => rfl) hs
  rw [fileOf, slice_append_left (by rw [List.length_append]; omega),
    slice_append_right (by omega), header]
  rwa [show start s + size v s - 52 = start s - 52 + size v s by omega]

end fileOf

/-- A section of the source file and the same section of the file without relocation sections: the
bytes at its start are the same up to where the next section of the source file begins. -/
structure SectionKept (file out : List UInt8) (s s' : Elf32Shdr) : Prop where
  size : s'.shSize = s.shSize
  bytes : s.shType ≠ shtSymtab → ∀ n, s.shOffset.toNat + n ≤ nextStart file s →
    slice out s'.shOffset.toNat (s'.shOffset.toNat + n) =
      slice file s.shOffset.toNat (s.shOffset.toNat + n)
  symbols : s.shType = shtSymtab →
    (symbolsAt out s').map Elf32Sym.stable = (symbolsAt file s).map Elf32Sym.stable

section deleted

variable {file : List UInt8} {elf : Elf32Main} {w : View} {order : List Section}

theorem symbolsAt_fileOf (pad : w.header.eIdent.eiPad.length = 7)
    (tiles : Tiles start (size w) 52 order w.header.eShoff.toNat) {s : Section} (hs : s ∈ order)
    (ht : s.1.shType = shtSymtab) (count : s.1.shSize.toNat / 16 = w.symTable.length) :
    symbolsAt (fileOf w order) s.1 = w.symTable := by
  have content : contentOf w s = w.symTable.flatMap symBytes := if_pos ht
  have there := fileOf_slice pad tiles hs
  have length : size w s = 16 * w.symTable.length := by
    rw [size, content, flatMap_length_const symBytes_length]
  rw [content, length] at there
  apply List.ext_getElem?
  intro j
  rw [symbolsAt, count, List.getElem?_map]
  by_cases hj : j < w.symTable.length
  · have entry : w.symTable[j]? = some w.symTable[j] := List.getElem?_eq_getElem hj
    have decoded := symAt_table entry
    rw [← there, symAt_slice (by omega)] at decoded
    rw [List.getElem?_range hj, entry]
    exact congrArg some decoded
  · rw [List.getElem?_eq_none (by simpa using hj), List.getElem?_eq_none (by omega)]
    rfl

/-- A section that stays takes as many bytes after the deletions as before. -/
theorem removes_size {v : View} (removes : Removes 0 v w) {s s' : Section}
    (stable : s'.stable = s.stable) :
    size w s' = size v s ∧ (s.1.shType ≠ shtSymtab → contentOf w s' = contentOf v s) := by
  obtain ⟨content, _, type, _⟩ := stable_fields stable
  by_cases ht : s.1.shType = shtSymtab
  · refine ⟨?_, fun hne => absurd ht hne⟩
    simp only [size, contentOf, type, if_pos ht, flatMap_length_const symBytes_length,
      removes_symTable_length removes (by simp)]
  · have same : contentOf w s' = contentOf v s := by
      simp only [contentOf, type, if_neg ht, content]
    exact ⟨by rw [size, same, size], fun _ => same⟩

/-- The sections that stay keep their bytes, and the symbol table its entries. -/
theorem LoadedFrom.sectionKept (arranged : Arranged file) (h : LoadedFrom file elf)
    (loaded : Loaded elf) (removes : Removes 0 (viewOf elf) w)
    (perm : order.Perm (w.sections.filter (occupied w)))
    (tiles : Tiles start (size w) 52 order w.header.eShoff.toNat)
    (pad : w.header.eIdent.eiPad.length = 7) {k : Nat} {s : Elf32Shdr}
    (hs : (sectionsOf file)[k]? = some s) (hrel : s.isRel = false) (nonempty : s.shSize ≠ 0) :
    ∃ s', (w.sections.map Prod.fst)[newIndex Elf32Shdr.kept (sectionsOf file) k]? = some s' ∧
      SectionKept file (fileOf w order) s s' := by
  have head := List.mem_of_getElem? hs
  obtain ⟨c, hc⟩ := loaded.section_of_head (h.sectHeader ▸ hs)
  have hm := List.mem_of_getElem? hc
  obtain ⟨t, ht, stable⟩ := removes_getElem? removes (by simp) hc (keep_of_not_rel hrel)
  obtain ⟨_, _, type, shSize, _⟩ := stable_fields stable
  simp only at type shSize
  obtain ⟨sizes, contents⟩ := removes_size removes stable
  have above := arranged.above head nonempty
  have covered : size (viewOf elf) (s, c) = nextStart file s - s.shOffset.toNat := by
    rw [h.size_eq arranged hm, if_neg nonempty]
  have hocc : occupied w t = true := by
    simp only [occupied, decide_eq_true_eq]
    omega
  have hmem : t ∈ order :=
    perm.mem_iff.mpr (List.mem_filter.mpr ⟨List.mem_of_getElem? ht, hocc⟩)
  refine ⟨t.1, ?_, shSize, ?_, ?_⟩
  · rw [List.getElem?_map, ← h.sectHeader, ← loaded.newIndex_eq, ht]
    rfl
  · intro notSym n within
    have there := fileOf_slice pad tiles hmem
    rw [contents notSym, h.contentOf_eq arranged hm, coveredBytes, if_neg nonempty] at there
    have cut := congrArg (fun bytes => slice bytes 0 n) there
    simp only at cut
    rw [slice_slice (by rw [sizes, covered]; omega), slice_slice (by omega)] at cut
    exact cut
  · intro isSym
    have table : (viewOf elf).symTable = symbolsAt file s := h.symTable s head isSym
    have count : t.1.shSize.toNat / 16 = w.symTable.length := by
      rw [shSize, removes_symTable_length removes (by simp), table, symbolsAt, List.length_map,
        List.length_range]
    rw [symbolsAt_fileOf pad tiles hmem (type.trans isSym) count,
      removes_symTable removes (by simp), table]

end deleted

/-- Deletion of the relocation sections of such a file writes a file that is laid out as its
own headers say, and in which every section that stays has its bytes at its new offset, when the
symbols have room and no section that is moved or freed is empty. -/
theorem deleteRel_layout {file : List UInt8} (h : Copyable file) (room : SymtabRoom file)
    (filled : Filled (fromFirstRel (sectionsOf file))) (q : Qsort) :
    ∃ elf f elf' out, load file = .ok (elf, f) ∧ deleteRel elf = .ok elf' ∧
      writeElf q elf' CFile.openWrite = .ok out ∧
      out.bytes.length = elf'.header.eShoff.toNat + 40 * elf'.header.eShnum.toNat ∧
      headerOf out.bytes = elf'.header ∧
      sectionsOf out.bytes = elf'.sectHeader.take elf'.header.eShnum.toNat ∧
      elf'.header.eShnum.toNat = ((sectionsOf file).filter Elf32Shdr.kept).length ∧
      ∀ (k : Nat) (s : Elf32Shdr), (sectionsOf file)[k]? = some s → s.isRel = false →
        s.shSize ≠ 0 →
        ∃ s', (sectionsOf out.bytes)[newIndex Elf32Shdr.kept (sectionsOf file) k]? = some s' ∧
          SectionKept file out.bytes s s' := by
  have arranged := h.arranged
  obtain ⟨elf, f, hload, _, fromFile⟩ := arranged.load_returns room
  have loaded := load_loaded hload
  obtain ⟨elf', w, run, removes, represents⟩ :=
    loaded.deleteRel_run (load_matched hload) (fromFile.deletable loaded filled)
  have layout := (fromFile.layout arranged loaded).removes removes
  have ident : w.header.eIdent = (headerOf file).eIdent := by
    have stable := congrArg (fun e : Elf32Ehdr => e.eIdent) (removes_header removes (by simp))
    rw [← fromFile.header]
    exact stable
  have inside := arranged.header_inside
  have pad : w.header.eIdent.eiPad.length = 7 := by
    rw [ident]
    exact slice_length (by omega)
  obtain ⟨order, perm, tiles, written⟩ := layout.write q represents (ident ▸ h.class32)
    CFile.openWrite
  have count : w.header.eShnum.toNat = w.sections.length := by
    rw [← represents.header, represents.count]
  have heads : elf'.sectHeader.take elf'.header.eShnum.toNat = w.sections.map Prod.fst := by
    obtain ⟨tail, tab, _⟩ := represents.heads
    rw [tab, represents.count, List.take_append_of_le_length (by simp)]
    exact List.take_of_length_le (by simp)
  have rewound : CFile.openWrite.fseek 0 = CFile.openWrite := rfl
  rw [rewound, CFile.fwrite_openWrite] at written
  refine ⟨elf, f, elf', _, hload, run, written, ?_, ?_, ?_, ?_, ?_⟩
  · rw [fileOf_length pad tiles, represents.count, represents.header]
  · rw [headerOf_fileOf pad, represents.header]
  · rw [sectionsOf_fileOf pad tiles count, heads]
  · have kept := removes_length removes (by simp)
    have through : ((viewOf elf).sections.filter keep).length =
        (((viewOf elf).sections.map Prod.fst).filter Elf32Shdr.kept).length := by
      rw [List.filter_map, List.length_map]
      rfl
    rw [represents.count, kept, through, loaded.viewOf_heads, fromFile.sectHeader]
  · intro k s hs hrel nonempty
    rw [sectionsOf_fileOf pad tiles count]
    exact fromFile.sectionKept arranged loaded removes perm tiles pad hs hrel nonempty

theorem objectFile_filled : Filled (fromFirstRel (sectionsOf objectFile)) := by
  unfold Filled
  decide

theorem deleteRel_layout_objectFile :
    ∃ elf f elf' out, load objectFile = .ok (elf, f) ∧ deleteRel elf = .ok elf' ∧
      writeElf insertionQsort elf' CFile.openWrite = .ok out ∧
      out.bytes.length = elf'.header.eShoff.toNat + 40 * elf'.header.eShnum.toNat ∧
      headerOf out.bytes = elf'.header ∧
      sectionsOf out.bytes = elf'.sectHeader.take elf'.header.eShnum.toNat ∧
      elf'.header.eShnum.toNat = ((sectionsOf objectFile).filter Elf32Shdr.kept).length ∧
      ∀ (k : Nat) (s : Elf32Shdr), (sectionsOf objectFile)[k]? = some s → s.isRel = false →
        s.shSize ≠ 0 →
        ∃ s', (sectionsOf out.bytes)[newIndex Elf32Shdr.kept (sectionsOf objectFile) k]? = some s' ∧
          SectionKept objectFile out.bytes s s' :=
  deleteRel_layout objectFile_copyable objectFile_room objectFile_filled insertionQsort

def overrunSections : List Elf32Shdr :=
  [objectShdr 0 0 0 0 0 0, objectShdr 0 shtNobits 52 12 0 0, objectShdr 0 shtRel 56 8 0 0,
    objectShdr 0 1 64 4 0 0]

/-- An object file with a `SHT_NOBITS` section larger than the room before the next section,
which is a relocation section. -/
def overrunFile : List UInt8 :=
  assemble (objectHeader 68 4 0) (List.replicate 12 0 ++ [1, 2, 3, 4]) overrunSections

theorem overrunFile_copyable : Copyable overrunFile := by
  decide +kernel

/-- The bytes that `-d` writes for a file. -/
def deletedFile (file : List UInt8) : Run (List UInt8) := do
  let (elf, _) ← load file
  let elf ← deleteRel elf
  let out ← writeElf insertionQsort elf CFile.openWrite
  .ok out.bytes

/-- The twelve bytes from the start of the first section on are not those of the source file. -/
theorem deleteRel_overrun :
    ∃ out, Copyable overrunFile ∧ deletedFile overrunFile = .ok out ∧
      ∃ s s', (sectionsOf overrunFile)[1]? = some s ∧ s.isRel = false ∧ s.shSize ≠ 0 ∧
        s.shType ≠ shtSymtab ∧
        (sectionsOf out)[newIndex Elf32Shdr.kept (sectionsOf overrunFile) 1]? = some s' ∧
        slice out s'.shOffset.toNat (s'.shOffset.toNat + s'.shSize.toNat) ≠
          slice overrunFile s.shOffset.toNat (s.shOffset.toNat + s.shSize.toNat) := by
  refine ⟨assemble (objectHeader 60 3 0) ([0, 0, 0, 0] ++ [1, 2, 3, 4])
    [objectShdr 0 0 0 0 0 0, objectShdr 0 shtNobits 52 12 0 0, objectShdr 0 1 56 4 0 0],
    overrunFile_copyable, by decide +kernel, objectShdr 0 shtNobits 52 12 0 0,
    objectShdr 0 shtNobits 52 12 0 0, by decide, by decide, by decide, by decide,
    by decide, by decide⟩

end ArmRunner
