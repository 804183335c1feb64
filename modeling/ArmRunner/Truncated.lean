import ArmRunner.HeaderCodec
import ArmRunner.LoadContent

namespace ArmRunner

open CRun

/-- What is stored for the first symbol table, the whole entries or what the file still has of
them, stays in the block that was allocated. -/
def SymtabContained (file : List UInt8) (tab : List Elf32Shdr) : Prop :=
  ∀ s ∈ tab.find? Elf32Shdr.isSymtab,
    min (16 * (s.shSize.toNat / 16)) (file.length - s.shOffset.toNat) ≤ (s.shSize * 16).toNat

/-- The file ends inside the first symbol table. -/
def SymtabTruncated (file : List UInt8) (tab : List Elf32Shdr) : Prop :=
  ∃ s ∈ tab.find? Elf32Shdr.isSymtab, file.length - s.shOffset.toNat < 16 * (s.shSize.toNat / 16)

/-- The file ends inside the relocation section. -/
def Elf32Shdr.truncated (file : List UInt8) (s : Elf32Shdr) : Prop :=
  file.length - s.shOffset.toNat < 8 * (s.shSize.toNat / 8)

/-- There are entries of `TabNb` for the relocation tables that are read. -/
def RelocsContained (file : List UInt8) (tab : List Elf32Shdr) : Prop :=
  (tab.filter Elf32Shdr.isRel).length ≤ 256 ∨
    ∃ s ∈ (tab.filter Elf32Shdr.isRel).take 256, s.truncated file

/-- The section header table is in the file, and the tables that it describes are read into the
memory that was allocated for them or not to their ends. -/
structure CleanTables (file : List UInt8) (header : Elf32Ehdr) : Prop where
  entries : 40 ≤ header.eShentsize.toNat
  table : header.eShoff.toNat + 40 * header.eShnum.toNat ≤ file.length
  symtab : SymtabContained file (tableOf file header)
  relocs : SymtabTruncated file (tableOf file header) ∨ RelocsContained file (tableOf file header)

/-- The files with which the load sequence does not touch memory that it does not own. -/
def CleanLoad (file : List UInt8) : Prop :=
  ∀ header, acceptedHeader file = some header → header.eShnum = 0 ∨
    2 ^ 31 ≤ header.eShentsize.toNat * header.eShnum.toNat ∨ CleanTables file header

section content

variable {header : Elf32Ehdr} {sectHeader : List Elf32Shdr}

theorem readBytes_not_fault (f : CFile) (n : Nat) : readBytes f n ≠ .error .fault := by
  unfold readBytes
  split <;> simp

theorem loadOneContent_not_fault (full : sectHeader.length = header.eShnum.toNat) {i : Nat}
    (hi : i < header.eShnum.toNat) (f : CFile) :
    loadOneContent header sectHeader i f ≠ .error .fault := by
  have hs : sectHeader[i]? = some sectHeader[i] := List.getElem?_eq_getElem (by omega)
  intro fault
  rw [loadOneContent, fetch_eq_ok.mpr hs, ok_bind] at fault
  by_cases empty : sectHeader[i].shSize = 0
  · rw [if_pos empty] at fault
    cases fault
  rw [if_neg empty] at fault
  dsimp only at fault
  by_cases inner : i + 1 < header.eShnum.toNat
  · have next : sectHeader[i + 1]? = some sectHeader[i + 1] := List.getElem?_eq_getElem (by omega)
    obtain ⟨val, sv, scan, hv, _⟩ := nextSection_eq hs next
    rw [if_pos inner, ← full, scan, ok_bind, fetch_eq_ok.mpr hv, ok_bind] at fault
    generalize (if sectHeader[i].shType = shtRel then sectHeader[i].shSize
      else sv.shOffset - sectHeader[i].shOffset) = extent at fault
    split at fault
    · cases fault
    · rcases bind_eq_error.mp fault with read | ⟨_, _, done⟩
      · exact readBytes_not_fault _ _ read
      · cases done
  · rw [if_neg inner] at fault
    rcases bind_eq_error.mp fault with read | ⟨_, _, done⟩
    · exact readBytes_not_fault _ _ read
    · cases done

/-- With a full table the contents are read, or the program ends. -/
theorem loadSectionContent_not_fault (full : sectHeader.length = header.eShnum.toNat)
    (f : CFile) : loadSectionContent f header sectHeader ≠ .error .fault := by
  apply collect_not_error
  intro k g _ hk
  exact loadOneContent_not_fault full (by omega) g

end content

section relocs

variable {file : List UInt8} {sectHeader : List Elf32Shdr}

/-- One turn of the loop of `readRelocTable`, for the section it is at. -/
def relocStep (s : Elf32Shdr) (r : RelocLoad) : Run RelocLoad :=
  if s.shType = shtRel then
    if 256 ≤ r.tables.length then .error .fault else do
    let (entries, f) ←
      collect (fun _ => readRel) 0 (s.shSize.toNat / 8) (r.file.fseek s.shOffset.toNat)
    .ok { tables := r.tables ++ [entries]
          tabSecRel := ⟨r.tabSecRel.tabNb ++ [s.shSize.toNat / 8], r.tabSecRel.nbSections + 1⟩
          file := f }
  else .ok r

theorem relocStep_eq {s : Elf32Shdr} {r : RelocLoad} (hr : r.file.bytes = file)
    (room : r.tables.length < 256) (isRel : s.isRel = true) :
    s.truncated file ∧ relocStep s r = .error .exit ∨
      ¬s.truncated file ∧ ∃ next, relocStep s r = .ok next ∧ next.file.bytes = file ∧
        next.tables.length = r.tables.length + 1 := by
  have type : s.shType = shtRel := by simpa [Elf32Shdr.isRel] using isRel
  have reads := Reads.collect (@readRel_fills 0 0).reads 0 (s.shSize.toNat / 8)
  have left : (r.file.fseek s.shOffset.toNat).left = file.length - s.shOffset.toNat := by
    rw [CFile.fseek_natCast, CFile.left, hr]
  rw [relocStep, if_pos type, if_neg (by omega)]
  by_cases short : s.truncated file
  · refine Or.inl ⟨short, ?_⟩
    rw [Elf32Shdr.truncated, ← left] at short
    rw [reads.short _ short, error_bind]
  · refine Or.inr ⟨short, ?_⟩
    rw [Elf32Shdr.truncated, ← left] at short
    obtain ⟨entries, run⟩ := reads.full _ (Nat.le_of_not_lt short)
    rw [run, ok_bind]
    refine ⟨_, rfl, ?_, by simp⟩
    rw [CFile.skip, CFile.fseek_bytes, hr]

/-- The loop writes behind `TabNb` when it comes to the next table with all entries used. -/
theorem relocSteps_fault_iff {r : RelocLoad} (hr : r.file.bytes = file)
    (used : r.tables.length ≤ 256) (sections : List Elf32Shdr) :
    sections.foldlM (fun r s => relocStep s r) r = .error .fault ↔
      256 - r.tables.length < (sections.filter Elf32Shdr.isRel).length ∧
      ∀ s ∈ (sections.filter Elf32Shdr.isRel).take (256 - r.tables.length), ¬s.truncated file := by
  induction sections generalizing r with
  | nil => simp
  | cons s sections ih =>
    rw [List.foldlM_cons]
    cases isRel : s.isRel with
    | false =>
      have type : ¬s.shType = shtRel := by simpa [Elf32Shdr.isRel] using isRel
      rw [relocStep, if_neg type, ok_bind, List.filter_cons_of_neg (by simp [isRel])]
      exact ih hr used
    | true =>
      rw [List.filter_cons_of_pos isRel, List.length_cons]
      by_cases allUsed : 256 ≤ r.tables.length
      · have type : s.shType = shtRel := by simpa [Elf32Shdr.isRel] using isRel
        rw [relocStep, if_pos type, if_pos allUsed, error_bind,
          show 256 - r.tables.length = 0 by omega]
        simp
      · rw [show 256 - r.tables.length = 256 - (r.tables.length + 1) + 1 by omega,
          List.take_succ_cons]
        rcases relocStep_eq hr (by omega) isRel with ⟨short, ends⟩ | ⟨long, next, run, hn, count⟩
        · rw [ends, error_bind]
          simp [short]
        · rw [run, ok_bind, ih hn (by omega), count]
          simp only [List.forall_mem_cons, long, not_false_eq_true, true_and,
            Nat.add_lt_add_iff_right]

theorem readRelocTable_fault_iff {header : Elf32Ehdr} {p : Nat}
    (full : sectHeader.length = header.eShnum.toNat) :
    readRelocTable ⟨file, p⟩ header sectHeader ⟨[], 0⟩ = .error .fault ↔
      ¬RelocsContained file sectHeader := by
  have loop : readRelocTable ⟨file, p⟩ header sectHeader ⟨[], 0⟩ =
      sectHeader.foldlM (fun r s => relocStep s r) ⟨[], ⟨[], 0⟩, ⟨file, p⟩⟩ := by
    rw [readRelocTable, ← full]
    apply forLoop_entries
    intro k s r hs
    rw [Nat.zero_add, readRelocSection, fetch_eq_ok.mpr hs, ok_bind, relocStep]
  have start : (RelocLoad.mk [] ⟨[], 0⟩ ⟨file, p⟩).file.bytes = file := rfl
  rw [loop, relocSteps_fault_iff start (by simp), RelocsContained]
  simp only [List.length_nil, Nat.sub_zero, not_or, not_le, not_exists, not_and]

end relocs

section tables

variable {file : List UInt8} {header : Elf32Ehdr} {sectHeader : List Elf32Shdr} {p : Nat}

/-- What follows from the three ways to read the symbol table. -/
theorem loadSymTable_cases (full : sectHeader.length = header.eShnum.toNat) :
    loadSymTable ⟨file, p⟩ header sectHeader = .error .fault ∧
        ¬SymtabContained file sectHeader ∨
      loadSymTable ⟨file, p⟩ header sectHeader = .error .exit ∧
        SymtabContained file sectHeader ∧ SymtabTruncated file sectHeader ∨
      (∃ r q, loadSymTable ⟨file, p⟩ header sectHeader = .ok (r, ⟨file, q⟩)) ∧
        SymtabContained file sectHeader ∧ ¬SymtabTruncated file sectHeader := by
  cases found : sectHeader.find? Elf32Shdr.isSymtab with
  | none =>
    refine Or.inr (Or.inr ⟨⟨_, p, loadSymTable_absent full found⟩, ?_, ?_⟩)
    · simp [SymtabContained, found]
    · simp [SymtabTruncated, found]
  | some s =>
    have contained : SymtabContained file sectHeader ↔
        min (16 * (s.shSize.toNat / 16)) (file.length - s.shOffset.toNat) ≤
          (s.shSize * 16).toNat := by
      simp [SymtabContained, found]
    have truncated : SymtabTruncated file sectHeader ↔
        file.length - s.shOffset.toNat < 16 * (s.shSize.toNat / 16) := by
      simp [SymtabTruncated, found]
    have reads := Reads.collect (@readSym_fills 0 0).reads 0 (s.shSize.toNat / 16)
    have left : (⟨file, s.shOffset.toNat⟩ : CFile).left = file.length - s.shOffset.toNat := rfl
    rw [contained, truncated, loadSymTable_present full found,
      readSymTable_present full found, CFile.fseek_natCast, left]
    by_cases beyond : (s.shSize * 16).toNat <
        min (16 * (s.shSize.toNat / 16)) (file.length - s.shOffset.toNat)
    · exact Or.inl ⟨if_pos beyond, by omega⟩
    · rw [if_neg beyond]
      by_cases short : file.length - s.shOffset.toNat < 16 * (s.shSize.toNat / 16)
      · refine Or.inr (Or.inl ⟨?_, by omega, short⟩)
        rw [reads.short _ (by rwa [left]), error_bind]
      · obtain ⟨tab, run⟩ := reads.full ⟨file, s.shOffset.toNat⟩ (by rw [left]; omega)
        refine Or.inr (Or.inr ⟨⟨(tab, (s.shSize.toNat / 16 : Nat)),
          s.shOffset.toNat + 16 * (s.shSize.toNat / 16), ?_⟩, by omega, short⟩)
        rw [run, ok_bind, CFile.skip]

theorem eShnum_pos (some_section : header.eShnum ≠ 0) : 0 < header.eShnum.toNat :=
  UInt16.lt_iff_toNat_lt.mp (UInt16.pos_iff_ne_zero.mpr some_section)

/-- A section header table with entries that is not loaded as a whole leads to a write behind its
block, or to a read of a `NULL` table. -/
theorem loadTabSectionHeader_short (some_section : header.eShnum ≠ 0)
    (small : header.eShentsize.toNat * header.eShnum.toNat < 2 ^ 31)
    (bad : header.eShentsize.toNat < 40 ∨
      file.length < header.eShoff.toNat + 40 * header.eShnum.toNat) :
    loadTabSectionHeader ⟨file, p⟩ header = .error .fault ∨
      ∃ f, loadTabSectionHeader ⟨file, p⟩ header = .ok (none, f) := by
  have positive := eShnum_pos some_section
  have left : (⟨file, header.eShoff.toNat⟩ : CFile).left =
      file.length - header.eShoff.toNat := rfl
  rw [loadTabSectionHeader_eq small, CFile.fseek_natCast, left]
  by_cases beyond : header.eShentsize.toNat * header.eShnum.toNat <
      min (40 * header.eShnum.toNat) (file.length - header.eShoff.toNat)
  · exact Or.inl (if_pos beyond)
  · refine Or.inr ?_
    have short : file.length - header.eShoff.toNat < 40 * header.eShnum.toNat := by
      rcases bad with entries | cut
      · have product : header.eShentsize.toNat * header.eShnum.toNat <
            40 * header.eShnum.toNat := Nat.mul_lt_mul_of_pos_right entries positive
        omega
      · omega
    have reads := Reads.collect (@readShdr_fills 0 0).reads 0 header.eShnum.toNat
    rw [if_neg beyond, readTabSectionHeader, CFile.fseek_natCast, reads.short _ (by rwa [left])]
    exact ⟨_, rfl⟩

theorem loadTabSectionHeader_whole (entries : 40 ≤ header.eShentsize.toNat)
    (small : header.eShentsize.toNat * header.eShnum.toNat < 2 ^ 31)
    (table : header.eShoff.toNat + 40 * header.eShnum.toNat ≤ file.length) :
    loadTabSectionHeader ⟨file, p⟩ header = .ok (some (tableOf file header),
      ⟨file, header.eShoff.toNat + 40 * header.eShnum.toNat⟩) := by
  have product : 40 * header.eShnum.toNat ≤ header.eShentsize.toNat * header.eShnum.toNat :=
    Nat.mul_le_mul_right _ entries
  rw [loadTabSectionHeader_eq small, if_neg (by omega), readTabSectionHeader_table table]

end tables

section load

variable {file : List UInt8} {header : Elf32Ehdr}

/-- The load sequence behind the header. -/
def tablesFrom (header : Elf32Ehdr) (f : CFile) : Run (Elf32Main × CFile) := do
  let (tab, f) ← loadTabSectionHeader f header
  let sectHeader := tab.getD []
  let ((symTable, nbSymboles), f) ← loadSymTable f header sectHeader
  let reloc ← loadRelocTable f header sectHeader ⟨[], 0⟩
  .ok ({ header, sectHeader, symTable, relTable := reloc.tables, sectionContent := [],
         tabSecRel := reloc.tabSecRel, nbSymboles }, reloc.file)

theorem loadTables_eq (file : List UInt8) :
    loadTables file = match acceptedHeader file with
      | some header => tablesFrom header ⟨file, headerWidth file⟩
      | none => .error .exit := by
  rw [loadTables, loadHeader_eq]
  cases acceptedHeader file with
  | none => rfl
  | some header => rfl

theorem symtabIndex_null (some_section : header.eShnum ≠ 0) (f : CFile) :
    loadSymTable f header [] = .error .fault := by
  obtain ⟨n, hn⟩ : ∃ n, header.eShnum.toNat = n + 1 :=
    Nat.exists_eq_succ_of_ne_zero (eShnum_pos some_section).ne'
  rw [loadSymTable, hn]
  rfl

/-- Behind a full section header table. -/
theorem tablesFrom_full_fault_iff {p q : Nat}
    (tab : loadTabSectionHeader ⟨file, p⟩ header =
      .ok (some (tableOf file header), ⟨file, q⟩)) :
    tablesFrom header ⟨file, p⟩ = .error .fault ↔
      ¬(SymtabContained file (tableOf file header) ∧
        (SymtabTruncated file (tableOf file header) ∨
          RelocsContained file (tableOf file header))) := by
  have full := tableOf_length file header
  have relocs (q : Nat) : readRelocTable ⟨file, q⟩ header (tableOf file header) ⟨[], 0⟩ =
      .error .fault ↔ ¬RelocsContained file (tableOf file header) := readRelocTable_fault_iff full
  rw [tablesFrom, tab, ok_bind]
  simp only [Option.getD_some, loadRelocTable_eq]
  rcases @loadSymTable_cases file header (tableOf file header) q full with
    ⟨run, beyond⟩ | ⟨run, contained, truncated⟩ | ⟨⟨⟨syms, nb⟩, q', run⟩, contained, whole⟩
  · rw [run, error_bind]
    simp [beyond]
  · rw [run, error_bind]
    simp [contained, truncated]
  · rw [run, ok_bind, bind_eq_error, relocs]
    simp [contained, whole]

theorem tablesFrom_empty_fault (zero : header.eShnum = 0) (p : Nat) :
    tablesFrom header ⟨file, p⟩ ≠ .error .fault := by
  have none : header.eShnum.toNat = 0 := by
    rw [zero]
    rfl
  have tab : loadTabSectionHeader ⟨file, p⟩ header =
      .ok (some (tableOf file header), ⟨file, header.eShoff.toNat⟩) := by
    rw [loadTabSectionHeader, none, Nat.mul_zero, if_neg (by decide), CFile.fseek_natCast,
      tableOf, none]
    rfl
  have empty : tableOf file header = [] := List.length_eq_zero_iff.mp (by simp [none])
  rw [Ne, tablesFrom_full_fault_iff tab, not_not, empty]
  refine ⟨?_, Or.inr (Or.inl (by simp))⟩
  simp [SymtabContained]

theorem tablesFrom_fault_iff (p : Nat) :
    tablesFrom header ⟨file, p⟩ = .error .fault ↔ ¬(header.eShnum = 0 ∨
      2 ^ 31 ≤ header.eShentsize.toNat * header.eShnum.toNat ∨ CleanTables file header) := by
  by_cases zero : header.eShnum = 0
  · simp [zero, tablesFrom_empty_fault zero]
  by_cases large : 2 ^ 31 ≤ header.eShentsize.toNat * header.eShnum.toNat
  · rw [tablesFrom, loadTabSectionHeader, if_pos large, error_bind]
    exact iff_of_false (by simp) (fun fails => fails (Or.inr (Or.inl large)))
  simp only [zero, large, false_or]
  by_cases whole : 40 ≤ header.eShentsize.toNat ∧
      header.eShoff.toNat + 40 * header.eShnum.toNat ≤ file.length
  · rw [tablesFrom_full_fault_iff
      (loadTabSectionHeader_whole whole.1 (by omega) whole.2), not_iff_not]
    constructor
    · rintro ⟨symtab, relocs⟩
      exact ⟨whole.1, whole.2, symtab, relocs⟩
    · intro clean
      exact ⟨clean.symtab, clean.relocs⟩
  · have dirty : ¬CleanTables file header := fun clean => whole ⟨clean.entries, clean.table⟩
    refine iff_of_true ?_ dirty
    rw [tablesFrom]
    rcases @loadTabSectionHeader_short file header p zero (by omega) (by omega) with
      fault | ⟨f, null⟩
    · rw [fault, error_bind]
    · rw [null, ok_bind]
      simp only [Option.getD_none, symtabIndex_null zero, error_bind]

/-- Whatever is loaded, the section header table is loaded as a whole. -/
theorem tablesFrom_full {f g : CFile} {elf : Elf32Main} (run : tablesFrom header f = .ok (elf, g)) :
    elf.sectHeader.length = elf.header.eShnum.toNat := by
  obtain ⟨⟨tab, f1⟩, htab, run⟩ := bind_eq_ok.mp run
  obtain ⟨⟨⟨syms, nb⟩, f2⟩, hsym, run⟩ := bind_eq_ok.mp run
  obtain ⟨reloc, _, run⟩ := bind_eq_ok.mp run
  cases run
  rw [loadTabSectionHeader] at htab
  dsimp only at htab
  split at htab
  · cases htab
  · split at htab
    next xs _ read =>
      cases htab
      exact collect_length read
    next =>
      cases htab
      by_cases zero : header.eShnum = 0
      · simp [zero]
      · rw [Option.getD_none, symtabIndex_null zero] at hsym
        cases hsym
    next => cases htab

theorem loadTables_full {f : CFile} {elf : Elf32Main} (run : loadTables file = .ok (elf, f)) :
    elf.sectHeader.length = elf.header.eShnum.toNat := by
  rw [loadTables_eq] at run
  split at run
  · exact tablesFrom_full run
  · cases run

theorem loadTables_fault_iff : loadTables file = .error .fault ↔ ¬CleanLoad file := by
  rw [loadTables_eq, CleanLoad]
  cases acceptedHeader file with
  | none => simp
  | some header => simp [tablesFrom_fault_iff]

/-- The contents add no fault. -/
theorem loadAlloc_fault_iff : load file = .error .fault ↔ ¬CleanLoad file := by
  rw [load, bind_eq_error, ← loadTables_fault_iff]
  constructor
  · rintro (fault | ⟨⟨elf, f⟩, run, fault⟩)
    · exact fault
    · rcases bind_eq_error.mp fault with content | ⟨_, _, done⟩
      · exact absurd content (loadSectionContent_not_fault (loadTables_full run) f)
      · cases done
  · exact Or.inl

end load

/-- The load sequence ends the program or completes with all the section headers exactly for the
files that no loader leaves its memory for. -/
theorem loadAlloc_clean_iff (file : List UInt8) :
    (load file = .error .exit ∨ ∃ elf f, load file = .ok (elf, f) ∧
      elf.sectHeader.length = elf.header.eShnum.toNat) ↔ CleanLoad file := by
  have fault := @loadAlloc_fault_iff file
  cases run : load file with
  | error stop =>
    rw [run] at fault
    cases stop with
    | exit => simp at fault; simp [fault]
    | fault => simp at fault; simp [fault]
  | ok r =>
    rw [run] at fault
    have clean : CleanLoad file := by simpa using fault
    refine iff_of_true (Or.inr ⟨r.1, r.2, rfl, ?_⟩) clean
    obtain ⟨⟨elf, f⟩, tables, rest⟩ := bind_eq_ok.mp run
    obtain ⟨⟨content, g⟩, _, done⟩ := bind_eq_ok.mp rest
    cases done
    have full := loadTables_full tables
    exact full

/-- An ELF header that is followed by nothing, where it announces a section header. -/
def headerOnly : List UInt8 := headerBytes (objectHeader 52 1 0)

/-- The table is not read, and the search for the symbol table reads it at `NULL`. -/
theorem loadAlloc_null :
    ¬(load headerOnly = .error .exit ∨ ∃ elf f, load headerOnly = .ok (elf, f) ∧
      elf.sectHeader.length = elf.header.eShnum.toNat) := by
  have fault : load headerOnly = .error .fault := by decide
  rw [fault]
  simp

end ArmRunner
