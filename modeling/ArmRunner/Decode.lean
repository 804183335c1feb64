import ArmRunner.LoadTables
import ArmRunner.Encode

namespace ArmRunner

open CRun

/-- A big-endian ELF32 file whose tables lie in it. -/
@[mk_iff]
structure TablesInside (file : List UInt8) : Prop where
  header : 52 ≤ file.length
  magic : magicElf (headerOf file).eIdent
  class32 : (headerOf file).eIdent.eiClass = 1
  shentsize : (headerOf file).eShentsize = 40
  table : (headerOf file).eShoff.toNat + 40 * (headerOf file).eShnum.toNat ≤ file.length
  symtab : ∀ s ∈ (sectionsOf file).find? Elf32Shdr.isSymtab,
    s.shOffset.toNat + s.shSize.toNat ≤ file.length
  rels : ∀ s ∈ sectionsOf file, s.isRel = true → s.shOffset.toNat + s.shSize.toNat ≤ file.length
  few : ((sectionsOf file).filter Elf32Shdr.isRel).length ≤ 256

instance (file : List UInt8) : Decidable (TablesInside file) :=
  decidable_of_iff _ (tablesInside_iff file).symm

/-- The tables in memory are those that the format gives the file. -/
structure Decoded (file : List UInt8) (elf : Elf32Main) : Prop where
  header : elf.header = headerOf file
  sectHeader : elf.sectHeader = sectionsOf file
  symTable : ∀ s, (sectionsOf file).find? Elf32Shdr.isSymtab = some s →
    elf.symTable = symbolsAt file s ∧ elf.nbSymboles = (s.shSize.toNat / 16 : Nat)
  noSymTable : (sectionsOf file).find? Elf32Shdr.isSymtab = none →
    elf.symTable = [] ∧ elf.nbSymboles = -1
  relTable : elf.relTable = ((sectionsOf file).filter Elf32Shdr.isRel).map (relocsAt file)
  tabNb : elf.tabSecRel.tabNb =
    ((sectionsOf file).filter Elf32Shdr.isRel).map fun s => s.shSize.toNat / 8
  nbSections : elf.tabSecRel.nbSections = ((sectionsOf file).filter Elf32Shdr.isRel).length

section decode

variable {file : List UInt8}

theorem TablesInside.shentsize_product (h : TablesInside file) :
    (headerOf file).eShentsize.toNat * (headerOf file).eShnum.toNat =
      40 * (headerOf file).eShnum.toNat := by
  rw [h.shentsize]
  rfl

/-- The block of the section header table is as large as the table. -/
theorem TablesInside.tab (h : TablesInside file) :
    loadTabSectionHeader ⟨file, 52⟩ (headerOf file) = .ok (some (sectionsOf file),
      ⟨file, (headerOf file).eShoff.toNat + 40 * (headerOf file).eShnum.toNat⟩) := by
  have product := h.shentsize_product
  have bound := (headerOf file).eShnum.toNat_lt
  rw [loadTabSectionHeader_eq (by omega), if_neg (by omega), readTabSectionHeader_at h.table]

theorem TablesInside.enough (h : TablesInside file) {s : Elf32Shdr}
    (present : (sectionsOf file).find? Elf32Shdr.isSymtab = some s) (p : Nat) :
    16 * (s.shSize.toNat / 16) ≤ ((⟨file, p⟩ : CFile).fseek s.shOffset.toNat).left := by
  have fits := h.symtab s present
  rw [CFile.fseek_natCast, CFile.left]
  dsimp only
  omega

/-- The symbols, read without a look at the room in their block. -/
theorem TablesInside.symTable (h : TablesInside file) (p : Nat) :
    ∃ symTable nb q, readSymTable ⟨file, p⟩ (headerOf file) (sectionsOf file) =
        .ok ((symTable, nb), ⟨file, q⟩) ∧
      (∀ s, (sectionsOf file).find? Elf32Shdr.isSymtab = some s →
        symTable = symbolsAt file s ∧ nb = (s.shSize.toNat / 16 : Nat)) ∧
      ((sectionsOf file).find? Elf32Shdr.isSymtab = none → symTable = [] ∧ nb = -1) := by
  have full := sectionsOf_length file
  cases found : (sectionsOf file).find? Elf32Shdr.isSymtab with
  | none =>
    refine ⟨[], -1, p, readSymTable_absent full found, ?_, fun _ => ⟨rfl, rfl⟩⟩
    intro s present
    cases present
  | some s =>
    refine ⟨_, _, _, readSymTable_found full found (h.symtab s found), ?_, ?_⟩
    · rintro t present
      cases present
      exact ⟨rfl, rfl⟩
    · intro absent
      cases absent

/-- Without the room the loader writes behind the end of its block. -/
theorem TablesInside.sym_fault (h : TablesInside file) {s : Elf32Shdr}
    (present : (sectionsOf file).find? Elf32Shdr.isSymtab = some s)
    (short : (s.shSize * 16).toNat < 16 * (s.shSize.toNat / 16)) (p : Nat) :
    loadSymTable ⟨file, p⟩ (headerOf file) (sectionsOf file) = .error .fault := by
  have enough := h.enough present p
  rw [loadSymTable_present (sectionsOf_length file) present, if_pos (by omega)]

theorem TablesInside.loadTables_fault (h : TablesInside file) {s : Elf32Shdr}
    (present : (sectionsOf file).find? Elf32Shdr.isSymtab = some s)
    (short : (s.shSize * 16).toNat < 16 * (s.shSize.toNat / 16)) :
    loadTables file = .error .fault := by
  have head := loadHeader_at h.header h.magic h.class32
  simp only [loadTables, head, ok_bind, h.tab, Option.getD_some, h.sym_fault present short,
    error_bind]

theorem TablesInside.loadTables_returns (h : TablesInside file) (room : SymtabRoom file) :
    ∃ elf f, loadTables file = .ok (elf, f) ∧ Decoded file elf := by
  have head := loadHeader_at h.header h.magic h.class32
  obtain ⟨symTable, nb, q, hsym, present, absent⟩ :=
    h.symTable ((headerOf file).eShoff.toNat + 40 * (headerOf file).eShnum.toNat)
  obtain ⟨r, hreloc, _, read⟩ := readRelocTable_at (p := q) (sectionsOf_length file)
    (fun s hs isRel _ => h.rels s hs isRel) h.few
  have run : loadTables file =
      .ok (⟨headerOf file, sectionsOf file, symTable, r.tables, [], r.tabSecRel, nb⟩, r.file) := by
    simp only [loadTables, head, ok_bind, h.tab, Option.getD_some, room.sym, hsym,
      loadRelocTable_eq, hreloc]
  exact ⟨_, _, run, rfl, rfl, present, absent, read.tables, read.tabNb, read.nbSections⟩

/-- A load that returns leaves the tables of the file in memory. -/
theorem TablesInside.load_decoded (h : TablesInside file) {elf : Elf32Main} {f : CFile}
    (hload : load file = .ok (elf, f)) : Decoded file elf := by
  obtain ⟨f1, f2, f3, f4, tab, hheader, htab, heads, hsym, hreloc, _⟩ := load_eq_ok hload
  obtain ⟨header, rfl⟩ := Prod.mk.inj (Except.ok.inj
    ((loadHeader_at h.header h.magic h.class32).symm.trans hheader))
  rw [← header] at htab hsym hreloc
  obtain ⟨rfl, rfl⟩ := Prod.mk.inj (Except.ok.inj
    ((readTabSectionHeader_at h.table).symm.trans htab))
  rw [Option.getD_some] at heads
  rw [heads] at hsym hreloc
  obtain ⟨symTable, nb, q, run, present, absent⟩ :=
    h.symTable ((headerOf file).eShoff.toNat + 40 * (headerOf file).eShnum.toNat)
  cases Except.ok.inj (run.symm.trans hsym)
  obtain ⟨r, run, _, read⟩ := readRelocTable_at (p := q) (sectionsOf_length file)
    (fun s hs isRel _ => h.rels s hs isRel) h.few
  cases Except.ok.inj (run.symm.trans hreloc)
  exact ⟨header.symm, heads, present, absent, read.tables, read.tabNb, read.nbSections⟩

end decode

/-- The table loaders decode the ELF32 format exactly when the symbol table has room in its
block. -/
theorem loadTables_iff {file : List UInt8} (inside : TablesInside file) :
    (∃ elf f, loadTables file = .ok (elf, f) ∧ Decoded file elf) ↔ SymtabRoom file := by
  constructor
  · rintro ⟨elf, f, run, _⟩ s present
    by_contra beyond
    rw [inside.loadTables_fault present (by omega)] at run
    cases run
  · exact inside.loadTables_returns

def decodedSections : List Elf32Shdr :=
  [objectShdr 0 0 0 0 0 0, objectShdr 1 shtSymtab 52 16 0 0, objectShdr 2 shtRel 68 8 1 0]

/-- An object file with a symbol and a relocation entry. -/
def decodedFile : List UInt8 :=
  assemble (objectHeader 76 3 0)
    (symBytes ⟨1, 2, 3, 4, 5, 6⟩ ++ wordBytes 0x01020304 ++ wordBytes 0x0000ff02) decodedSections

theorem loadTables_decodedFile :
    TablesInside decodedFile ∧
      ((∃ elf f, loadTables decodedFile = .ok (elf, f) ∧ Decoded decodedFile elf) ↔
        SymtabRoom decodedFile) :=
  ⟨by decide +kernel, loadTables_iff (by decide +kernel)⟩

/-- A file with one symbol table, between header and section header table. -/
def symtabFile (body : List UInt8) : List UInt8 :=
  assemble (objectHeader (UInt32.ofNat (52 + body.length)) 2 0) body
    [objectShdr 0 0 0 0 0 0, objectShdr 0 shtSymtab 52 (UInt32.ofNat body.length) 0 0]

section symtabFile

variable {body : List UInt8}

theorem symtabFile_header : headerOf (symtabFile body) =
    objectHeader (UInt32.ofNat (52 + body.length)) 2 0 := headerOf_assemble (by rfl)

theorem symtabFile_sections (small : 52 + body.length < 2 ^ 32) :
    sectionsOf (symtabFile body) =
      [objectShdr 0 0 0 0 0 0, objectShdr 0 shtSymtab 52 (UInt32.ofNat body.length) 0 0] := by
  apply sectionsOf_assemble
  · rfl
  · simp only [objectHeader, UInt32.toNat_ofNat', Nat.mod_eq_of_lt small]
  · rfl

theorem symtabFile_find (small : 52 + body.length < 2 ^ 32) :
    (sectionsOf (symtabFile body)).find? Elf32Shdr.isSymtab =
      some (objectShdr 0 shtSymtab 52 (UInt32.ofNat body.length) 0 0) := by
  rw [symtabFile_sections small]
  rfl

theorem symtabFile_inside (small : 52 + body.length < 2 ^ 32) : TablesInside (symtabFile body) := by
  have length : (symtabFile body).length = 52 + body.length + 40 * 2 := assemble_length (by rfl)
  have header : headerOf (symtabFile body) = _ := symtabFile_header
  have sections := symtabFile_sections small
  refine ⟨by omega, ?_, ?_, ?_, ?_, ?_, ?_, ?_⟩
  · rw [header]
    exact ⟨rfl, rfl, rfl, rfl⟩
  · rw [header]
    rfl
  · rw [header]
    rfl
  · rw [header, length]
    simp only [objectHeader, UInt32.toNat_ofNat', Nat.mod_eq_of_lt small]
    rfl
  · intro s hs
    rw [symtabFile_find small] at hs
    cases hs
    have size : (UInt32.ofNat body.length).toNat = body.length := by
      rw [UInt32.toNat_ofNat', Nat.mod_eq_of_lt (by omega)]
    rw [length]
    change 52 + (UInt32.ofNat body.length).toNat ≤ _
    omega
  · intro s hs hrel
    rw [sections] at hs
    have none : ∀ s ∈ [objectShdr 0 0 0 0 0 0,
        objectShdr 0 shtSymtab 52 (UInt32.ofNat body.length) 0 0], s.isRel = false := by
      simp [objectShdr, Elf32Shdr.isRel, shtSymtab, shtRel]
    rw [none s hs] at hrel
    cases hrel
  · rw [sections]
    simp [objectShdr, Elf32Shdr.isRel, shtSymtab, shtRel]

end symtabFile

/-- For a symbol table of 256 MiB a block of no bytes is allocated. -/
theorem loadTables_overflow :
    ∃ file, TablesInside file ∧ ¬∃ elf f, loadTables file = .ok (elf, f) ∧ Decoded file elf := by
  have length : (List.replicate (2 ^ 28) (0 : UInt8)).length = 2 ^ 28 := List.length_replicate
  have small : 52 + (List.replicate (2 ^ 28) (0 : UInt8)).length < 2 ^ 32 := by omega
  generalize List.replicate (2 ^ 28) (0 : UInt8) = body at length small
  have inside := symtabFile_inside small
  refine ⟨symtabFile body, inside, ?_⟩
  rintro ⟨elf, f, run, _⟩
  have present := symtabFile_find small
  rw [length] at present
  rw [inside.loadTables_fault present (by decide)] at run
  cases run

end ArmRunner
