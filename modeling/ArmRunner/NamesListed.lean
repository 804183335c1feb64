import ArmRunner.SymbolNames

namespace ArmRunner

open CRun

namespace Decoded

variable {file : List UInt8} {elf : Elf32Main}

theorem shape (h : Decoded file elf) : RelocShape elf := by
  refine ⟨?_, ?_⟩
  · rw [h.nbSections, h.relTable, List.length_map]
  · rw [h.tabNb, h.relTable, List.map_map]
    apply List.map_congr_left
    intro s _
    simp [relocsAt]

theorem count (h : Decoded file elf) : elf.nbSymboles.toNat = elf.symTable.length := by
  cases found : (sectionsOf file).find? Elf32Shdr.isSymtab with
  | none =>
    obtain ⟨table, nb⟩ := h.noSymTable found
    rw [table, nb]
    rfl
  | some s =>
    obtain ⟨table, nb⟩ := h.symTable s found
    rw [table, nb, symbolsAt, List.length_map, List.length_range, Int.toNat_natCast]

end Decoded

/-- The string table of the symbols is the section before that of the section names, and the
symbols of value 0 that entries use are those of sections, with names that a line has room for. -/
structure NamesAdjacent (file : List UInt8) (elf : Elf32Main) : Prop where
  symbols : ∀ sym ∈ elf.symTable, elf.header.eShstrndx ≠ 0 ∧ ∃ strtab,
    elf.sectHeader[elf.header.eShstrndx.toNat - 1]? = some strtab ∧
    linkedStrings file = some strtab ∧ strtab.shOffset.toNat + sym.stName.toNat < 2 ^ 31
  relocs : ∀ rel ∈ elf.relTable.flatten, ∃ sym q, elf.symTable[rel.sym]? = some sym ∧
    (sym.stValue = 0 ↔ sym.type = sttSection) ∧ ownRelocPlace file elf rel = some q ∧
    q < 2 ^ 31 ∧ (fullName file q).length ≤ 17

/-- All offsets at which names are looked for are numbers that `fseek` takes. -/
structure PlacesSeekable (elf : Elf32Main) : Prop where
  symbols : ∀ sym ∈ elf.symTable, ∀ o, symbolPlace elf sym = some o → o.toNat < 2 ^ 31
  relocs : ∀ rel ∈ elf.relTable.flatten, ∀ o, relocPlace elf rel = some o → o.toNat < 2 ^ 31

/-- The strings of the file where the program looks for names are like those where they are. -/
structure StringsAlike (file : List UInt8) (elf : Elf32Main) : Prop where
  symbols : ∀ sym ∈ elf.symTable, ∃ o q, symbolPlace elf sym = some o ∧
    ownPlace file sym = some q ∧ shortName file o.toNat = shortName file q
  relocs : ∀ rel ∈ elf.relTable.flatten, ∃ o q, relocPlace elf rel = some o ∧
    ownRelocPlace file elf rel = some q ∧ shortName file o.toNat = fullName file q

/-- A place that is the sum of two words without a carry into the sign of an `int`. -/
theorem nameFound_of_sum (before : List UInt32) {a b : UInt32} {offset : Option UInt32}
    (looked : offset = some (a + b)) (small : a.toNat + b.toNat < 2 ^ 31) {f : CFile} :
    NameFound f before offset (shortName f.bytes (a.toNat + b.toNat)) := by
  have sum : (a + b).toNat = a.toNat + b.toNat := by
    rw [UInt32.toNat_add]
    omega
  refine ⟨a + b, looked, ?_⟩
  rw [readPlace_of_lt before (by omega), sum]

theorem shortName_of_length {file : List UInt8} {p : Nat} (short : (fullName file p).length ≤ 17) :
    shortName file p = fullName file p := List.take_of_length_le short

section listed

variable {f : CFile} {elf : Elf32Main}

theorem NamesAdjacent.own (h : NamesAdjacent f.bytes elf) {sym : Elf32Sym}
    (hsym : sym ∈ elf.symTable) (before : List UInt32) : ∃ q, ownPlace f.bytes sym = some q ∧
      NameFound f before (symbolPlace elf sym) (shortName f.bytes q) := by
  obtain ⟨some_index, strtab, adjacent, linked, small⟩ := h.symbols sym hsym
  refine ⟨strtab.shOffset.toNat + sym.stName.toNat, ?_, nameFound_of_sum before ?_ small⟩
  · rw [ownPlace, linked]
    rfl
  · rw [symbolPlace, if_neg some_index, adjacent]
    rfl

theorem NamesAdjacent.ownReloc (h : NamesAdjacent f.bytes elf) (decoded : Decoded f.bytes elf)
    {rel : Elf32Rel} (hrel : rel ∈ elf.relTable.flatten) (before : List UInt32) :
    ∃ q, ownRelocPlace f.bytes elf rel = some q ∧
      NameFound f before (relocPlace elf rel) (fullName f.bytes q) := by
  obtain ⟨sym, q, hsym, typed, hq, below, short⟩ := h.relocs rel hrel
  refine ⟨q, hq, ?_⟩
  rw [ownRelocPlace, hsym, Option.bind_eq_bind, Option.bind_some] at hq
  rw [relocPlace, hsym, Option.bind_eq_bind, Option.bind_some, ← shortName_of_length short]
  by_cases zero : sym.stValue = 0
  · rw [if_pos (typed.mp zero)] at hq
    rw [if_pos zero]
    obtain ⟨strings, hstrings, hq⟩ := Option.bind_eq_some_iff.mp hq
    obtain ⟨s, hs, hq⟩ := Option.bind_eq_some_iff.mp hq
    cases hq
    apply nameFound_of_sum before ?_ below
    rw [sectionPlace, decoded.header, decoded.sectHeader, hstrings, Option.bind_eq_bind,
      Option.bind_some, hs]
    rfl
  · rw [if_neg fun type => zero (typed.mpr type)] at hq
    rw [if_neg zero]
    obtain ⟨q', hq', found⟩ := h.own (List.mem_of_getElem? hsym) before
    cases Option.some.inj (hq'.symm.trans hq)
    exact found

theorem nameFound_iff (before : List UInt32) {offset : Option UInt32} {name : List UInt8}
    (seekable : ∀ o, offset = some o → o.toNat < 2 ^ 31) :
    NameFound f before offset name ↔ ∃ o, offset = some o ∧ shortName f.bytes o.toNat = name := by
  refine exists_congr fun o => and_congr_right fun ho => ?_
  rw [readPlace_of_lt before (seekable o ho)]

theorem forall_entries {P : Elf32Rel → Prop} :
    (∀ (i j : Nat) (table : List Elf32Rel) (rel : Elf32Rel), elf.relTable[i]? = some table →
      table[j]? = some rel → P rel) ↔ ∀ rel ∈ elf.relTable.flatten, P rel := by
  constructor
  · intro all rel hrel
    obtain ⟨table, ht, hrel⟩ := List.mem_flatten.mp hrel
    obtain ⟨i, hi⟩ := List.mem_iff_getElem?.mp ht
    obtain ⟨j, hj⟩ := List.mem_iff_getElem?.mp hrel
    exact all i j table rel hi hj
  · intro all i j table rel hi hj
    exact all rel (List.mem_flatten.mpr ⟨table, List.mem_of_getElem? hi, List.mem_of_getElem? hj⟩)

/-- With offsets that `fseek` takes a line does not depend on the lines before it. -/
theorem PlacesSeekable.listed_iff (seekable : PlacesSeekable elf) (h : Decoded f.bytes elf) :
    NamesListed f elf ↔ StringsAlike f.bytes elf := by
  have symbols (j : Nat) (sym : Elf32Sym) (hj : elf.symTable[j]? = some sym) :
      SymbolFound f elf j sym ↔ ∃ o q, symbolPlace elf sym = some o ∧
        ownPlace f.bytes sym = some q ∧ shortName f.bytes o.toNat = shortName f.bytes q := by
    simp only [SymbolFound, nameFound_iff _ (seekable.symbols sym (List.mem_of_getElem? hj))]
    grind
  have relocs (i j : Nat) (table : List Elf32Rel) (rel : Elf32Rel)
      (hrel : rel ∈ elf.relTable.flatten) : RelocFound f elf i j table rel ↔
      ∃ o q, relocPlace elf rel = some o ∧ ownRelocPlace f.bytes elf rel = some q ∧
        shortName f.bytes o.toNat = fullName f.bytes q := by
    simp only [RelocFound, nameFound_iff _ (seekable.relocs rel hrel)]
    grind
  constructor
  · rintro ⟨symbolsListed, relocsListed⟩
    refine ⟨?_, forall_entries.mp ?_⟩
    · intro sym hsym
      obtain ⟨j, hj⟩ := List.mem_iff_getElem?.mp hsym
      exact (symbols j sym hj).mp ((symbols_listed_iff h.count).mp symbolsListed j sym hj)
    · intro i j table rel ht hj
      have member : rel ∈ elf.relTable.flatten :=
        List.mem_flatten.mpr ⟨table, List.mem_of_getElem? ht, List.mem_of_getElem? hj⟩
      exact (relocs i j table rel member).mp
        ((relocs_listed_iff h.shape).mp relocsListed i j table rel ht hj)
  · intro alike
    refine ⟨(symbols_listed_iff h.count).mpr ?_, (relocs_listed_iff h.shape).mpr ?_⟩
    · intro j sym hj
      exact (symbols j sym hj).mpr (alike.symbols sym (List.mem_of_getElem? hj))
    · intro i j table rel ht hj
      have member : rel ∈ elf.relTable.flatten :=
        List.mem_flatten.mpr ⟨table, List.mem_of_getElem? ht, List.mem_of_getElem? hj⟩
      exact (relocs i j table rel member).mpr (alike.relocs rel member)

end listed

/-- Every line of the two listings shows the name that belongs to it where the string tables stand
side by side and the values of the symbols tell the sections from the others. It may show it by
chance elsewhere, when the strings at both places are alike. -/
theorem names_listed {f : CFile} {elf : Elf32Main} (h : Decoded f.bytes elf) :
    (NamesAdjacent f.bytes elf → NamesListed f elf) ∧
      (PlacesSeekable elf → (NamesListed f elf ↔ StringsAlike f.bytes elf)) := by
  refine ⟨?_, fun seekable => seekable.listed_iff h⟩
  intro adjacent
  refine ⟨(symbols_listed_iff h.count).mpr ?_, (relocs_listed_iff h.shape).mpr ?_⟩
  · intro j sym hj
    exact adjacent.own (List.mem_of_getElem? hj) _
  · intro i j table rel ht hj
    exact adjacent.ownReloc h (List.mem_flatten.mpr
      ⟨table, List.mem_of_getElem? ht, List.mem_of_getElem? hj⟩) _

def shtStrtab : UInt32 := 3

/-- A string table that ends in a zero byte. -/
def IsStrtab (file : List UInt8) (s : Elf32Shdr) : Prop :=
  s.shType = shtStrtab ∧ 0 < s.shSize.toNat ∧ byteAt file (s.stop - 1) = 0

instance (file : List UInt8) (s : Elf32Shdr) : Decidable (IsStrtab file s) :=
  inferInstanceAs (Decidable (_ ∧ _ ∧ _))

/-- The names are in string tables, and the indices of symbols and entries are valid. -/
structure WellNamed (file : List UInt8) (elf : Elf32Main) : Prop where
  strtab : ∃ s, linkedStrings file = some s ∧ IsStrtab file s ∧
    ∀ sym ∈ elf.symTable, sym.stName < s.shSize
  shstrtab : ∃ s, (sectionsOf file)[(headerOf file).eShstrndx.toNat]? = some s ∧
    IsStrtab file s ∧ ∀ t ∈ sectionsOf file, t.shName < s.shSize
  sections : ∀ sym ∈ elf.symTable, sym.stShndx < elf.header.eShnum ∨ 0xff00 ≤ sym.stShndx
  entries : ∀ rel ∈ elf.relTable.flatten, rel.sym < elf.symTable.length

/-- A symbol without a section and of value 0, with its name at 1. -/
def undefinedSymbol : Elf32Sym := ⟨1, 0, 0, 0x10, 0, 0⟩

def namedSymbols : List Elf32Sym := [⟨0, 0, 0, 0, 0, 0⟩, undefinedSymbol]

/-- Text, and an entry for the symbol of index 1. -/
def entryBytes : List UInt8 := [0, 0, 0, 0] ++ wordBytes 0 ++ wordBytes 0x102

def symtabBytes : List UInt8 := namedSymbols.flatMap symBytes

def strtabBytes : List UInt8 := [0, 0x61, 0, 0]

def namedElf (sectHeader : List Elf32Shdr) (tables : List SectionContent) : Elf32Main where
  header := objectHeader 104 6 5
  sectHeader := sectHeader
  symTable := namedSymbols
  relTable := [[⟨0, 0x102⟩]]
  sectionContent := [⟨0, []⟩, ⟨4, [0, 0, 0, 0]⟩, ⟨8, wordBytes 0 ++ wordBytes 0x102⟩] ++ tables ++
    [⟨4, [0, 0, 0, 0]⟩]
  tabSecRel := ⟨[1], 1⟩
  nbSymboles := 2

def definedSymbols : List Elf32Sym := [⟨0, 0, 0, 0, 0, 0⟩, ⟨1, 1, 0, 0x10, 0, 1⟩]

def adjacentNames : List Elf32Shdr :=
  [objectShdr 0 0 0 0 0 0, objectShdr 0 1 52 4 0 0, objectShdr 0 shtRel 56 8 3 1,
    objectShdr 0 shtSymtab 64 32 4 1, objectShdr 0 shtStrtab 96 4 0 0,
    objectShdr 0 shtStrtab 100 4 0 0]

/-- An object file whose entry is for an undefined symbol, with the string tables in the places
where the program expects them. -/
def undefinedFile : List UInt8 :=
  assemble (objectHeader 104 6 5) (entryBytes ++ symtabBytes ++ strtabBytes ++ [0, 0, 0, 0])
    adjacentNames

def undefinedElf : Elf32Main := namedElf adjacentNames [⟨32, symtabBytes⟩, ⟨4, strtabBytes⟩]

def separateNames : List Elf32Shdr :=
  [objectShdr 0 0 0 0 0 0, objectShdr 0 1 52 4 0 0, objectShdr 0 shtRel 56 8 4 1,
    objectShdr 0 shtStrtab 64 4 0 0, objectShdr 0 shtSymtab 68 32 3 1,
    objectShdr 0 shtStrtab 100 4 0 0]

/-- The same object file with the string table of the symbols before the symbol table. -/
def separateFile : List UInt8 :=
  assemble (objectHeader 104 6 5) (entryBytes ++ strtabBytes ++ symtabBytes ++ [0, 0, 0, 0])
    separateNames

def separateElf : Elf32Main := namedElf separateNames [⟨4, strtabBytes⟩, ⟨32, symtabBytes⟩]

/-- Six sections behind 52 bytes of contents. -/
theorem read_six {body : List UInt8} {sections : List Elf32Shdr} (contents : body.length = 52)
    (six : sections.length = 6) :
    headerOf (assemble (objectHeader 104 6 5) body sections) = objectHeader 104 6 5 ∧
      sectionsOf (assemble (objectHeader 104 6 5) body sections) = sections ∧
      (assemble (objectHeader 104 6 5) body sections).length = 344 := by
  refine ⟨headerOf_assemble rfl, sectionsOf_assemble rfl ?_ ?_, ?_⟩
  · rw [contents]
    rfl
  · rw [six]
    rfl
  · rw [assemble_length rfl, contents, six]

theorem undefinedFile_read : headerOf undefinedFile = objectHeader 104 6 5 ∧
    sectionsOf undefinedFile = adjacentNames ∧ undefinedFile.length = 344 :=
  read_six rfl rfl

theorem linkedStrings_undefinedFile :
    linkedStrings undefinedFile = some (objectShdr 0 shtStrtab 96 4 0 0) := by
  rw [linkedStrings, undefinedFile_read.2.1]
  rfl

theorem undefinedFile_wellFormed : WellFormed undefinedFile := by
  obtain ⟨header, sections, length⟩ := undefinedFile_read
  rw [wellFormed_iff, header, sections, length]
  decide

theorem load_undefinedFile : load undefinedFile = .ok (undefinedElf, ⟨undefinedFile, 104⟩) := by
  decide +kernel

theorem undefinedElf_decoded : Decoded undefinedFile undefinedElf := by
  refine TablesInside.load_decoded ?_ load_undefinedFile
  obtain ⟨header, sections, length⟩ := undefinedFile_read
  rw [tablesInside_iff, header, sections, length]
  decide

theorem undefinedElf_wellNamed : WellNamed undefinedFile undefinedElf where
  strtab :=
    ⟨objectShdr 0 shtStrtab 96 4 0 0, linkedStrings_undefinedFile, by decide, by decide⟩
  shstrtab := by
    obtain ⟨header, sections, -⟩ := undefinedFile_read
    rw [header, sections]
    exact ⟨objectShdr 0 shtStrtab 100 4 0 0, rfl, by decide, by decide⟩
  sections := by decide
  entries := by decide

theorem separateFile_read : headerOf separateFile = objectHeader 104 6 5 ∧
    sectionsOf separateFile = separateNames ∧ separateFile.length = 344 :=
  read_six rfl rfl

theorem linkedStrings_separateFile :
    linkedStrings separateFile = some (objectShdr 0 shtStrtab 64 4 0 0) := by
  rw [linkedStrings, separateFile_read.2.1]
  rfl

theorem separateFile_wellFormed : WellFormed separateFile := by
  obtain ⟨header, sections, length⟩ := separateFile_read
  rw [wellFormed_iff, header, sections, length]
  decide

theorem load_separateFile : load separateFile = .ok (separateElf, ⟨separateFile, 104⟩) := by
  decide +kernel

theorem separateElf_decoded : Decoded separateFile separateElf := by
  refine TablesInside.load_decoded ?_ load_separateFile
  obtain ⟨header, sections, length⟩ := separateFile_read
  rw [tablesInside_iff, header, sections, length]
  decide

theorem separateElf_wellNamed : WellNamed separateFile separateElf where
  strtab :=
    ⟨objectShdr 0 shtStrtab 64 4 0 0, linkedStrings_separateFile, by decide, by decide⟩
  shstrtab := by
    obtain ⟨header, sections, -⟩ := separateFile_read
    rw [header, sections]
    exact ⟨objectShdr 0 shtStrtab 100 4 0 0, rfl, by decide, by decide⟩
  sections := by decide
  entries := by decide

/-- The object file with the string tables in the places where the program expects them and with
an entry for a symbol of value 1 in section 1. -/
def definedFile : List UInt8 :=
  assemble (objectHeader 104 6 5)
    (entryBytes ++ definedSymbols.flatMap symBytes ++ strtabBytes ++ [0, 0, 0, 0]) adjacentNames

def definedElf : Elf32Main :=
  { namedElf adjacentNames [⟨32, definedSymbols.flatMap symBytes⟩, ⟨4, strtabBytes⟩] with
    symTable := definedSymbols }

theorem definedFile_read : headerOf definedFile = objectHeader 104 6 5 ∧
    sectionsOf definedFile = adjacentNames ∧ definedFile.length = 344 :=
  read_six rfl rfl

theorem linkedStrings_definedFile :
    linkedStrings definedFile = some (objectShdr 0 shtStrtab 96 4 0 0) := by
  rw [linkedStrings, definedFile_read.2.1]
  rfl

theorem load_definedFile : load definedFile = .ok (definedElf, ⟨definedFile, 104⟩) := by
  decide +kernel

theorem definedElf_decoded : Decoded definedFile definedElf := by
  refine TablesInside.load_decoded ?_ load_definedFile
  obtain ⟨header, sections, length⟩ := definedFile_read
  rw [tablesInside_iff, header, sections, length]
  decide

theorem definedElf_namesAdjacent : NamesAdjacent definedFile definedElf := by
  refine ⟨?_, ?_⟩
  · intro sym hsym
    refine ⟨by decide, objectShdr 0 shtStrtab 96 4 0 0, rfl, linkedStrings_definedFile, ?_⟩
    revert sym
    decide
  · intro rel hrel
    cases List.mem_singleton.mp hrel
    refine ⟨⟨1, 1, 0, 0x10, 0, 1⟩, 97, rfl, by decide, ?_, by decide, by decide⟩
    show ownPlace definedFile ⟨1, 1, 0, 0x10, 0, 1⟩ = some 97
    unfold ownPlace
    rw [linkedStrings_definedFile]
    rfl

theorem names_listed_definedFile : NamesListed ⟨definedFile, 104⟩ definedElf :=
  (names_listed definedElf_decoded).1 definedElf_namesAdjacent

/-- A well-formed file for which a line of a listing does not show the name that belongs to it. -/
def Misnamed (file : List UInt8) : Prop :=
  ∃ elf f, WellFormed file ∧ load file = .ok (elf, f) ∧ Decoded f.bytes elf ∧ WellNamed file elf ∧
    ¬NamesListed f elf

/-- An entry for an undefined symbol shows the name of section 0, and with the string table of
the symbols in another place the symbol shows a string from the symbol table. -/
theorem names_misread : Misnamed undefinedFile ∧ Misnamed separateFile := by
  refine ⟨?_, ?_⟩
  · refine ⟨undefinedElf, _, undefinedFile_wellFormed, load_undefinedFile, undefinedElf_decoded,
      undefinedElf_wellNamed, ?_⟩
    intro listed
    have agrees := (relocs_listed_iff undefinedElf_decoded.shape).mp listed.relocs 0 0 _ _ rfl rfl
    obtain ⟨q, hq, o, ho, same⟩ := agrees
    have place : relocPlace undefinedElf ⟨0, 0x102⟩ = some 100 := by decide
    have own : ownPlace undefinedFile undefinedSymbol = some 97 := by
      unfold ownPlace
      rw [linkedStrings_undefinedFile]
      rfl
    cases place.symm.trans ho
    cases own.symm.trans hq
    revert same
    decide
  · refine ⟨separateElf, _, separateFile_wellFormed, load_separateFile, separateElf_decoded,
      separateElf_wellNamed, ?_⟩
    intro listed
    have agrees := (symbols_listed_iff separateElf_decoded.count).mp listed.symbols 1 _ rfl
    obtain ⟨q, hq, o, ho, same⟩ := agrees
    have place : symbolPlace separateElf undefinedSymbol = some 69 := by decide
    have own : ownPlace separateFile undefinedSymbol = some 65 := by
      unfold ownPlace
      rw [linkedStrings_separateFile]
      rfl
    cases place.symm.trans ho
    cases own.symm.trans hq
    revert same
    decide

end ArmRunner
