import ArmRunner.NameTable
import ArmRunner.Names

namespace ArmRunner

open CRun NewIndex

/-- The values of the symbols after `-d` and then the correction of the symbols. -/
def valuesDeletedFirst (f : CFile) (elf : Elf32Main) (text data : UInt32) : Run (List UInt32) := do
  let elf ← deleteRel elf
  let (elf, _) ← correctSymTable f elf text data
  .ok (elf.symTable.map Elf32Sym.stValue)

/-- The values of the symbols after their correction and then `-d`. -/
def valuesCorrectedFirst (f : CFile) (elf : Elf32Main) (text data : UInt32) :
    Run (List UInt32) := do
  let (elf, _) ← correctSymTable f elf text data
  let elf ← deleteRel elf
  .ok (elf.symTable.map Elf32Sym.stValue)

/-- The offset of a section lowered by the sizes of the relocation sections below it. -/
def offsetAfter (sectHeader : List Elf32Shdr) (y : Elf32Shdr) : UInt32 :=
  y.shOffset - UInt32.ofNat (relBelow sectHeader y.shOffset.toNat)

/-- Where the names of the symbols' sections are, for a table of names at an offset. -/
def nameOffsets (elf : Elf32Main) (strings : UInt32) : List UInt32 :=
  elf.symTable.map fun sym => strings + nameOf elf.sectHeader sym

/-- Two names are the ones that the correction looks for, or neither is. -/
def SameKind (name name' : List UInt8) : Prop :=
  (name = textName ↔ name' = textName) ∧ (name = dataName ↔ name' = dataName)

/-- Names of the same kind are the names for which the same is added, whatever it is. -/
theorem amount_eq_iff {name name' : List UInt8} :
    (∀ text data, amount text data name = amount text data name') ↔ SameKind name name' := by
  have different : textName ≠ dataName := by decide
  constructor
  · intro same
    have probe := same 1 2
    unfold amount at probe
    constructor
    · by_cases first : name = textName <;> by_cases second : name' = textName <;> grind
    · by_cases first : name = dataName <;> by_cases second : name' = dataName <;> grind
  · rintro ⟨isText, isData⟩ text data
    simp only [amount, isText, isData]

/-- The table of names stays, and no relocation section with bytes starts below it. -/
def NamesBelowRel (elf : Elf32Main) : Prop :=
  elf.symTable = [] ∨ ∃ strings,
    elf.sectHeader[elf.header.eShstrndx.toNat]? = some strings ∧ strings.isRel = false ∧
    ∀ r ∈ elf.sectHeader, r.isRel = true → r.shSize ≠ 0 → strings.shOffset ≤ r.shOffset

/-- Where `fseek` accepts both offsets, the name that a symbol's section has in the source file is
of the same kind as the string at the offset after the deletions. -/
def NamesAlike (file : List UInt8) (elf : Elf32Main) : Prop :=
  elf.symTable = [] ∨ ∃ strings y,
    elf.sectHeader[elf.header.eShstrndx.toNat]? = some strings ∧
    heir Elf32Shdr.kept elf.sectHeader elf.header.eShstrndx.toNat = some y ∧
    ∀ sym ∈ elf.symTable,
      (strings.shOffset + nameOf elf.sectHeader sym).toNat < 2 ^ 31 →
      (offsetAfter elf.sectHeader y + nameOf elf.sectHeader sym).toNat < 2 ^ 31 →
      SameKind (fullName file (offsetAfter elf.sectHeader y + nameOf elf.sectHeader sym).toNat)
        (fullName file (strings.shOffset + nameOf elf.sectHeader sym).toNat)

/-- The file can be loaded, and both orders give the same values of the symbols, for all addresses
and wherever the stream stands. -/
def OrdersAgree (file : List UInt8) : Prop :=
  ∃ elf f, load file = .ok (elf, f) ∧ ∀ (pos : Nat) (text data : UInt32), ∃ values,
    valuesDeletedFirst ⟨file, pos⟩ elf text data = .ok values ∧
      valuesCorrectedFirst ⟨file, pos⟩ elf text data = .ok values

theorem zipWith_add_left_inj {xs ys zs : List UInt32} (hy : ys.length = xs.length)
    (hz : zs.length = xs.length) :
    List.zipWith (· + ·) xs ys = List.zipWith (· + ·) xs zs ↔ ys = zs := by
  induction xs generalizing ys zs with
  | nil => simp [List.length_eq_zero_iff.mp hy, List.length_eq_zero_iff.mp hz]
  | cons x xs ih =>
    obtain ⟨y, ys, rfl⟩ := List.exists_cons_of_length_eq_add_one hy
    obtain ⟨z, zs, rfl⟩ := List.exists_cons_of_length_eq_add_one hz
    have rest := ih (Nat.succ.inj hy) (Nat.succ.inj hz)
    simp only [List.zipWith_cons_cons, List.cons.injEq, UInt32.add_right_inj, rest]

theorem addValue_values (syms : List Elf32Sym) (amounts : List UInt32) :
    (List.zipWith addValue syms amounts).map Elf32Sym.stValue =
      List.zipWith (· + ·) (syms.map Elf32Sym.stValue) amounts := by
  rw [List.map_zipWith, List.zipWith_map_left]
  rfl

theorem addValue_length (syms : List Elf32Sym) {amounts : List UInt32}
    (h : amounts.length = syms.length) :
    (List.zipWith addValue syms amounts).length = syms.length := by
  rw [List.length_zipWith, h, Nat.min_self]

theorem removes_values {v w : View} (removes : Removes 0 v w) :
    w.symTable.map Elf32Sym.stValue = v.symTable.map Elf32Sym.stValue := by
  have values (syms : List Elf32Sym) : (syms.map Elf32Sym.stable).map Elf32Sym.stValue =
      syms.map Elf32Sym.stValue := by
    rw [List.map_map]
    rfl
  rw [← values, removes_symTable removes (by simp), values]

section runs

variable {file : List UInt8} {elf : Elf32Main} {f : CFile} {text data : UInt32}

/-- A correction that returns has found the table of names, if there is a symbol. -/
theorem correctSymTable_strings {r : Elf32Main × CFile}
    (h : correctSymTable f elf text data = .ok r) (nonempty : elf.nbSymboles.toNat ≠ 0) :
    ∃ strings, elf.sectHeader[elf.header.eShstrndx.toNat]? = some strings := by
  obtain ⟨n, hn⟩ := Nat.exists_eq_succ_of_ne_zero nonempty
  rw [correctSymTable, hn, forLoop_succ] at h
  obtain ⟨_, turn, _⟩ := bind_eq_ok.mp h
  obtain ⟨strings, hstrings, _⟩ := bind_eq_ok.mp turn
  exact ⟨strings, fetch_eq_ok.mp hstrings⟩

theorem correctSymTable_nil (h : elf.nbSymboles.toNat = 0) :
    correctSymTable f elf text data = .ok (elf, f) := by
  rw [correctSymTable, h, forLoop_zero]

/-- Every symbol designates a section that stays. -/
def DesignatesKept (elf : Elf32Main) : Prop :=
  ∀ sym ∈ elf.symTable, ∃ s, elf.sectHeader[sym.stShndx.toNat]? = some s ∧ s.isRel = false

theorem valuesCorrectedFirst_eq (loaded : Loaded elf) (matched : Matched (viewOf elf))
    (deletable : Deletable elf) (designates : DesignatesKept elf) {strings : Elf32Shdr}
    (hstrings : elf.sectHeader[elf.header.eShstrndx.toNat]? = some strings) :
    valuesCorrectedFirst f elf text data =
      .ok (List.zipWith (· + ·) (elf.symTable.map Elf32Sym.stValue)
        (nameAmounts text data f (nameOffsets elf strings.shOffset))) := by
  have sections : ∀ sym ∈ elf.symTable, sym.stShndx.toNat < elf.sectHeader.length := by
    intro sym hsym
    obtain ⟨s, hs, _⟩ := designates sym hsym
    exact (List.getElem?_eq_some_iff.mp hs).1
  obtain ⟨f', _, corrected⟩ :=
    correctSymTable_eq hstrings loaded.nbSymboles text data f sections
  rw [← nameOffsets] at corrected
  have amounts : (nameAmounts text data f (nameOffsets elf strings.shOffset)).length =
      elf.symTable.length := by
    rw [nameAmounts_length, nameOffsets, List.length_map]
  generalize nameAmounts text data f (nameOffsets elf strings.shOffset) = added
    at corrected amounts ⊢
  have loaded' : Loaded { elf with symTable := List.zipWith addValue elf.symTable added } :=
    ⟨loaded.heads, loaded.contents, by rw [addValue_length _ amounts]; exact loaded.nbSymboles,
      loaded.sized⟩
  have deletable' : Deletable { elf with symTable := List.zipWith addValue elf.symTable added } :=
    ⟨deletable.movable, deletable.filled⟩
  obtain ⟨elf', w, run, removes, represents⟩ := loaded'.deleteRel_run matched deletable'
  rw [valuesCorrectedFirst, corrected, ok_bind]
  dsimp only
  rw [run, ok_bind, represents.symTable, removes_values removes, ← addValue_values]
  rfl

/-- The deletions leave the table of names, or the section in its place, at its lowered offset. -/
theorem deleted_strings (arranged : Arranged file) (fromFile : LoadedFrom file elf)
    (loaded : Loaded elf) {elf' : Elf32Main} {w : View} (removes : Removes 0 (viewOf elf) w)
    (represents : Represents elf' w) {y : Elf32Shdr}
    (inside : elf.header.eShstrndx.toNat < elf.sectHeader.length)
    (hy : heir Elf32Shdr.kept elf.sectHeader elf.header.eShstrndx.toNat = some y) :
    ∃ t, elf'.sectHeader[elf'.header.eShstrndx.toNat]? = some t ∧
      t.shOffset = offsetAfter elf.sectHeader y := by
  have heads := loaded.viewOf_heads
  have table := removes_eShstrndx removes (by simp)
  rw [← represents.header] at table
  rw [← heads, heir_map] at hy
  obtain ⟨s, hs, rfl⟩ := Option.map_eq_some_iff.mp hy
  rw [← heads, List.length_map] at inside
  obtain ⟨t, slot, offset⟩ := removes_heirReached removes (by simp)
    (fromFile.layout arranged loaded) _ s inside hs (fromFile.outside arranged (heir_mem hs))
  refine ⟨t, ?_, ?_⟩
  · rw [table]
    exact represents.slot slot
  · have bound := s.1.shOffset.toNat_lt
    rw [heads, start] at offset
    apply UInt32.toNat_inj.mp
    rw [offsetAfter, UInt32.toNat_sub, UInt32.toNat_ofNat']
    omega

/-- After the deletions a symbol still designates the section of its old name. -/
theorem deleted_symbol (loaded : Loaded elf) (designates : DesignatesKept elf)
    {elf' : Elf32Main} {w : View} (removes : Removes 0 (viewOf elf) w)
    (represents : Represents elf' w) {j : Nat} {sym sym' : Elf32Sym}
    (hj : elf.symTable[j]? = some sym) (hj' : elf'.symTable[j]? = some sym') :
    sym'.stShndx.toNat < elf'.sectHeader.length ∧
      nameOf elf'.sectHeader sym' = nameOf elf.sectHeader sym := by
  obtain ⟨s, hs, hrel⟩ := designates sym (List.mem_of_getElem? hj)
  obtain ⟨c, hc⟩ := loaded.section_of_head hs
  have hkeep : keep (s, c) = true := keep_of_not_rel hrel
  obtain ⟨s', hs', stable⟩ := removes_getElem? removes (by simp) hc hkeep
  rw [represents.symTable] at hj'
  have moved := removes_stShndx removes (by simp) hj hj' (by
    intro t ht
    cases Option.some.inj (hc.symm.trans ht)
    exact hkeep)
  rw [← moved] at hs'
  have there := fetch_eq_ok.mp (represents.fetch_head hs')
  refine ⟨(List.getElem?_eq_some_iff.mp there).1, ?_⟩
  rw [nameOf, nameOf, hs, there]
  exact (stable_fields stable).2.1

theorem deleted_names (loaded : Loaded elf) (designates : DesignatesKept elf)
    {elf' : Elf32Main} {w : View} (removes : Removes 0 (viewOf elf) w)
    (represents : Represents elf' w) :
    (∀ sym ∈ elf'.symTable, sym.stShndx.toNat < elf'.sectHeader.length) ∧
      elf'.symTable.map (nameOf elf'.sectHeader) = elf.symTable.map (nameOf elf.sectHeader) := by
  have length : elf'.symTable.length = elf.symTable.length := by
    rw [represents.symTable]
    exact removes_symTable_length removes (by simp)
  have symbol {j : Nat} (hj : j < elf.symTable.length) :=
    deleted_symbol loaded designates removes represents (List.getElem?_eq_getElem hj)
      (List.getElem?_eq_getElem (length.symm ▸ hj))
  refine ⟨?_, ?_⟩
  · intro sym' hsym'
    obtain ⟨j, hj, rfl⟩ := List.mem_iff_getElem.mp hsym'
    exact (symbol (length ▸ hj)).1
  · apply List.ext_getElem
    · simp [length]
    · intro j _ hj
      rw [List.length_map] at hj
      rw [List.getElem_map, List.getElem_map]
      exact (symbol hj).2

theorem valuesDeletedFirst_eq (arranged : Arranged file) (fromFile : LoadedFrom file elf)
    (loaded : Loaded elf) (matched : Matched (viewOf elf)) (deletable : Deletable elf)
    (designates : DesignatesKept elf) {y : Elf32Shdr}
    (inside : elf.header.eShstrndx.toNat < elf.sectHeader.length)
    (hy : heir Elf32Shdr.kept elf.sectHeader elf.header.eShstrndx.toNat = some y) :
    valuesDeletedFirst f elf text data =
      .ok (List.zipWith (· + ·) (elf.symTable.map Elf32Sym.stValue)
        (nameAmounts text data f (nameOffsets elf (offsetAfter elf.sectHeader y)))) := by
  obtain ⟨elf', w, run, removes, represents⟩ := loaded.deleteRel_run matched deletable
  obtain ⟨t, ht, offset⟩ :=
    deleted_strings arranged fromFile loaded removes represents inside hy
  obtain ⟨sections, names⟩ := deleted_names loaded designates removes represents
  have count : elf'.nbSymboles.toNat = elf'.symTable.length := by
    rw [represents.nbSymboles, represents.symTable]
  obtain ⟨f', _, corrected⟩ := correctSymTable_eq ht count text data f sections
  have offsets : (elf'.symTable.map fun sym => t.shOffset + nameOf elf'.sectHeader sym) =
      nameOffsets elf (offsetAfter elf.sectHeader y) := by
    have added := congrArg (List.map (t.shOffset + ·)) names
    rw [List.map_map, List.map_map] at added
    rw [nameOffsets, ← offset]
    exact added
  rw [offsets] at corrected
  rw [valuesDeletedFirst, run, ok_bind, corrected, ok_bind]
  dsimp only
  rw [addValue_values, represents.symTable, removes_values removes]
  rfl

theorem values_nil (loaded : Loaded elf) (matched : Matched (viewOf elf))
    (deletable : Deletable elf) (empty : elf.symTable = []) : valuesDeletedFirst f elf text data = .ok [] ∧
      valuesCorrectedFirst f elf text data = .ok [] := by
  obtain ⟨elf', w, run, removes, represents⟩ := loaded.deleteRel_run matched deletable
  have count : elf.nbSymboles.toNat = 0 := by rw [loaded.nbSymboles, empty]; rfl
  have gone : w.symTable = [] := by
    apply List.length_eq_zero_iff.mp
    rw [removes_symTable_length removes (by simp)]
    exact List.length_eq_zero_iff.mpr empty
  have count' : elf'.nbSymboles.toNat = 0 := by rw [represents.nbSymboles, gone]; rfl
  have after : elf'.symTable = [] := represents.symTable.trans gone
  refine ⟨?_, ?_⟩
  · rw [valuesDeletedFirst, run, ok_bind, correctSymTable_nil count', ok_bind]
    dsimp only
    rw [after, List.map_nil]
  · rw [valuesCorrectedFirst, correctSymTable_nil count, ok_bind]
    dsimp only
    rw [run, ok_bind, after, List.map_nil]

/-- Where both orders find a table of names, they agree if they read names for the same sums. -/
theorem values_agree_iff (arranged : Arranged file) (fromFile : LoadedFrom file elf)
    (loaded : Loaded elf) (matched : Matched (viewOf elf)) (deletable : Deletable elf)
    (designates : DesignatesKept elf) {strings y : Elf32Shdr}
    (hstrings : elf.sectHeader[elf.header.eShstrndx.toNat]? = some strings)
    (hy : heir Elf32Shdr.kept elf.sectHeader elf.header.eShstrndx.toNat = some y) :
    (∃ values, valuesDeletedFirst f elf text data = .ok values ∧
      valuesCorrectedFirst f elf text data = .ok values) ↔
    nameAmounts text data f (nameOffsets elf (offsetAfter elf.sectHeader y)) =
      nameAmounts text data f (nameOffsets elf strings.shOffset) := by
  have inside := (List.getElem?_eq_some_iff.mp hstrings).1
  have length (base : UInt32) : (nameAmounts text data f (nameOffsets elf base)).length =
      (elf.symTable.map Elf32Sym.stValue).length := by
    rw [nameAmounts_length, nameOffsets, List.length_map, List.length_map]
  rw [valuesDeletedFirst_eq arranged fromFile loaded matched deletable designates inside hy,
    valuesCorrectedFirst_eq loaded matched deletable designates hstrings,
    ← zipWith_add_left_inj (length _) (length _)]
  constructor
  · rintro ⟨values, deleted, corrected⟩
    exact Except.ok.inj (deleted.trans corrected.symm)
  · intro same
    exact ⟨_, rfl, by rw [same]⟩

end runs

theorem offsetAfter_of_below {elf : Elf32Main} {strings : Elf32Shdr}
    (below : ∀ r ∈ elf.sectHeader, r.isRel = true → r.shSize ≠ 0 → strings.shOffset ≤ r.shOffset) :
    offsetAfter elf.sectHeader strings = strings.shOffset := by
  have none : relBelow elf.sectHeader strings.shOffset.toNat = 0 :=
    relBelow_of_none fun r hr isRel nonempty =>
      UInt32.le_iff_toNat_le.mp (below r hr isRel nonempty)
  rw [offsetAfter, none]
  exact UInt32.sub_zero _

section orders

variable {file : List UInt8} {elf : Elf32Main} {f : CFile}

theorem NamesBelowRel.agree (names : NamesBelowRel elf) (h : Copyable file)
    (hload : load file = .ok (elf, f)) (designates : DesignatesKept elf)
    (filled : Filled (fromFirstRel (sectionsOf file))) : OrdersAgree file := by
  have loaded := load_loaded hload
  have fromFile := h.arranged.loadedFrom hload
  have deletable := fromFile.deletable loaded filled
  refine ⟨elf, f, hload, fun pos text data => ?_⟩
  rcases names with empty | ⟨strings, hstrings, stays, below⟩
  · exact ⟨[], values_nil loaded (load_matched hload) deletable empty⟩
  · have hkeep : strings.kept = true := by simp [Elf32Shdr.kept, stays]
    refine (values_agree_iff h.arranged fromFile loaded (load_matched hload) deletable designates
      hstrings (heir_of_kept hstrings hkeep)).mpr ?_
    rw [offsetAfter_of_below below]

theorem OrdersAgree.alike (agree : OrdersAgree file) (h : Copyable file)
    (hload : load file = .ok (elf, f)) (designates : DesignatesKept elf) :
    Filled (fromFirstRel (sectionsOf file)) ∧ NamesAlike file elf := by
  obtain ⟨elf', f', hload', orders⟩ := agree
  cases hload.symm.trans hload'
  have loaded := load_loaded hload
  have fromFile := h.arranged.loadedFrom hload
  obtain ⟨values, deleted, corrected⟩ := orders 0 0 0
  obtain ⟨elf', run, _⟩ := bind_eq_ok.mp deleted
  have deletable := (loaded.deleteRel_returned (load_matched hload) run).1
  refine ⟨fromFile.sectHeader ▸ deletable.filled, ?_⟩
  by_cases empty : elf.symTable = []
  · exact Or.inl empty
  have nonempty : elf.nbSymboles.toNat ≠ 0 := by
    rw [loaded.nbSymboles]
    exact fun zero => empty (List.length_eq_zero_iff.mp zero)
  obtain ⟨r, first, _⟩ := bind_eq_ok.mp corrected
  obtain ⟨strings, hstrings⟩ := correctSymTable_strings first nonempty
  obtain ⟨y, hy⟩ := heir_exists Elf32Shdr.kept hstrings
  refine Or.inr ⟨strings, y, hstrings, hy, ?_⟩
  intro sym hsym here there
  refine amount_eq_iff.mp fun text data => ?_
  obtain ⟨j, hj⟩ := List.mem_iff_getElem?.mp hsym
  have same := (values_agree_iff h.arranged fromFile loaded (load_matched hload) deletable
    designates hstrings hy).mp (orders 0 text data)
  have entry (base : UInt32) (low : (base + nameOf elf.sectHeader sym).toNat < 2 ^ 31) :
      (nameAmounts text data ⟨file, 0⟩ (nameOffsets elf base))[j]? =
        some (amount text data (fullName file (base + nameOf elf.sectHeader sym).toNat)) :=
    nameAmounts_getElem? text data (by rw [nameOffsets, List.getElem?_map, hj]; rfl) low
  have entries := congrArg (·[j]?) same
  simp only [entry _ here, entry _ there, Option.some.injEq] at entries
  exact entries

end orders

/-- The deletion of the relocation sections and the correction of the symbols commute when the
symbols have room, no section that is moved or freed is empty and the names lie below the
relocation sections; and only when the names read after the deletion are of the same kind. -/
theorem deleteRel_correctSymTable {file : List UInt8} (h : Copyable file)
    (designates : ∀ elf f, load file = .ok (elf, f) → DesignatesKept elf) :
    (SymtabRoom file ∧ Filled (fromFirstRel (sectionsOf file)) ∧
        (∀ elf f, load file = .ok (elf, f) → NamesBelowRel elf) → OrdersAgree file) ∧
      (OrdersAgree file → SymtabRoom file ∧ Filled (fromFirstRel (sectionsOf file)) ∧
        ∀ elf f, load file = .ok (elf, f) → NamesAlike file elf) := by
  constructor
  · rintro ⟨room, filled, names⟩
    obtain ⟨elf, f, hload, _⟩ := h.arranged.load_returns room
    exact (names elf f hload).agree h hload (designates elf f hload) filled
  · intro agree
    have ⟨elf, f, hload, _⟩ := agree
    exact ⟨h.arranged.room hload, (agree.alike h hload (designates elf f hload)).1,
      fun elf' f' hload' => (agree.alike h hload' (designates elf' f' hload')).2⟩

/-- An object file with its section `.text` and its relocation section before the names. -/
def namesFile : List UInt8 :=
  assemble (objectHeader 88 5 4)
    ([0, 0, 0, 0] ++ [0, 0, 0, 0, 0, 0, 0, 2] ++ symBytes ⟨0, 1, 0, 0, 0, 1⟩ ++
      [0, 0x2e, 0x74, 0x65, 0x78, 0x74, 0, 0])
    [objectShdr 0 0 0 0 0 0, objectShdr 1 1 52 4 0 0, objectShdr 0 shtRel 56 8 3 1,
      objectShdr 0 shtSymtab 64 16 4 0, objectShdr 0 3 80 8 0 0]

theorem namesFile_copyable : Copyable namesFile := by
  decide +kernel

def namesElf : Elf32Main where
  header := objectHeader 88 5 4
  sectHeader := [objectShdr 0 0 0 0 0 0, objectShdr 1 1 52 4 0 0, objectShdr 0 shtRel 56 8 3 1,
    objectShdr 0 shtSymtab 64 16 4 0, objectShdr 0 3 80 8 0 0]
  symTable := [⟨0, 1, 0, 0, 0, 1⟩]
  relTable := [[⟨0, 2⟩]]
  sectionContent := [⟨0, []⟩, ⟨4, [0, 0, 0, 0]⟩, ⟨8, [0, 0, 0, 0, 0, 0, 0, 2]⟩,
    ⟨16, symBytes ⟨0, 1, 0, 0, 0, 1⟩⟩, ⟨8, [0, 0x2e, 0x74, 0x65, 0x78, 0x74, 0, 0]⟩]
  tabSecRel := ⟨[1], 1⟩
  nbSymboles := 1

theorem load_namesFile : load namesFile = .ok (namesElf, ⟨namesFile, 88⟩) := by
  decide +kernel

theorem namesElf_designates : DesignatesKept namesElf := by
  intro sym hsym
  obtain rfl : sym = ⟨0, 1, 0, 0, 0, 1⟩ := by simpa [namesElf] using hsym
  exact ⟨objectShdr 1 1 52 4 0 0, rfl, by decide⟩

theorem namesFile_designates : ∀ elf f, load namesFile = .ok (elf, f) → DesignatesKept elf := by
  intro elf f hload
  cases load_namesFile.symm.trans hload
  exact namesElf_designates

theorem deleteRel_correctSymTable_namesFile :
    (SymtabRoom namesFile ∧ Filled (fromFirstRel (sectionsOf namesFile)) ∧
        (∀ elf f, load namesFile = .ok (elf, f) → NamesBelowRel elf) → OrdersAgree namesFile) ∧
      (OrdersAgree namesFile → SymtabRoom namesFile ∧ Filled (fromFirstRel (sectionsOf namesFile)) ∧
        ∀ elf f, load namesFile = .ok (elf, f) → NamesAlike namesFile elf) :=
  deleteRel_correctSymTable namesFile_copyable namesFile_designates

/-- After the deletion the name of `.text` is looked up eight bytes too early. -/
theorem deleteRel_correctSymTable_moved :
    ∃ elf f, Copyable namesFile ∧ load namesFile = .ok (elf, f) ∧ DesignatesKept elf ∧
      valuesDeletedFirst f elf 16 0 = .ok [1] ∧ valuesCorrectedFirst f elf 16 0 = .ok [17] :=
  ⟨namesElf, ⟨namesFile, 88⟩, namesFile_copyable, load_namesFile, namesElf_designates,
    by decide, by decide⟩

end ArmRunner
