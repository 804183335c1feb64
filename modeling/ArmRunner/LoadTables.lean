import ArmRunner.LoadFormat
import ArmRunner.Loaded

namespace ArmRunner

open CRun

def Elf32Shdr.isSymtab (s : Elf32Shdr) : Bool := s.shType == shtSymtab

theorem symtabIndex_returns {sectHeader : List Elf32Shdr} {i n : Nat}
    (h : i + n ≤ sectHeader.length) : ∃ k, symtabIndex sectHeader i n = .ok k := by
  induction n generalizing i with
  | zero => exact ⟨i, rfl⟩
  | succ n ih =>
    rw [symtabIndex, fetch_of_lt (by omega), ok_bind]
    split
    · exact ih (by omega)
    · exact ⟨i, rfl⟩

/-- The search stops at the first symbol table, if there is one. -/
theorem symtabIndex_find {sectHeader : List Elf32Shdr} {n : Nat} (full : sectHeader.length = n) :
    ∃ k, symtabIndex sectHeader 0 n = .ok k ∧
      (sectHeader.find? Elf32Shdr.isSymtab = none → n ≤ k) ∧
      ∀ s, sectHeader.find? Elf32Shdr.isSymtab = some s → k < n ∧ sectHeader[k]? = some s := by
  obtain ⟨k, hk⟩ := symtabIndex_returns (Nat.le_of_eq ((Nat.zero_add _).trans full.symm))
  obtain ⟨_, bound, skipped, found⟩ := symtabIndex_eq_ok hk
  rw [Nat.zero_add] at bound found
  refine ⟨k, hk, ?_, ?_⟩
  · intro none
    by_contra below
    obtain ⟨s, hs, type⟩ := found (by omega)
    have other := List.find?_eq_none.mp none s (List.mem_of_getElem? hs)
    simp [Elf32Shdr.isSymtab, type] at other
  · intro s hs
    obtain ⟨isSym, i, hi, same, before⟩ := List.find?_eq_some_iff_getElem.mp hs
    have here : sectHeader[i]? = some s := by rw [List.getElem?_eq_getElem hi, same]
    have type : s.shType = shtSymtab := by simpa [Elf32Shdr.isSymtab] using isSym
    have stop : k = i := by
      rcases Nat.lt_trichotomy k i with lt | equal | lt
      · obtain ⟨t, ht, ttype⟩ := found (by omega)
        have earlier := before k lt
        obtain ⟨_, atK⟩ := List.getElem?_eq_some_iff.mp ht
        rw [atK] at earlier
        simp [Elf32Shdr.isSymtab, ttype] at earlier
      · exact equal
      · obtain ⟨t, ht, other⟩ := skipped i (Nat.zero_le i) lt
        cases Option.some.inj (here.symm.trans ht)
        exact absurd type other
    subst stop
    exact ⟨by omega, here⟩

section tables

variable {file : List UInt8} {header : Elf32Ehdr} {sectHeader : List Elf32Shdr} {p : Nat}

theorem readSymTable_absent {f : CFile} (full : sectHeader.length = header.eShnum.toNat)
    (absent : sectHeader.find? Elf32Shdr.isSymtab = none) :
    readSymTable f header sectHeader = .ok (([], -1), f) := by
  obtain ⟨k, hk, beyond, _⟩ := symtabIndex_find full
  rw [readSymTable, hk, ok_bind, if_pos (beyond absent)]

theorem readSymTable_present {f : CFile} (full : sectHeader.length = header.eShnum.toNat)
    {s : Elf32Shdr} (present : sectHeader.find? Elf32Shdr.isSymtab = some s) :
    readSymTable f header sectHeader = (do
      let (tab, f) ← collect (fun _ => readSym) 0 (s.shSize.toNat / 16) (f.fseek s.shOffset.toNat)
      .ok ((tab, (s.shSize.toNat / 16 : Nat)), f)) := by
  obtain ⟨k, hk, _, found⟩ := symtabIndex_find full
  obtain ⟨inside, here⟩ := found s present
  rw [readSymTable, hk, ok_bind, if_neg (by omega), fetch_eq_ok.mpr here, ok_bind]

theorem loadSymTable_absent (full : sectHeader.length = header.eShnum.toNat)
    (absent : sectHeader.find? Elf32Shdr.isSymtab = none) :
    loadSymTable f header sectHeader = .ok (([], -1), f) := by
  obtain ⟨k, hk, beyond, _⟩ := symtabIndex_find full
  rw [loadSymTable, hk, ok_bind, if_pos (beyond absent)]

/-- What the symbol table needs of its block. -/
theorem loadSymTable_present (full : sectHeader.length = header.eShnum.toNat)
    {s : Elf32Shdr} (present : sectHeader.find? Elf32Shdr.isSymtab = some s) :
    loadSymTable f header sectHeader =
      if (s.shSize * 16).toNat <
          min (16 * (s.shSize.toNat / 16)) (f.fseek s.shOffset.toNat).left then .error .fault
      else readSymTable f header sectHeader := by
  obtain ⟨k, hk, _, found⟩ := symtabIndex_find full
  obtain ⟨inside, here⟩ := found s present
  have fills := Fills.collect (fun j => @readSym_fills (s.shSize * 16).toNat (16 * j)) 0
    (s.shSize.toNat / 16)
  rw [loadSymTable, hk, ok_bind, if_neg (by omega), fetch_eq_ok.mpr here, ok_bind,
    readSymTable_present full present]
  dsimp only
  rw [fills.run]
  by_cases beyond : (s.shSize * 16).toNat <
      min (16 * (s.shSize.toNat / 16)) (f.fseek s.shOffset.toNat).left
  · rw [if_pos beyond, if_pos beyond, error_bind]
  · rw [if_neg beyond, if_neg beyond]

/-- The symbols of the first symbol table, when it lies in the file. -/
theorem readSymTable_found (full : sectHeader.length = header.eShnum.toNat) {s : Elf32Shdr}
    (present : sectHeader.find? Elf32Shdr.isSymtab = some s)
    (fits : s.shOffset.toNat + s.shSize.toNat ≤ file.length) :
    readSymTable ⟨file, p⟩ header sectHeader =
      .ok ((symbolsAt file s, (s.shSize.toNat / 16 : Nat)),
        ⟨file, s.shOffset.toNat + 16 * (s.shSize.toNat / 16)⟩) := by
  have records := collect_records (fun q (hq : q + 16 ≤ file.length) => readSym_at hq)
    (p := s.shOffset.toNat) (n := s.shSize.toNat / 16) (by omega)
  rw [readSymTable_present full present, CFile.fseek_natCast, records, ok_bind, symbolsAt]

/-- The symbols are those of the file's symbol table, when there is one. -/
theorem readSymTable_at (full : sectHeader.length = header.eShnum.toNat)
    (fits : ∀ s ∈ sectHeader, s.shType = shtSymtab →
      s.shOffset.toNat + s.shSize.toNat ≤ file.length)
    (unique : ∀ (i j : Nat) (s t : Elf32Shdr), sectHeader[i]? = some s →
      sectHeader[j]? = some t → s.shType = shtSymtab → t.shType = shtSymtab → i = j) :
    ∃ tab nb q, readSymTable ⟨file, p⟩ header sectHeader = .ok ((tab, nb), ⟨file, q⟩) ∧
      ∀ s ∈ sectHeader, s.shType = shtSymtab → tab = symbolsAt file s := by
  cases found : sectHeader.find? Elf32Shdr.isSymtab with
  | none =>
    refine ⟨[], -1, p, readSymTable_absent full found, ?_⟩
    intro t ht type
    have other := List.find?_eq_none.mp found t ht
    simp [Elf32Shdr.isSymtab, type] at other
  | some s =>
    have hs := List.mem_of_find?_eq_some found
    have type : s.shType = shtSymtab := by
      simpa [Elf32Shdr.isSymtab] using List.find?_some found
    refine ⟨_, _, _, readSymTable_found full found (fits s hs type), ?_⟩
    intro t ht ttype
    obtain ⟨i, hi⟩ := List.mem_iff_getElem?.mp hs
    obtain ⟨j, hj⟩ := List.mem_iff_getElem?.mp ht
    have same := unique i j s t hi hj type ttype
    subst same
    rw [Option.some.inj (hi.symm.trans hj)]

/-- The tables, their entry counts and their number are those of the relocation sections. -/
structure RelocsRead (file : List UInt8) (sectHeader : List Elf32Shdr) (r : RelocLoad) : Prop where
  tables : r.tables = (sectHeader.filter Elf32Shdr.isRel).map (relocsAt file)
  tabNb : r.tabSecRel.tabNb =
    (sectHeader.filter Elf32Shdr.isRel).map fun s => s.shSize.toNat / 8
  nbSections : r.tabSecRel.nbSections = (sectHeader.filter Elf32Shdr.isRel).length

/-- One turn of the loop over the sections: a relocation section adds its table. -/
theorem readRelocSection_at {k : Nat} {s : Elf32Shdr} {r : RelocLoad}
    (hs : sectHeader[k]? = some s)
    (fits : s.isRel = true → s.shSize ≠ 0 → s.shOffset.toNat + s.shSize.toNat ≤ file.length)
    (few : (sectHeader.filter Elf32Shdr.isRel).length ≤ 256) (bytes : r.file.bytes = file)
    (read : RelocsRead file (sectHeader.take k) r) :
    ∃ r', readRelocSection sectHeader k r = .ok r' ∧ r'.file.bytes = file ∧
      RelocsRead file (sectHeader.take (k + 1)) r' := by
  obtain ⟨htables, hnb, hcount⟩ := read
  have take : sectHeader.take (k + 1) = sectHeader.take k ++ [s] := by
    rw [List.take_add_one, hs]
    rfl
  rw [readRelocSection, fetch_eq_ok.mpr hs, ok_bind]
  by_cases ht : s.shType = shtRel
  · have hrel : s.isRel = true := by simp [Elf32Shdr.isRel, ht]
    have filtered : (sectHeader.take (k + 1)).filter Elf32Shdr.isRel =
        (sectHeader.take k).filter Elf32Shdr.isRel ++ [s] := by
      rw [take, List.filter_append, List.filter_cons_of_pos hrel, List.filter_nil]
    have records : collect (fun _ => readRel) 0 (s.shSize.toNat / 8) ⟨file, s.shOffset.toNat⟩ =
        .ok (relocsAt file s, ⟨file, s.shOffset.toNat + 8 * (s.shSize.toNat / 8)⟩) := by
      by_cases empty : s.shSize = 0
      · rw [relocsAt, empty]
        rfl
      · have room := fits hrel empty
        exact collect_records (fun q (hq : q + 8 ≤ file.length) => readRel_at hq) (by omega)
    have below : r.tables.length < 256 := by
      have part := ((List.take_sublist (k + 1) sectHeader).filter Elf32Shdr.isRel).length_le
      rw [filtered, List.length_append, List.length_singleton] at part
      rw [htables, List.length_map]
      omega
    rw [if_pos ht, if_neg (by omega), CFile.fseek_natCast, bytes, records, ok_bind]
    refine ⟨_, rfl, rfl, ?_, ?_, ?_⟩
    · simp [filtered, htables]
    · simp [filtered, hnb]
    · simp [filtered, hcount]
  · have hrel : ¬s.isRel = true := by simp [Elf32Shdr.isRel, ht]
    have filtered : (sectHeader.take (k + 1)).filter Elf32Shdr.isRel =
        (sectHeader.take k).filter Elf32Shdr.isRel := by
      rw [take, List.filter_append, List.filter_cons_of_neg hrel, List.filter_nil,
        List.append_nil]
    rw [if_neg ht]
    refine ⟨r, rfl, bytes, ?_, ?_, ?_⟩
    · rw [filtered, htables]
    · rw [filtered, hnb]
    · rw [filtered, hcount]

/-- The relocation tables are those of the file's relocation sections, in index order. -/
theorem readRelocTable_at (full : sectHeader.length = header.eShnum.toNat)
    (fits : ∀ s ∈ sectHeader, s.isRel = true → s.shSize ≠ 0 →
      s.shOffset.toNat + s.shSize.toNat ≤ file.length)
    (few : (sectHeader.filter Elf32Shdr.isRel).length ≤ 256) :
    ∃ r, readRelocTable ⟨file, p⟩ header sectHeader ⟨[], 0⟩ = .ok r ∧ r.file.bytes = file ∧
      RelocsRead file sectHeader r := by
  have run : ∃ r, readRelocTable ⟨file, p⟩ header sectHeader ⟨[], 0⟩ = .ok r ∧
      r.file.bytes = file ∧ RelocsRead file (sectHeader.take (0 + header.eShnum.toNat)) r := by
    apply forLoop_total (I := fun k (r : RelocLoad) => r.file.bytes = file ∧
      RelocsRead file (sectHeader.take k) r)
    · exact ⟨rfl, rfl, rfl, rfl⟩
    · rintro k r _ hk ⟨bytes, read⟩
      have hs : sectHeader[k]? = some sectHeader[k] := List.getElem?_eq_getElem (by omega)
      exact readRelocSection_at hs (fits _ (List.mem_of_getElem? hs)) few bytes read
  rwa [Nat.zero_add, ← full, List.take_length] at run

end tables

section loaded

variable {file : List UInt8} {elf : Elf32Main} {f : CFile}

theorem load_symTable_none (h : load file = .ok (elf, f))
    (none : ∀ s ∈ elf.sectHeader, s.shType ≠ shtSymtab) :
    elf.symTable = [] ∧ elf.nbSymboles = -1 := by
  have full := (load_loaded h).heads
  obtain ⟨_, _, _, _, _, _, _, _, hsym, _⟩ := load_eq_ok h
  have absent : elf.sectHeader.find? Elf32Shdr.isSymtab = Option.none := by
    apply List.find?_eq_none.mpr
    intro s hs
    simpa [Elf32Shdr.isSymtab] using none s hs
  rw [readSymTable_absent full absent] at hsym
  simp only [Except.ok.injEq, Prod.mk.injEq] at hsym
  exact ⟨hsym.1.1.symm, hsym.1.2.symm⟩

theorem load_nbSymboles (h : load file = .ok (elf, f)) {s : Elf32Shdr} (hs : s ∈ elf.sectHeader)
    (ht : s.shType = shtSymtab) : elf.nbSymboles = elf.symTable.length := by
  have full := (load_loaded h).heads
  obtain ⟨_, _, _, _, _, _, _, _, hsym, _⟩ := load_eq_ok h
  obtain ⟨t, present⟩ : ∃ t, elf.sectHeader.find? Elf32Shdr.isSymtab = some t := by
    rw [← Option.isSome_iff_exists, List.find?_isSome]
    exact ⟨s, hs, by simp [Elf32Shdr.isSymtab, ht]⟩
  rw [readSymTable_present full present] at hsym
  obtain ⟨⟨tab, g⟩, hc, hsym⟩ := bind_eq_ok.mp hsym
  have length := collect_length hc
  simp only [Except.ok.injEq, Prod.mk.injEq] at hsym
  obtain ⟨⟨same, nb⟩, _⟩ := hsym
  rw [← nb, ← same, length]

end loaded

/-- The block allocated for the symbol table, of `sh_size * 16` bytes in 32-bit arithmetic, has
room for its entries. -/
def SymtabRoom (file : List UInt8) : Prop :=
  ∀ s ∈ (sectionsOf file).find? Elf32Shdr.isSymtab,
    16 * (s.shSize.toNat / 16) ≤ (s.shSize * 16).toNat

/-- The symbols are read when their block has room for them. -/
theorem SymtabRoom.sym {file : List UInt8} (room : SymtabRoom file) (p : Nat) :
    loadSymTable ⟨file, p⟩ (headerOf file) (sectionsOf file) =
      readSymTable ⟨file, p⟩ (headerOf file) (sectionsOf file) := by
  have full := sectionsOf_length file
  cases found : (sectionsOf file).find? Elf32Shdr.isSymtab with
  | none => rw [loadSymTable_absent full found, readSymTable_absent full found]
  | some s =>
    have fits := room s found
    rw [loadSymTable_present full found, if_neg (by omega)]

end ArmRunner
