import ArmRunner.Blocks
import ArmRunner.View

namespace ArmRunner

open CRun

theorem readTabSectionHeader_length {f f' : CFile} {header : Elf32Ehdr} {tab : List Elf32Shdr}
    (h : readTabSectionHeader f header = .ok (some tab, f')) :
    tab.length = header.eShnum.toNat := by
  unfold readTabSectionHeader at h
  dsimp only at h
  split at h
  next xs g hc =>
    cases h
    exact collect_length hc
  next => cases h

/-- The scan ends at the first symbol table, or at the number of sections. -/
theorem symtabIndex_eq_ok {sectHeader : List Elf32Shdr} {i n k : Nat}
    (h : symtabIndex sectHeader i n = .ok k) :
    i ≤ k ∧ k ≤ i + n ∧
      (∀ j, i ≤ j → j < k → ∃ s, sectHeader[j]? = some s ∧ s.shType ≠ shtSymtab) ∧
      (k < i + n → ∃ s, sectHeader[k]? = some s ∧ s.shType = shtSymtab) := by
  induction n generalizing i with
  | zero =>
    cases h
    refine ⟨Nat.le_refl _, Nat.le_refl _, ?_, ?_⟩ <;> omega
  | succ n ih =>
    obtain ⟨s, hs, h⟩ := bind_eq_ok.mp h
    have here := fetch_eq_ok.mp hs
    by_cases ht : s.shType ≠ shtSymtab
    · rw [if_pos ht] at h
      obtain ⟨low, high, skipped, found⟩ := ih h
      refine ⟨by omega, by omega, ?_, fun hk => found (by omega)⟩
      intro j hij hjk
      by_cases hj : j = i
      · exact ⟨s, hj ▸ here, ht⟩
      · exact skipped j (by omega) hjk
    · rw [if_neg ht] at h
      cases h
      refine ⟨Nat.le_refl _, by omega, ?_, fun _ => ⟨s, here, not_not.mp ht⟩⟩
      omega

theorem readSymTable_length {f f' : CFile} {header : Elf32Ehdr} {sectHeader : List Elf32Shdr}
    {tab : List Elf32Sym} {nb : Int}
    (h : readSymTable f header sectHeader = .ok ((tab, nb), f')) : nb.toNat = tab.length := by
  obtain ⟨i, _, h⟩ := bind_eq_ok.mp h
  split at h
  next => cases h; rfl
  next =>
    obtain ⟨s, _, h⟩ := bind_eq_ok.mp h
    obtain ⟨⟨xs, g⟩, hc, h⟩ := bind_eq_ok.mp h
    cases h
    rw [collect_length hc, Int.toNat_natCast]

/-- A section's slot is filled, unless it is the last one and its size overflows an `int`. -/
theorem loadOneContent_sized {header : Elf32Ehdr} {sectHeader : List Elf32Shdr} {i : Nat}
    {f f' : CFile} {c : SectionContent} {s : Elf32Shdr}
    (h : loadOneContent header sectHeader i f = .ok (c, f')) (hs : sectHeader[i]? = some s) :
    (s.shSize = 0 ∨ i + 1 < header.eShnum.toNat ∨ (header.eShoff - s.shOffset).toNat < 2 ^ 31) ∧
        c.Filled ∨
      ¬(s.shSize = 0 ∨ i + 1 < header.eShnum.toNat ∨
        (header.eShoff - s.shOffset).toNat < 2 ^ 31) ∧ c.size < 0 := by
  rw [loadOneContent, fetch_eq_ok.mpr hs, ok_bind] at h
  by_cases empty : s.shSize = 0
  · rw [if_pos empty] at h
    cases h
    exact Or.inl ⟨Or.inl empty, rfl⟩
  rw [if_neg empty] at h
  dsimp only at h
  by_cases inner : i + 1 < header.eShnum.toNat
  · rw [if_pos inner] at h
    obtain ⟨val, _, h⟩ := bind_eq_ok.mp h
    obtain ⟨sv, _, h⟩ := bind_eq_ok.mp h
    generalize (if s.shType = shtRel then s.shSize else sv.shOffset - s.shOffset) = extent at h
    by_cases negative : asInt extent < 0
    · rw [if_pos negative] at h
      cases h
    · rw [if_neg negative] at h
      obtain ⟨⟨bytes, g⟩, hr, h⟩ := bind_eq_ok.mp h
      cases h
      have length := CFile.fread_length (readBytes_eq_ok.mp hr)
      refine Or.inl ⟨Or.inr (Or.inl inner), ?_⟩
      simp only [SectionContent.Filled, length]
      omega
  · rw [if_neg inner] at h
    obtain ⟨⟨bytes, g⟩, hr, h⟩ := bind_eq_ok.mp h
    cases h
    have length := CFile.fread_length (readBytes_eq_ok.mp hr)
    by_cases small : (header.eShoff - s.shOffset).toNat < 2 ^ 31
    · refine Or.inl ⟨Or.inr (Or.inr small), ?_⟩
      simp only [SectionContent.Filled, length, asInt_of_lt small]
    · refine Or.inr ⟨by simp only [empty, inner, small, or_self, not_false_eq_true], ?_⟩
      have := @asInt_nonneg_iff (header.eShoff - s.shOffset)
      simp only
      omega

theorem loadSectionContent_sized {f f' : CFile} {header : Elf32Ehdr}
    {sectHeader : List Elf32Shdr} {content : List SectionContent}
    (h : loadSectionContent f header sectHeader = .ok (content, f')) :
    content.length = header.eShnum.toNat ∧ ∀ c ∈ content, c.Filled ∨ c.size < 0 := by
  refine ⟨collect_length h, ?_⟩
  have sizes := collect_invariant (I := fun _ => True) (P := fun _ c => c.Filled ∨ c.size < 0)
    h trivial ?_
  · obtain ⟨_, sized⟩ := sizes
    intro c hc
    obtain ⟨k, hk⟩ := List.mem_iff_getElem?.mp hc
    exact sized k c hk
  · intro k t c t' _ _ _ hk
    obtain ⟨s, hs, _⟩ := bind_eq_ok.mp hk
    exact ⟨trivial, (loadOneContent_sized hk (fetch_eq_ok.mp hs)).imp And.right And.right⟩

/-- The parts of a load that returned. -/
theorem load_parts {file : List UInt8} {elf : Elf32Main} {f' : CFile}
    (h : load file = .ok (elf, f')) :
    ∃ f1 f2 f3 f4 tab, loadHeader (CFile.openRead file) = .ok (elf.header, f1) ∧
      loadTabSectionHeader f1 elf.header = .ok (tab, f2) ∧ elf.sectHeader = tab.getD [] ∧
      loadSymTable f2 elf.header elf.sectHeader = .ok ((elf.symTable, elf.nbSymboles), f3) ∧
      loadRelocTable f3 elf.header elf.sectHeader ⟨[], 0⟩ =
        .ok ⟨elf.relTable, elf.tabSecRel, f4⟩ ∧
      loadSectionContent f4 elf.header elf.sectHeader = .ok (elf.sectionContent, f') := by
  obtain ⟨⟨elf0, f4⟩, tables, h⟩ := bind_eq_ok.mp h
  obtain ⟨⟨content, g⟩, hcontent, h⟩ := bind_eq_ok.mp h
  cases h
  obtain ⟨⟨header, f1⟩, hheader, tables⟩ := bind_eq_ok.mp tables
  obtain ⟨⟨tab, f2⟩, htab, tables⟩ := bind_eq_ok.mp tables
  obtain ⟨⟨⟨symTable, nbSymboles⟩, f3⟩, hsym, tables⟩ := bind_eq_ok.mp tables
  obtain ⟨reloc, hrel, tables⟩ := bind_eq_ok.mp tables
  cases tables
  exact ⟨f1, f2, f3, reloc.file, tab, hheader, htab, rfl, hsym, hrel, hcontent⟩

/-- The same, as what is read into blocks that had room for it. -/
theorem load_eq_ok {file : List UInt8} {elf : Elf32Main} {f' : CFile}
    (h : load file = .ok (elf, f')) :
    ∃ f1 f2 f3 f4 tab, loadHeader (CFile.openRead file) = .ok (elf.header, f1) ∧
      readTabSectionHeader f1 elf.header = .ok (tab, f2) ∧ elf.sectHeader = tab.getD [] ∧
      readSymTable f2 elf.header elf.sectHeader = .ok ((elf.symTable, elf.nbSymboles), f3) ∧
      readRelocTable f3 elf.header elf.sectHeader ⟨[], 0⟩ =
        .ok ⟨elf.relTable, elf.tabSecRel, f4⟩ ∧
      loadSectionContent f4 elf.header elf.sectHeader = .ok (elf.sectionContent, f') := by
  obtain ⟨f1, f2, f3, f4, tab, hheader, htab, hheads, hsym, hrel, hcontent⟩ := load_parts h
  rw [loadRelocTable_eq] at hrel
  exact ⟨f1, f2, f3, f4, tab, hheader, loadTabSectionHeader_read htab, hheads,
    loadSymTable_read hsym, hrel, hcontent⟩

theorem load_loaded {file : List UInt8} {elf : Elf32Main} {f : CFile}
    (h : load file = .ok (elf, f)) : Loaded elf := by
  obtain ⟨f1, f2, f3, f4, tab, _, htab, hheads, hsym, _, hcontent⟩ := load_eq_ok h
  obtain ⟨contents, sized⟩ := loadSectionContent_sized hcontent
  refine ⟨?_, contents, readSymTable_length hsym, sized⟩
  cases tab with
  | some tab =>
    rw [hheads]
    exact readTabSectionHeader_length htab
  | none =>
    -- without a table the search for the symbols already reads entry 0, unless there is none
    obtain ⟨k, hk, _⟩ := bind_eq_ok.mp hsym
    obtain ⟨_, _, skipped, found⟩ := symtabIndex_eq_ok hk
    rw [hheads] at skipped found ⊢
    by_contra hne
    have positive : 0 < elf.header.eShnum.toNat := by
      simp only [Option.getD_none, List.length_nil] at hne
      omega
    by_cases hk0 : k = 0
    · obtain ⟨s, hs, _⟩ := found (by omega)
      simp [hk0] at hs
    · obtain ⟨s, hs, _⟩ := skipped 0 (Nat.le_refl 0) (by omega)
      simp at hs

end ArmRunner
