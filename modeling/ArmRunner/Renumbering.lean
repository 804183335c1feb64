import ArmRunner.Encode
import ArmRunner.Pointers
import ArmRunner.Removes

namespace ArmRunner

open CRun NewIndex

section loaded

variable {elf elf' : Elf32Main}

theorem viewOf_getElem? {k : Nat} {s : Section} :
    (viewOf elf).sections[k]? = some s ↔
      elf.sectHeader[k]? = some s.1 ∧ elf.sectionContent[k]? = some s.2 := by
  obtain ⟨head, content⟩ := s
  exact List.getElem?_zip_eq_some

theorem Loaded.section_of_head (h : Loaded elf) {k : Nat} {s : Elf32Shdr}
    (hs : elf.sectHeader[k]? = some s) :
    ∃ c, (viewOf elf).sections[k]? = some (s, c) := by
  have hk := (List.getElem?_eq_some_iff.mp hs).1
  rw [h.heads, ← h.contents] at hk
  refine ⟨elf.sectionContent[k], ?_⟩
  apply viewOf_getElem?.mpr
  exact ⟨hs, List.getElem?_eq_getElem hk⟩

theorem Loaded.newIndex_eq (h : Loaded elf) (x : Nat) :
    newIndex keep (viewOf elf).sections x = newIndex Elf32Shdr.kept elf.sectHeader x := by
  rw [← h.viewOf_heads, newIndex_map]
  rfl

theorem Loaded.viewOf_sized (h : Loaded elf) :
    ∀ s ∈ (viewOf elf).sections, s.2.Filled ∨ s.2.size < 0 := by
  intro s hs
  obtain ⟨k, hk⟩ := List.mem_iff_getElem?.mp hs
  exact h.sized s.2 (List.mem_of_getElem? (viewOf_getElem?.mp hk).2)

/-- No content behind a relocation section has a size that overflows an `int`. -/
def ContentsMovable (elf : Elf32Main) : Prop :=
  ∀ (i j : Nat) (r : Elf32Shdr) (c : SectionContent), i < j → elf.sectHeader[i]? = some r →
    r.isRel = true → elf.sectionContent[j]? = some c → 0 ≤ c.size

theorem Loaded.movable_iff (h : Loaded elf) : Movable (viewOf elf) ↔ ContentsMovable elf := by
  constructor
  · intro movable i j r c hij hr hrel hc
    obtain ⟨c', hr'⟩ := h.section_of_head hr
    have hj := (List.getElem?_eq_some_iff.mp hc).1
    rw [h.contents, ← h.heads] at hj
    have hs : (viewOf elf).sections[j]? = some (elf.sectHeader[j], c) :=
      viewOf_getElem?.mpr ⟨List.getElem?_eq_getElem hj, hc⟩
    have filled : c.size = c.sectionBytes.length := movable i j _ _ hij hr' hrel hs
    omega
  · intro movable i j r s hij hr hrel hs
    have size := movable i j r.1 s.2 hij (viewOf_getElem?.mp hr).1 hrel (viewOf_getElem?.mp hs).2
    refine (h.viewOf_sized s (List.mem_of_getElem? hs)).resolve_right ?_
    omega

theorem Loaded.dropRel_run (h : Loaded elf) (movable : ContentsMovable elf) :
    ∃ elf' w, dropRel elf = .ok elf' ∧ Removes 0 (viewOf elf) w ∧ Represents elf' w :=
  dropRel_refines (viewOf_represents h) (h.movable_iff.mpr movable)

theorem Loaded.dropRel_returned (h : Loaded elf) (run : dropRel elf = .ok elf') :
    ContentsMovable elf ∧ ∃ w, Removes 0 (viewOf elf) w ∧ Represents elf' w := by
  have movable := h.movable_iff.mp (dropRel_movable (viewOf_represents h) h.viewOf_sized run)
  obtain ⟨elf'', w, run', removes, represents⟩ := h.dropRel_run movable
  cases Except.ok.inj (run.symm.trans run')
  exact ⟨movable, w, removes, represents⟩

/-- What the deletion takes for granted: every content behind a relocation section has a size that
does not overflow, and no section from the first relocation section on is empty. -/
structure Deletable (elf : Elf32Main) : Prop where
  movable : ContentsMovable elf
  filled : Filled (fromFirstRel elf.sectHeader)

/-- The deletion returns exactly when it can use all the pointers that it passes on. -/
theorem Loaded.deleteRel_iff (h : Loaded elf) (matched : Matched (viewOf elf)) :
    deleteRel elf = .ok elf' ↔ dropRel elf = .ok elf' ∧ Deletable elf := by
  have heads := h.viewOf_heads
  constructor
  · intro run
    have dropped := deleteRel_weaker run
    have movable := (h.dropRel_returned dropped).1
    have eq := (deleteRel_eq_ok (viewOf_represents h) (h.movable_iff.mpr movable) matched).mp run
    exact ⟨dropped, movable, heads ▸ eq.2⟩
  · rintro ⟨dropped, movable, filled⟩
    exact (deleteRel_eq_ok (viewOf_represents h) (h.movable_iff.mpr movable) matched).mpr
      ⟨dropped, heads.symm ▸ filled⟩

theorem Loaded.deleteRel_run (h : Loaded elf) (matched : Matched (viewOf elf))
    (deletable : Deletable elf) :
    ∃ elf' w, deleteRel elf = .ok elf' ∧ Removes 0 (viewOf elf) w ∧ Represents elf' w := by
  obtain ⟨elf', w, run, removes, represents⟩ := h.dropRel_run deletable.movable
  exact ⟨elf', w, (h.deleteRel_iff matched).mpr ⟨run, deletable⟩, removes, represents⟩

theorem Loaded.deleteRel_returned (h : Loaded elf) (matched : Matched (viewOf elf))
    (run : deleteRel elf = .ok elf') :
    Deletable elf ∧ ∃ w, Removes 0 (viewOf elf) w ∧ Represents elf' w := by
  obtain ⟨dropped, deletable⟩ := (h.deleteRel_iff matched).mp run
  exact ⟨deletable, (h.dropRel_returned dropped).2⟩

end loaded

/-- A symbol of an ordinary section is given the new index of that section, a symbol of no
section or of a reserved index keeps its index. -/
structure KeepsSection (elf : Elf32Main) (sym sym' : Elf32Sym) : Prop where
  ordinary : ∀ s, 1 ≤ sym.stShndx.toNat → elf.sectHeader[sym.stShndx.toNat]? = some s →
    s.isRel = false →
    sym'.stShndx.toNat = newIndex Elf32Shdr.kept elf.sectHeader sym.stShndx.toNat
  special : sym.stShndx.toNat = 0 ∨ 0xff00 ≤ sym.stShndx.toNat → sym'.stShndx = sym.stShndx

def SymbolsKeepSections (elf elf' : Elf32Main) : Prop :=
  ∀ (j : Nat) (sym : Elf32Sym), elf.symTable[j]? = some sym →
    ∃ sym', elf'.symTable[j]? = some sym' ∧ KeepsSection elf sym sym'

/-- No relocation section has an index at or below a reserved index that a symbol uses. -/
def ReservedBelowRel (elf : Elf32Main) : Prop :=
  ∀ (j : Nat) (sym : Elf32Sym), elf.symTable[j]? = some sym → 0xff00 ≤ sym.stShndx.toNat →
    ∀ (i : Nat) (s : Elf32Shdr), i ≤ sym.stShndx.toNat → elf.sectHeader[i]? = some s →
      s.isRel = false

section symbols

variable {elf elf' : Elf32Main}

theorem not_rel_of_keep {s : Section} (h : keep s = true) : s.1.isRel = false := by
  simpa [keep, Elf32Shdr.kept] using h

/-- A symbol keeps its section if, where its index is reserved, no deleted section comes
before that index. -/
theorem removes_keepsSection (h : Loaded elf) {w : View} (removes : Removes 0 (viewOf elf) w)
    {j : Nat} {sym sym' : Elf32Sym} (hj : elf.symTable[j]? = some sym)
    (hj' : w.symTable[j]? = some sym')
    (first : ∀ s, elf.sectHeader[0]? = some s → s.isRel = false)
    (below : 0xff00 ≤ sym.stShndx.toNat → ∀ i s, i ≤ sym.stShndx.toNat →
      elf.sectHeader[i]? = some s → s.isRel = false) : KeepsSection elf sym sym' := by
  refine ⟨?_, ?_⟩
  · intro s _ hs hrel
    rw [← h.newIndex_eq]
    apply removes_stShndx removes (by simp) hj hj'
    intro t ht
    cases Option.some.inj (hs.symm.trans (viewOf_getElem?.mp ht).1)
    exact keep_of_not_rel hrel
  · intro special
    have none_before : ∀ i s, i ≤ sym.stShndx.toNat → elf.sectHeader[i]? = some s →
        s.isRel = false := by
      rcases special with zero | reserved
      · intro i s hi hs
        have hi0 : i = 0 := by omega
        exact first s (hi0 ▸ hs)
      · exact below reserved
    have moved := removes_stShndx removes (by simp) hj hj' (fun t ht =>
      keep_of_not_rel (none_before _ t.1 (Nat.le_refl _) (viewOf_getElem?.mp ht).1))
    have stays : newIndex keep (viewOf elf).sections sym.stShndx.toNat = sym.stShndx.toNat := by
      apply newIndex_eq_self_iff.mpr
      intro i t hi ht
      exact keep_of_not_rel (none_before i t.1 (Nat.le_of_lt hi) (viewOf_getElem?.mp ht).1)
    exact UInt16.toNat_inj.mp (moved.trans stays)

/-- The deletion returns and keeps every symbol in its section exactly when no symbol with a reserved
index has a relocation section at or below that index, and the contents can be moved. -/
theorem deleteRel_symbols {file : List UInt8} {f : CFile} (hload : load file = .ok (elf, f))
    (null : ∀ s, elf.sectHeader[0]? = some s → s.shType = 0) :
    (∃ elf', deleteRel elf = .ok elf' ∧ SymbolsKeepSections elf elf') ↔
      ReservedBelowRel elf ∧ Deletable elf := by
  have h := load_loaded hload
  have first : ∀ s, elf.sectHeader[0]? = some s → s.isRel = false := by
    intro s hs
    simp [Elf32Shdr.isRel, null s hs, shtRel]
  constructor
  · rintro ⟨elf', run, symbols⟩
    obtain ⟨deletable, w, removes, represents⟩ := h.deleteRel_returned (load_matched hload) run
    refine ⟨?_, deletable⟩
    intro j sym hj reserved i s hi hs
    obtain ⟨sym', hj', kept⟩ := symbols j sym hj
    rw [represents.symTable] at hj'
    by_contra hrel
    obtain ⟨c, hc⟩ := h.section_of_head hs
    have smaller := (removes_stShndx_lt removes (by simp) (fun t ht => keep_of_not_rel
      (first t.1 (viewOf_getElem?.mp ht).1)) hj hj').2 i (s, c) hi hc
      (keep_eq_false (by simpa using hrel))
    rw [kept.special (Or.inr reserved)] at smaller
    exact Nat.lt_irrefl _ smaller
  · rintro ⟨below, deletable⟩
    obtain ⟨elf', w, run, removes, represents⟩ := h.deleteRel_run (load_matched hload) deletable
    refine ⟨elf', run, ?_⟩
    intro j sym hj
    obtain ⟨sym', hj', _⟩ := removes_symbol removes (by simp) hj
    refine ⟨sym', represents.symTable ▸ hj', ?_⟩
    exact removes_keepsSection h removes hj hj' first (below j sym hj)

end symbols

def absoluteSymbol : Elf32Sym := ⟨0, 0, 0, 0, 0, 0xfff1⟩

def absoluteSections : List Elf32Shdr :=
  [objectShdr 0 0 0 0 0 0, objectShdr 0 shtRel 52 8 2 0, objectShdr 0 shtSymtab 60 16 0 0]

/-- An object file with a relocation section and a symbol of index `SHN_ABS`. -/
def absoluteFile : List UInt8 :=
  assemble (objectHeader 76 3 0) (List.replicate 8 0 ++ symBytes absoluteSymbol) absoluteSections

def absoluteElf : Elf32Main where
  header := objectHeader 76 3 0
  sectHeader := absoluteSections
  symTable := [absoluteSymbol]
  relTable := [[⟨0, 0⟩]]
  sectionContent := [⟨0, []⟩, ⟨8, List.replicate 8 0⟩, ⟨16, symBytes absoluteSymbol⟩]
  tabSecRel := ⟨[1], 1⟩
  nbSymboles := 1

theorem load_absoluteFile : load absoluteFile = .ok (absoluteElf, ⟨absoluteFile, 76⟩) := by
  decide +kernel

theorem absoluteElf_null : ∀ s, absoluteElf.sectHeader[0]? = some s → s.shType = 0 := by
  intro s hs
  cases hs
  rfl

theorem deleteRel_symbols_absoluteFile :
    (∃ elf', deleteRel absoluteElf = .ok elf' ∧ SymbolsKeepSections absoluteElf elf') ↔
      ReservedBelowRel absoluteElf ∧ Deletable absoluteElf :=
  deleteRel_symbols load_absoluteFile absoluteElf_null

/-- The absolute symbol comes out with index `0xfff0`. -/
theorem deleteRel_absolute_symbol :
    ∃ elf f, load absoluteFile = .ok (elf, f) ∧
      (∀ s, elf.sectHeader[0]? = some s → s.shType = 0) ∧
      ¬∃ elf', deleteRel elf = .ok elf' ∧ SymbolsKeepSections elf elf' := by
  refine ⟨absoluteElf, _, load_absoluteFile, absoluteElf_null, ?_⟩
  rintro ⟨elf', run, symbols⟩
  have after : (deleteRel absoluteElf).map (fun e => e.symTable) =
      .ok [{ absoluteSymbol with stShndx := 0xfff0 }] := by decide
  rw [run] at after
  have table : elf'.symTable = [{ absoluteSymbol with stShndx := 0xfff0 }] := Except.ok.inj after
  obtain ⟨sym', hj', kept⟩ := symbols 0 absoluteSymbol rfl
  rw [table] at hj'
  cases Option.some.inj hj'
  have same := kept.special (Or.inr (by decide))
  revert same
  decide

/-- The sections whose `sh_link` the ELF specification makes a section index. -/
def linksSection (s : Elf32Shdr) : Bool :=
  [shtSymtab, shtDynsym, shtDynamic, shtHash, shtRela, shtGroup, shtSymtabShndx,
    shtArmExidx].contains s.shType || s.shFlags &&& shfLinkOrder != 0

/-- Every reference from the header or from a section that stays to a section that stays holds
the new index of the section it designated. -/
structure ReferencesKept (elf elf' : Elf32Main) : Prop where
  shstrndx : ∀ t, elf.sectHeader[elf.header.eShstrndx.toNat]? = some t → t.isRel = false →
    elf'.header.eShstrndx.toNat =
      newIndex Elf32Shdr.kept elf.sectHeader elf.header.eShstrndx.toNat
  link : ∀ (k : Nat) (s t : Elf32Shdr), elf.sectHeader[k]? = some s → s.isRel = false →
    linksSection s = true → elf.sectHeader[s.shLink.toNat]? = some t → t.isRel = false →
    ∃ s', elf'.sectHeader[newIndex Elf32Shdr.kept elf.sectHeader k]? = some s' ∧
      s'.shLink.toNat = newIndex Elf32Shdr.kept elf.sectHeader s.shLink.toNat
  info : ∀ (k : Nat) (s t : Elf32Shdr), elf.sectHeader[k]? = some s → s.shType = shtRela →
    elf.sectHeader[s.shInfo.toNat]? = some t → t.isRel = false →
    ∃ s', elf'.sectHeader[newIndex Elf32Shdr.kept elf.sectHeader k]? = some s' ∧
      s'.shInfo.toNat = newIndex Elf32Shdr.kept elf.sectHeader s.shInfo.toNat

/-- No reference from the header or from a section that stays designates a relocation section. -/
structure NoRelReference (elf : Elf32Main) : Prop where
  shstrndx : ∀ t, elf.sectHeader[elf.header.eShstrndx.toNat]? = some t → t.isRel = false
  link : ∀ s ∈ elf.sectHeader, s.isRel = false → linksSection s = true →
    ∀ t, elf.sectHeader[s.shLink.toNat]? = some t → t.isRel = false
  info : ∀ s ∈ elf.sectHeader, s.shType = shtRela →
    ∀ t, elf.sectHeader[s.shInfo.toNat]? = some t → t.isRel = false

/-- The references that the program leaves as they are lie before every relocation section. -/
structure MissedBelowRel (elf : Elf32Main) : Prop where
  link : ∀ (k : Nat) (s t : Elf32Shdr), elf.sectHeader[k]? = some s → s.isRel = false →
    linksSection s = true → linkCondition s.shType = false →
    elf.sectHeader[s.shLink.toNat]? = some t → t.isRel = false →
    ∀ (i : Nat) (r : Elf32Shdr), i < s.shLink.toNat → elf.sectHeader[i]? = some r →
      r.isRel = false
  info : ∀ (k : Nat) (s t : Elf32Shdr), elf.sectHeader[k]? = some s → s.shType = shtRela →
    elf.sectHeader[s.shInfo.toNat]? = some t → t.isRel = false →
    ∀ (i : Nat) (r : Elf32Shdr), i < s.shInfo.toNat → elf.sectHeader[i]? = some r →
      r.isRel = false

section references

variable {elf elf' : Elf32Main}

theorem newIndex_kept_eq_self_iff {x : Nat} :
    newIndex Elf32Shdr.kept elf.sectHeader x = x ↔
      ∀ (i : Nat) (r : Elf32Shdr), i < x → elf.sectHeader[i]? = some r → r.isRel = false := by
  rw [newIndex_eq_self_iff]
  constructor
  · intro h i r hi hr
    simpa [Elf32Shdr.kept] using h i r hi hr
  · intro h i r hi hr
    simpa [Elf32Shdr.kept] using h i r hi hr

/-- The header of a section that stays, after the deletion. -/
theorem removes_head (h : Loaded elf) {w : View} (removes : Removes 0 (viewOf elf) w)
    (represents : Represents elf' w) {k : Nat} {s : Elf32Shdr} (hs : elf.sectHeader[k]? = some s)
    (hrel : s.isRel = false) :
    ∃ s', elf'.sectHeader[newIndex Elf32Shdr.kept elf.sectHeader k]? = some s' ∧
      s'.shInfo = s.shInfo ∧ s'.shLink.toNat = if linkCondition s.shType then
        newIndex Elf32Shdr.kept elf.sectHeader s.shLink.toNat else s.shLink.toNat := by
  obtain ⟨c, hc⟩ := h.section_of_head hs
  have hkeep : keep (s, c) = true := keep_of_not_rel hrel
  obtain ⟨s', hs', stable⟩ := removes_getElem? removes (by simp) hc hkeep
  have link := removes_shLink removes (by simp) hc hkeep hs'
  rw [h.newIndex_eq] at hs' link
  obtain ⟨_, _, _, _, info⟩ := stable_fields stable
  exact ⟨s'.1, fetch_eq_ok.mp (represents.fetch_head hs'), info, link⟩

theorem rela_not_rel {s : Elf32Shdr} (h : s.shType = shtRela) : s.isRel = false := by
  simp [Elf32Shdr.isRel, h, shtRela, shtRel]

/-- The deletion returns and keeps every reference exactly when those of the types its link
correction leaves out, and the `sh_info` of `SHT_RELA` sections, lie before the deleted sections, and
the contents can be moved. -/
theorem deleteRel_references {file : List UInt8} {f : CFile} (hload : load file = .ok (elf, f)) :
    (∃ elf', deleteRel elf = .ok elf' ∧ ReferencesKept elf elf') ↔
      MissedBelowRel elf ∧ Deletable elf := by
  have h := load_loaded hload
  constructor
  · rintro ⟨elf', run, references⟩
    obtain ⟨deletable, w, removes, represents⟩ := h.deleteRel_returned (load_matched hload) run
    refine ⟨⟨?_, ?_⟩, deletable⟩
    · intro k s t hs hrel hlinks missed ht htrel
      obtain ⟨s', hs', hlink⟩ := references.link k s t hs hrel hlinks ht htrel
      obtain ⟨s'', hs'', _, same⟩ := removes_head h removes represents hs hrel
      cases Option.some.inj (hs'.symm.trans hs'')
      rw [missed, if_neg (by decide)] at same
      exact newIndex_kept_eq_self_iff.mp (hlink.symm.trans same)
    · intro k s t hs hrela ht htrel
      obtain ⟨s', hs', hinfo⟩ := references.info k s t hs hrela ht htrel
      obtain ⟨s'', hs'', same, _⟩ := removes_head h removes represents hs (rela_not_rel hrela)
      cases Option.some.inj (hs'.symm.trans hs'')
      rw [same] at hinfo
      exact newIndex_kept_eq_self_iff.mp hinfo.symm
  · rintro ⟨missedBelow, deletable⟩
    obtain ⟨elf', w, run, removes, represents⟩ := h.deleteRel_run (load_matched hload) deletable
    refine ⟨elf', run, ?_, ?_, ?_⟩
    · intro t _ _
      rw [represents.header, removes_eShstrndx removes (by simp), h.newIndex_eq]
      rfl
    · intro k s t hs hrel hlinks ht htrel
      obtain ⟨s', hs', _, hlink⟩ := removes_head h removes represents hs hrel
      refine ⟨s', hs', ?_⟩
      rw [hlink]
      by_cases corrected : linkCondition s.shType = true
      · rw [if_pos corrected]
      · rw [if_neg corrected]
        have missed : linkCondition s.shType = false := by simpa using corrected
        exact (newIndex_kept_eq_self_iff.mpr
          (missedBelow.link k s t hs hrel hlinks missed ht htrel)).symm
    · intro k s t hs hrela ht htrel
      obtain ⟨s', hs', hinfo, _⟩ := removes_head h removes represents hs (rela_not_rel hrela)
      refine ⟨s', hs', ?_⟩
      rw [hinfo]
      exact (newIndex_kept_eq_self_iff.mpr (missedBelow.info k s t hs hrela ht htrel)).symm

end references

def unwindSections : List Elf32Shdr :=
  [objectShdr 0 0 0 0 0 0, objectShdr 0 shtRel 52 8 0 2, objectShdr 0 1 60 4 0 0,
    objectShdr 0 shtArmExidx 64 8 2 0]

/-- An object file with a relocation section before a text section and its unwind table. -/
def unwindFile : List UInt8 :=
  assemble (objectHeader 72 4 0) (List.replicate 20 0) unwindSections

def unwindElf : Elf32Main where
  header := objectHeader 72 4 0
  sectHeader := unwindSections
  symTable := []
  relTable := [[⟨0, 0⟩]]
  sectionContent := [⟨0, []⟩, ⟨8, List.replicate 8 0⟩, ⟨4, List.replicate 4 0⟩,
    ⟨8, List.replicate 8 0⟩]
  tabSecRel := ⟨[1], 1⟩
  nbSymboles := -1

theorem load_unwindFile : load unwindFile = .ok (unwindElf, ⟨unwindFile, 72⟩) := by
  decide +kernel

theorem deleteRel_references_unwindFile :
    (∃ elf', deleteRel unwindElf = .ok elf' ∧ ReferencesKept unwindElf elf') ↔
      MissedBelowRel unwindElf ∧ Deletable unwindElf :=
  deleteRel_references load_unwindFile

/-- The unwind table comes out linked to itself instead of to the text section. -/
theorem deleteRel_unwind_link :
    ∃ elf f, load unwindFile = .ok (elf, f) ∧ NoRelReference elf ∧
      ¬∃ elf', deleteRel elf = .ok elf' ∧ ReferencesKept elf elf' := by
  refine ⟨unwindElf, _, load_unwindFile, ⟨by decide, by decide, by decide⟩, ?_⟩
  rintro ⟨elf', run, references⟩
  have after : (deleteRel unwindElf).map (fun e => (e.sectHeader[2]?.map fun s => s.shLink)) =
      .ok (some 2) := by decide
  rw [run] at after
  have linked : (elf'.sectHeader[2]?.map fun s => s.shLink) = some 2 := Except.ok.inj after
  obtain ⟨s', hs', link⟩ := references.link 3 _ _ rfl rfl rfl rfl rfl
  have index : newIndex Elf32Shdr.kept unwindElf.sectHeader 3 = 2 := by decide
  have target : newIndex Elf32Shdr.kept unwindElf.sectHeader 2 = 1 := by decide
  rw [index] at hs'
  rw [hs'] at linked
  have two : s'.shLink = 2 := Option.some.inj linked
  rw [two] at link
  exact absurd (link.trans target) (by decide)

end ArmRunner
