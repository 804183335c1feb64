import ArmRunner.Encode
import ArmRunner.LoadContent
import ArmRunner.LoadTables

namespace ArmRunner

open CRun Slice

/-- The section takes bytes of the file. -/
def Elf32Shdr.inFile (s : Elf32Shdr) : Prop := s.shSize ≠ 0 ∧ s.shType ≠ shtNobits

instance (s : Elf32Shdr) : Decidable s.inFile := inferInstanceAs (Decidable (_ ∧ _))

def Elf32Shdr.stop (s : Elf32Shdr) : Nat := s.shOffset.toNat + s.shSize.toNat

/-- A big-endian ELF32 file whose sections lie in the file, apart from each other, from the
header and from the section header table. -/
@[mk_iff]
structure WellFormed (file : List UInt8) : Prop where
  magic : magicElf (headerOf file).eIdent
  class32 : (headerOf file).eIdent.eiClass = 1
  bigEndian : (headerOf file).eIdent.eiData = 2
  shentsize : (headerOf file).eShentsize = 40
  header : 52 ≤ file.length
  table : (headerOf file).eShoff.toNat + 40 * (headerOf file).eShnum.toNat ≤ file.length
  inside : ∀ s ∈ sectionsOf file, s.inFile → s.stop ≤ file.length
  behindHeader : ∀ s ∈ sectionsOf file, s.inFile → 52 ≤ s.shOffset.toNat
  besideTable : ∀ s ∈ sectionsOf file, s.inFile → s.stop ≤ (headerOf file).eShoff.toNat ∨
    (headerOf file).eShoff.toNat + 40 * (headerOf file).eShnum.toNat ≤ s.shOffset.toNat
  apart : ∀ j < (sectionsOf file).length, ∀ i < j, ∀ s ∈ (sectionsOf file)[i]?,
    ∀ t ∈ (sectionsOf file)[j]?, s.inFile → t.inFile →
    s.stop ≤ t.shOffset.toNat ∨ t.stop ≤ s.shOffset.toNat

instance (file : List UInt8) : Decidable (WellFormed file) :=
  decidable_of_iff _ (wellFormed_iff file).symm

/-- The bytes from the start of the section to `e` exist, and hold the section if it takes bytes
of the file; then they are also few enough for an `int`. -/
def HeldUpTo (file : List UInt8) (s : Elf32Shdr) (e : Nat) : Prop :=
  e ≤ file.length ∧ (s.inFile → s.stop ≤ e ∧ e < s.shOffset.toNat + 2 ^ 31)

/-- The last section starts before the section header table, which is behind its end; the other
case, a table that starts 4 GiB too early, takes a file of that length. -/
def LastHeld (file : List UInt8) (s : Elf32Shdr) : Prop :=
  (s.shOffset.toNat < (headerOf file).eShoff.toNat ∧
      HeldUpTo file s (headerOf file).eShoff.toNat) ∨
    ((headerOf file).eShoff.toNat < s.shOffset.toNat ∧
      HeldUpTo file s ((headerOf file).eShoff.toNat + 2 ^ 32))

/-- The section `t` behind `s` in the table starts above `s`, some offset above that of `s` is
near enough and in the file, and no offset of the table lies inside `s`. -/
def InnerHeld (file : List UInt8) (s t : Elf32Shdr) : Prop :=
  (s.shOffset.toNat < t.shOffset.toNat ∧
      (∃ p ∈ offsets (sectionsOf file), s.shOffset.toNat < p ∧ p ≤ file.length ∧
        p < s.shOffset.toNat + 2 ^ 31) ∧
      (s.inFile → ∀ p ∈ offsets (sectionsOf file), s.shOffset.toNat < p → s.stop ≤ p)) ∨
    (t.shOffset.toNat < s.shOffset.toNat ∧
      t.shOffset.toNat + 2 ^ 32 < s.shOffset.toNat + 2 ^ 31 ∧
      HeldUpTo file s (t.shOffset.toNat + 2 ^ 32))

/-- Each section of the table with a size, `SHT_NOBITS` included, is followed by what the search
for its end needs. -/
def SectionsHeld (file : List UInt8) : Prop :=
  ∀ (i : Nat) (s : Elf32Shdr), (sectionsOf file)[i]? = some s → s.shSize ≠ 0 →
    ((sectionsOf file)[i + 1]? = none → LastHeld file s) ∧
    ∀ t, (sectionsOf file)[i + 1]? = some t →
      if s.isRel then s.shSize.toNat < 2 ^ 31 else InnerHeld file s t

/-- Every section that takes bytes of the file is loaded with at least these bytes. -/
def ContentsLoaded (file : List UInt8) (content : List SectionContent) : Prop :=
  ∀ (i : Nat) (s : Elf32Shdr), (sectionsOf file)[i]? = some s → s.inFile →
    ∃ c, content[i]? = some c ∧ (s.shSize.toNat : Int) ≤ c.size ∧
      c.sectionBytes.take s.shSize.toNat = slice file s.shOffset.toNat s.stop

section held

variable {file : List UInt8} {i : Nat} {s t : Elf32Shdr}

/-- What the loading of section `i` needs, in terms of the number of bytes taken for it. -/
def Taken (file : List UInt8) (i : Nat) (s : Elf32Shdr) : Prop :=
  Readable file (headerOf file) (sectionsOf file) i s ∧
    (s.inFile → s.shSize.toNat ≤ extent (headerOf file) (sectionsOf file) i s ∧
      extent (headerOf file) (sectionsOf file) i s < 2 ^ 31)

theorem taken_last (last : (sectionsOf file)[i + 1]? = none) :
    Taken file i s ↔ LastHeld file s := by
  have hi : ¬i + 1 < (headerOf file).eShnum.toNat := by
    have := List.getElem?_eq_none_iff.mp last
    rw [sectionsOf_length] at this
    omega
  have value : extent (headerOf file) (sectionsOf file) i s =
      span s.shOffset.toNat (headerOf file).eShoff.toNat := by
    rw [extent, if_neg hi]
  have hs := s.shOffset.toNat_lt
  have ht := (headerOf file).eShoff.toNat_lt
  simp only [Taken, LastHeld, HeldUpTo, readable_last hi, value, Elf32Shdr.stop, span]
  by_cases kind : s.inFile
  · simp only [kind, forall_const]
    split <;> omega
  · simp only [kind, false_implies, and_true]
    split <;> omega

theorem taken_rel (wf : WellFormed file) (hs : (sectionsOf file)[i]? = some s)
    (ht : (sectionsOf file)[i + 1]? = some t) (nonempty : s.shSize ≠ 0) (hrel : s.isRel = true) :
    Taken file i s ↔ s.shSize.toNat < 2 ^ 31 := by
  have hi : i + 1 < (headerOf file).eShnum.toNat := by
    rw [← sectionsOf_length]
    exact (List.getElem?_eq_some_iff.mp ht).1
  have value : extent (headerOf file) (sectionsOf file) i s = s.shSize.toNat := by
    rw [extent, if_pos hi, if_pos hrel]
  have positive : 0 < s.shSize.toNat :=
    UInt32.lt_iff_toNat_lt.mp (UInt32.pos_iff_ne_zero.mpr nonempty)
  have kind : s.inFile := by
    refine ⟨nonempty, ?_⟩
    intro nobits
    simp [Elf32Shdr.isRel, nobits, shtNobits, shtRel] at hrel
  have inside := wf.inside s (List.mem_of_getElem? hs) kind
  constructor
  · intro h
    exact value ▸ h.1.small hi
  · intro small
    refine ⟨⟨?_, ?_, ?_⟩, ?_⟩
    · rwa [value]
    · rwa [value]
    · intro _
      rwa [value]
    · intro _
      rw [value]
      exact ⟨Nat.le_refl _, small⟩

theorem taken_inner (ht : (sectionsOf file)[i + 1]? = some t) (hrel : s.isRel = false) :
    Taken file i s ↔ InnerHeld file s t := by
  have hi : i + 1 < (headerOf file).eShnum.toNat := by
    rw [← sectionsOf_length]
    exact (List.getElem?_eq_some_iff.mp ht).1
  have bound := s.shOffset.toNat_lt
  have bound' := t.shOffset.toNat_lt
  have value : extent (headerOf file) (sectionsOf file) i s = span s.shOffset.toNat
      (follower (sectionsOf file) s.shOffset.toNat t.shOffset.toNat) := by
    rw [extent, if_pos hi, hrel, if_neg (by decide), ht]
    rfl
  rw [Taken, InnerHeld, readable_inner hi]
  by_cases above : s.shOffset.toNat < t.shOffset.toNat
  · obtain ⟨⟨hmem, hlt⟩, least⟩ := follower_isLeast above
      (List.mem_map_of_mem (List.mem_of_getElem? ht))
    have size : extent (headerOf file) (sectionsOf file) i s =
        follower (sectionsOf file) s.shOffset.toNat t.shOffset.toNat - s.shOffset.toNat := by
      rw [value, span, if_pos (Nat.le_of_lt hlt)]
    rw [size]
    constructor
    · rintro ⟨⟨_, fits, small⟩, holds⟩
      refine Or.inl ⟨above, ⟨_, hmem, hlt, by omega, by omega⟩, ?_⟩
      intro kind p hp hsp
      have := (holds kind).1
      have := least ⟨hp, hsp⟩
      unfold Elf32Shdr.stop
      omega
    · rintro (⟨_, ⟨p, hp, hsp, fits, small⟩, clear⟩ | ⟨below, _⟩)
      · have le := least ⟨hp, hsp⟩
        refine ⟨by omega, ?_⟩
        intro kind
        have := clear kind _ hmem hlt
        unfold Elf32Shdr.stop at this
        omega
      · omega
  · have size : extent (headerOf file) (sectionsOf file) i s =
        span s.shOffset.toNat t.shOffset.toNat := by
      rw [value, follower, if_neg above]
    simp only [size, span, HeldUpTo, Elf32Shdr.stop, above, false_and, false_or]
    by_cases kind : s.inFile
    · simp only [kind, forall_const]
      split <;> omega
    · simp only [kind, false_implies, and_true]
      split <;> omega

theorem taken_iff_held (wf : WellFormed file) :
    (∀ i s, (sectionsOf file)[i]? = some s → s.shSize ≠ 0 → Taken file i s) ↔
      SectionsHeld file := by
  constructor
  · intro taken i s hs nonempty
    refine ⟨fun last => (taken_last last).mp (taken i s hs nonempty), ?_⟩
    intro t ht
    cases hrel : s.isRel with
    | true => exact (taken_rel wf hs ht nonempty hrel).mp (taken i s hs nonempty)
    | false => exact (taken_inner ht hrel).mp (taken i s hs nonempty)
  · intro held i s hs nonempty
    obtain ⟨last, inner⟩ := held i s hs nonempty
    cases ht : (sectionsOf file)[i + 1]? with
    | none => exact (taken_last ht).mpr (last ht)
    | some t =>
      have here := inner t ht
      cases hrel : s.isRel with
      | true =>
        rw [hrel, if_pos rfl] at here
        exact (taken_rel wf hs ht nonempty hrel).mpr here
      | false =>
        rw [hrel, if_neg (by decide)] at here
        exact (taken_inner ht hrel).mpr here

/-- The content loaded for a section holds the section's bytes exactly when enough bytes, but
not too many for an `int`, are taken for it. -/
theorem contentAt_holds (kind : s.inFile) (hs : (sectionsOf file)[i]? = some s) :
    (s.shSize.toNat ≤ extent (headerOf file) (sectionsOf file) i s ∧
        extent (headerOf file) (sectionsOf file) i s < 2 ^ 31) ↔
      (s.shSize.toNat : Int) ≤ (contentAt file (headerOf file) (sectionsOf file) i s).size := by
  obtain ⟨amount, hamount⟩ := extent_word (sectionsOf_length file) hs
  have positive : 0 < s.shSize.toNat :=
    UInt32.lt_iff_toNat_lt.mp (UInt32.pos_iff_ne_zero.mpr kind.1)
  rw [contentAt, if_neg kind.1, ← hamount, UInt32.ofNat_toNat]
  change _ ↔ (s.shSize.toNat : Int) ≤ asInt amount
  have sign := asInt_nonneg_iff (x := amount)
  constructor
  · rintro ⟨fits, small⟩
    rw [asInt_of_lt small]
    omega
  · intro holds
    have small := sign.mp (by omega)
    rw [asInt_of_lt small] at holds
    omega

end held

/-- For a well-formed file, wherever the stream stands, the loaders return with every section's
bytes exactly when the sections are held apart as the search for their ends needs it. -/
theorem loadSectionContent_wellFormed {file : List UInt8} (wf : WellFormed file) (p : Nat) :
    (∃ header f1 tab f2 content f', loadHeader (CFile.openRead file) = .ok (header, f1) ∧
      readTabSectionHeader f1 header = .ok (some tab, f2) ∧
      loadSectionContent ⟨file, p⟩ header tab = .ok (content, f') ∧
      ContentsLoaded file content) ↔ SectionsHeld file := by
  have full := sectionsOf_length file
  have head := loadHeader_at wf.header wf.magic wf.class32
  have tables := readTabSectionHeader_at (p := 52) wf.table
  rw [← taken_iff_held wf]
  constructor
  · rintro ⟨header, f1, tab, f2, content, f', hheader, htab, hcontent, loaded⟩
    rw [head] at hheader
    cases hheader
    rw [tables] at htab
    cases htab
    intro i s hs nonempty
    obtain ⟨readable, value⟩ := loadSectionContent_returned full hcontent hs
    refine ⟨readable nonempty, ?_⟩
    intro kind
    obtain ⟨c, hc, holds, _⟩ := loaded i s hs kind
    cases Option.some.inj (value.symm.trans hc)
    exact (contentAt_holds kind hs).mpr holds
  · intro taken
    obtain ⟨content, f', hcontent, _⟩ := loadSectionContent_returns (f := ⟨file, p⟩) full
      (fun i s hs nonempty => (taken i s hs nonempty).1)
    refine ⟨_, _, _, _, content, f', head, tables, hcontent, ?_⟩
    intro i s hs kind
    obtain ⟨_, value⟩ := loadSectionContent_returned full hcontent hs
    obtain ⟨_, holds⟩ := taken i s hs kind.1
    refine ⟨_, value, (contentAt_holds kind hs).mp (holds kind), ?_⟩
    rw [contentAt, if_neg kind.1]
    exact slice_take (by have := (holds kind).1; omega)

def bssSections : List Elf32Shdr :=
  [objectShdr 0 0 0 0 0 0, objectShdr 0 shtNobits 52 4 0 0, objectShdr 0 1 52 4 0 0]

/-- An object file whose `SHT_NOBITS` section has the offset of the section behind it. -/
def bssFile : List UInt8 := assemble (objectHeader 56 3 0) [1, 2, 3, 4] bssSections

theorem bssFile_wellFormed : WellFormed bssFile := by
  decide +kernel

theorem loadSectionContent_wellFormed_bssFile :
    (∃ header f1 tab f2 content f', loadHeader (CFile.openRead bssFile) = .ok (header, f1) ∧
      readTabSectionHeader f1 header = .ok (some tab, f2) ∧
      loadSectionContent ⟨bssFile, 52⟩ header tab = .ok (content, f') ∧
      ContentsLoaded bssFile content) ↔ SectionsHeld bssFile :=
  loadSectionContent_wellFormed bssFile_wellFormed 52

/-- The distance to the next offset comes out as 0 for the `SHT_NOBITS` section, and the program
exits when it reads no bytes. -/
theorem loadSectionContent_bss :
    WellFormed bssFile ∧ load bssFile = .error .exit ∧
      ¬∃ header f1 tab f2 content f', loadHeader (CFile.openRead bssFile) = .ok (header, f1) ∧
        readTabSectionHeader f1 header = .ok (some tab, f2) ∧
        loadSectionContent ⟨bssFile, 52⟩ header tab = .ok (content, f') ∧
        ContentsLoaded bssFile content := by
  refine ⟨bssFile_wellFormed, by decide +kernel, ?_⟩
  rintro ⟨header, f1, tab, f2, content, f', hheader, htab, hcontent, _⟩
  have head := loadHeader_at bssFile_wellFormed.header bssFile_wellFormed.magic
    bssFile_wellFormed.class32
  rw [head] at hheader
  cases hheader
  have tables := readTabSectionHeader_at (p := 52) bssFile_wellFormed.table
  rw [tables] at htab
  cases htab
  have run : loadSectionContent ⟨bssFile, 52⟩ (headerOf bssFile) (sectionsOf bssFile) =
      .error .exit := by decide
  rw [run] at hcontent
  cases hcontent

end ArmRunner
