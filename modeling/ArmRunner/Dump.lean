import ArmRunner.Lib.Wire
import ArmRunner.Encode
import ArmRunner.LoadContent
import ArmRunner.PrintReloc

namespace ArmRunner

open CRun Wire

/-- `section[j]`, for an index below the size that was recorded for the content. -/
def SectionContent.byteAt (c : SectionContent) (j : Nat) : Run UInt8 :=
  if (j : Int) < c.size then fetch c.sectionBytes j else .error .fault

/-- What stands between two bytes: there are four in a group and sixteen in a line. -/
def dumpSeparator (j : Nat) : List UInt8 :=
  if j % 16 = 0 ∧ j ≠ 0 then charBytes "\n"
  else if j % 4 = 0 ∧ j ≠ 0 then charBytes " "
  else []

/-- The loop over the bytes of a section, with a `count` that it reads again at each test. -/
def dumpBytes (elf : Elf32Main) (i : Int) (count : Nat) (out : List UInt8) : Run (List UInt8) :=
  forLoop (fun j out => do
    let content ← fetchInt elf.sectionContent i
    let byte ← content.byteAt j
    .ok (out ++ dumpSeparator j ++ hexDigits 2 byte.toNat)) 0 count out

def dumpTitle (i size : Int) : List UInt8 :=
  charBytes "Section " ++ charBytes (toString i) ++ charBytes ": " ++ charBytes (toString size) ++
    charBytes "\n"

def printSectionContent (elf : Elf32Main) : Run (List UInt8) :=
  forLoop (fun i out => do
    let content ← fetchInt elf.sectionContent i
    let out := out ++ dumpTitle i content.size
    let s ← fetchInt elf.sectHeader i
    let out ← dumpBytes elf i s.shSize.toNat out
    .ok (out ++ charBytes "\n\n")) 0 elf.header.eShnum.toNat []

def printSectionContentOne (elf : Elf32Main) (noSection : Int) : Run (List UInt8) :=
  if noSection ≥ elf.header.eShnum.toNat then .ok (charBytes "dump.")
  else do
    let content ← fetchInt elf.sectionContent noSection
    let out := dumpTitle noSection content.size
    let s ← fetchInt elf.sectHeader noSection
    let out ←
      if s.shSize = 0 then .ok (out ++ charBytes "no data to dump.")
      else dumpBytes elf noSection s.shSize.toNat out
    .ok (out ++ charBytes "\n\n")

/-- The bytes that the loader takes for a section cover it, and are few enough for an `int`. -/
def Covered (elf : Elf32Main) (i : Nat) : Prop :=
  ∀ s ∈ elf.sectHeader[i]?, s.shSize ≠ 0 →
    s.shSize.toNat ≤ extent elf.header elf.sectHeader i s ∧
    extent elf.header elf.sectHeader i s < 2 ^ 31

section dump

variable {file : List UInt8} {elf : Elf32Main} {f : CFile} {c : SectionContent}

/-- Dump of all of a content's first `count` bytes: the loop stays inside exactly when these are
there. -/
theorem dumpBytes_returns {i : Int} (hc : fetchInt elf.sectionContent i = .ok c)
    (sized : c.Filled ∨ c.size < 0) (count : Nat) (out : List UInt8) :
    (∃ out', dumpBytes elf i count out = .ok out') ↔ count = 0 ∨ (count : Int) ≤ c.size := by
  have turn (j : Nat) (out : List UInt8) : (∃ out', (do
      let content ← fetchInt elf.sectionContent i
      let byte ← content.byteAt j
      .ok (out ++ dumpSeparator j ++ hexDigits 2 byte.toNat) : Run (List UInt8)) = .ok out') ↔
        (j : Int) < c.size := by
    rw [hc, ok_bind, bind_returns fun _ => ⟨_, rfl⟩, SectionContent.byteAt]
    by_cases inside : (j : Int) < c.size
    · rw [if_pos inside, fetch_returns]
      refine iff_of_true ?_ inside
      rcases sized with filled | negative
      · rw [SectionContent.Filled] at filled
        omega
      · omega
    · rw [if_neg inside]
      simp [inside]
  rw [dumpBytes, forLoop_returns_iff turn]
  constructor
  · intro each
    by_cases none : count = 0
    · exact Or.inl none
    · have last := each (count - 1) (Nat.zero_le _) (by omega)
      exact Or.inr (by omega)
  · intro room j _ hj
    rcases room with none | covered
    · omega
    · omega

/-- In the terms of the offsets: what the loader has recorded for section `i`. -/
theorem covered_iff (h : load file = .ok (elf, f)) {i : Nat} {s : Elf32Shdr}
    (hs : elf.sectHeader[i]? = some s) : ∃ c, elf.sectionContent[i]? = some c ∧
      (c.Filled ∨ c.size < 0) ∧
      (Covered elf i ↔ s.shSize.toNat = 0 ∨ (s.shSize.toNat : Int) ≤ c.size) := by
  have loaded := load_loaded h
  have full := loaded.heads
  obtain ⟨f1, f2, f3, f4, tab, -, -, -, -, -, hcontent⟩ := load_eq_ok h
  obtain ⟨-, value⟩ := loadSectionContent_returned full hcontent hs
  refine ⟨_, value, loaded.sized _ (List.mem_of_getElem? value), ?_⟩
  have covered : Covered elf i ↔ (s.shSize ≠ 0 →
      s.shSize.toNat ≤ extent elf.header elf.sectHeader i s ∧
        extent elf.header elf.sectHeader i s < 2 ^ 31) := by
    simp only [Covered, hs, Option.mem_def, Option.some.injEq, forall_eq']
  rw [covered]
  by_cases empty : s.shSize = 0
  · simp [empty]
  · have positive : 0 < s.shSize.toNat :=
      UInt32.lt_iff_toNat_lt.mp (UInt32.pos_iff_ne_zero.mpr empty)
    obtain ⟨amount, size⟩ := extent_word full hs
    rw [contentAt, if_neg empty, ← size, UInt32.ofNat_toNat]
    simp only [empty, ne_eq, not_false_eq_true, forall_const]
    by_cases small : amount.toNat < 2 ^ 31
    · rw [asInt_of_lt small]
      omega
    · have negative := @asInt_nonneg_iff amount
      omega

theorem printOne_returns (h : load file = .ok (elf, f)) (noSection : Int) :
    (∃ out, printSectionContentOne elf noSection = .ok out) ↔
      (elf.header.eShnum.toNat : Int) ≤ noSection ∨
        0 ≤ noSection ∧ Covered elf noSection.toNat := by
  have full := (load_loaded h).heads
  by_cases beyond : (elf.header.eShnum.toNat : Int) ≤ noSection
  · rw [printSectionContentOne, if_pos beyond]
    exact iff_of_true ⟨_, rfl⟩ (Or.inl beyond)
  rw [printSectionContentOne, if_neg beyond]
  by_cases negative : noSection < 0
  · have outside : fetchInt elf.sectionContent noSection = .error .fault := if_neg (by omega)
    rw [outside, error_bind]
    refine iff_of_false (by simp) ?_
    omega
  · obtain ⟨i, rfl⟩ := Int.eq_ofNat_of_zero_le (by omega : 0 ≤ noSection)
    have hs : elf.sectHeader[i]? = some elf.sectHeader[i] := List.getElem?_eq_getElem (by omega)
    obtain ⟨c, hc, sized, covered⟩ := covered_iff h hs
    have content : fetchInt elf.sectionContent i = .ok c := by
      rw [fetchInt_natCast, fetch_eq_ok.mpr hc]
    rw [content, ok_bind, fetchInt_natCast, fetch_eq_ok.mpr hs, ok_bind]
    rw [Int.toNat_natCast, covered]
    by_cases empty : elf.sectHeader[i].shSize = 0
    · rw [if_pos empty]
      refine iff_of_true ⟨_, rfl⟩ (Or.inr ⟨by omega, Or.inl ?_⟩)
      rw [empty]
      rfl
    · simp only [if_neg empty]
      rw [bind_returns fun _ => ⟨_, rfl⟩, dumpBytes_returns content sized]
      omega

theorem printAll_returns (h : load file = .ok (elf, f)) :
    (∃ out, printSectionContent elf = .ok out) ↔
      ∀ i < elf.header.eShnum.toNat, Covered elf i := by
  have loaded := load_loaded h
  have full := loaded.heads
  have turn (i : Nat) (out : List UInt8) : (∃ out', (do
      let content ← fetchInt elf.sectionContent i
      let out := out ++ dumpTitle i content.size
      let s ← fetchInt elf.sectHeader i
      let out ← dumpBytes elf i s.shSize.toNat out
      .ok (out ++ charBytes "\n\n") : Run (List UInt8)) = .ok out') ↔
        i < elf.header.eShnum.toNat ∧ Covered elf i := by
    by_cases inside : i < elf.header.eShnum.toNat
    · have hs : elf.sectHeader[i]? = some elf.sectHeader[i] := List.getElem?_eq_getElem (by omega)
      obtain ⟨c, hc, sized, covered⟩ := covered_iff h hs
      have content : fetchInt elf.sectionContent i = .ok c := by
        rw [fetchInt_natCast, fetch_eq_ok.mpr hc]
      rw [content, ok_bind, fetchInt_natCast, fetch_eq_ok.mpr hs, ok_bind,
        bind_returns fun _ => ⟨_, rfl⟩, dumpBytes_returns content sized, covered]
      simp [inside]
    · have outside : elf.sectionContent[i]? = none :=
        List.getElem?_eq_none (by rw [loaded.contents]; omega)
      have content : fetchInt elf.sectionContent i = .error .fault := by
        rw [fetchInt_natCast, fetch, outside]
      rw [content, error_bind]
      simp [inside]
  rw [printSectionContent, forLoop_returns_iff turn]
  constructor
  · intro each i hi
    exact (each i (Nat.zero_le _) (by omega)).2
  · intro covered i _ hi
    exact ⟨by omega, covered i (by omega)⟩

/-- The dumps stay inside the loaded bytes exactly for a section that is not negative and, if it
has a header, covered by the bytes loaded for it. -/
theorem dumps_inside_iff (h : load file = .ok (elf, f)) (noSection : Int) :
    ((∃ out, printSectionContentOne elf noSection = .ok out) ↔
      (elf.header.eShnum.toNat : Int) ≤ noSection ∨
        0 ≤ noSection ∧ Covered elf noSection.toNat) ∧
    ((∃ out, printSectionContent elf = .ok out) ↔
      ∀ i < elf.header.eShnum.toNat, Covered elf i) :=
  ⟨printOne_returns h noSection, printAll_returns h⟩

def overlapSections : List Elf32Shdr :=
  [objectShdr 0 0 0 0 0 0, objectShdr 0 1 52 8 0 0, objectShdr 0 1 56 4 0 0]

/-- A file with a section that begins inside the one before it. -/
def overlapFile : List UInt8 :=
  assemble (objectHeader 60 3 0) [1, 2, 3, 4, 5, 6, 7, 8] overlapSections

/-- The tables of the file, with four bytes for the eight of the first section. -/
def overlapElf : Elf32Main where
  header := objectHeader 60 3 0
  sectHeader := overlapSections
  symTable := []
  relTable := []
  sectionContent := [⟨0, []⟩, ⟨4, [1, 2, 3, 4]⟩, ⟨4, [5, 6, 7, 8]⟩]
  tabSecRel := ⟨[], 0⟩
  nbSymboles := -1

theorem load_overlapFile : load overlapFile = .ok (overlapElf, ⟨overlapFile, 60⟩) := by
  decide +kernel

theorem dumps_inside_overlapFile :
    ((∃ out, printSectionContentOne overlapElf 2 = .ok out) ↔
      (overlapElf.header.eShnum.toNat : Int) ≤ 2 ∨ 0 ≤ (2 : Int) ∧ Covered overlapElf 2) ∧
    ((∃ out, printSectionContent overlapElf = .ok out) ↔
      ∀ i < overlapElf.header.eShnum.toNat, Covered overlapElf i) :=
  dumps_inside_iff load_overlapFile 2

/-- The dump of the first section reads behind its four bytes, and a negative number in front of
the table. -/
theorem dumps_outside :
    load overlapFile = .ok (overlapElf, ⟨overlapFile, 60⟩) ∧
      printSectionContentOne overlapElf 1 = .error .fault ∧
      printSectionContentOne overlapElf (-1) = .error .fault ∧
      printSectionContent overlapElf = .error .fault :=
  ⟨load_overlapFile, by decide, by decide, by decide⟩

end dump

end ArmRunner
