import ArmRunner.Lib.HexDump
import ArmRunner.Dump
import ArmRunner.HeaderCodec
import ArmRunner.Commute

namespace ArmRunner

open CRun Slice Wire HexDump

section bytes

variable {file : List UInt8} {elf : Elf32Main} {header : Elf32Ehdr} {sectHeader : List Elf32Shdr}
  {f f' : CFile}

theorem readTabSectionHeader_bytes {tab : Option (List Elf32Shdr)}
    (h : readTabSectionHeader f header = .ok (tab, f')) : f'.bytes = f.bytes := by
  unfold readTabSectionHeader at h
  dsimp only at h
  split at h
  next read =>
    cases h
    rw [(Reads.collect (@readShdr_fills 0 0).reads 0 _).bytes read, CFile.fseek_bytes]
  next =>
    cases h
    exact CFile.fseek_bytes f _

theorem readSymTable_bytes {r : List Elf32Sym × Int}
    (h : readSymTable f header sectHeader = .ok (r, f')) : f'.bytes = f.bytes := by
  obtain ⟨i, -, h⟩ := bind_eq_ok.mp h
  split at h
  next =>
    cases h
    rfl
  next =>
    obtain ⟨s, -, h⟩ := bind_eq_ok.mp h
    obtain ⟨⟨tab, g⟩, read, h⟩ := bind_eq_ok.mp h
    cases h
    rw [(Reads.collect (@readSym_fills 0 0).reads 0 _).bytes read, CFile.fseek_bytes]

theorem readRelocTable_bytes {t : TableauSectionReloc} {r : RelocLoad}
    (h : readRelocTable f header sectHeader t = .ok r) : r.file.bytes = f.bytes := by
  apply forLoop_partial (I := fun _ (r : RelocLoad) => r.file.bytes = f.bytes) h rfl
  intro k r r' _ _ same turn
  obtain ⟨s, -, turn⟩ := bind_eq_ok.mp turn
  split at turn
  next =>
    dsimp only at turn
    split at turn
    · cases turn
    · obtain ⟨⟨entries, g⟩, read, turn⟩ := bind_eq_ok.mp turn
      cases turn
      rw [(Reads.collect (@readRel_fills 0 0).reads 0 _).bytes read, CFile.fseek_bytes, same]
  next =>
    cases turn
    exact same

/-- The contents that are loaded are bytes of the file. -/
theorem load_content (h : load file = .ok (elf, f)) {i : Nat} {s : Elf32Shdr}
    (hs : elf.sectHeader[i]? = some s) :
    elf.sectionContent[i]? = some (contentAt file elf.header elf.sectHeader i s) := by
  have full := (load_loaded h).heads
  obtain ⟨f1, f2, f3, f4, tab, hheader, htab, -, hsym, hrel, hcontent⟩ := load_eq_ok h
  have start : f1.bytes = file := by
    rw [loadHeader_eq] at hheader
    split at hheader
    · cases hheader
      rfl
    · cases hheader
  have bytes : f4.bytes = file := by
    have relocs := readRelocTable_bytes hrel
    rw [relocs, readSymTable_bytes hsym, readTabSectionHeader_bytes htab, start]
  rw [← bytes]
  exact (loadSectionContent_returned full hcontent hs).2

end bytes

/-- The bytes that a file has for a section. -/
def Elf32Shdr.bytesIn (s : Elf32Shdr) (file : List UInt8) : List UInt8 :=
  slice file s.shOffset.toNat (s.shOffset.toNat + s.shSize.toNat)

section listing

variable {file : List UInt8} {elf : Elf32Main} {f : CFile}

theorem separates_dumpSeparator : Separates dumpSeparator := by
  intro j
  rw [dumpSeparator]
  split_ifs
  · exact Or.inr (Or.inl rfl)
  · exact Or.inr (Or.inr rfl)
  · exact Or.inl rfl

theorem digits_no_newline (n : Nat) : 0x0a ∉ charBytes (toString n) := by
  intro there
  obtain ⟨c, hc, value⟩ := List.mem_map.mp there
  rw [Nat.toString_eq_repr, Nat.toList_repr] at hc
  have digit := Nat.isDigit_of_mem_toDigits (by decide) (by decide) hc
  rw [Char.isDigit, Bool.and_eq_true, decide_eq_true_iff, decide_eq_true_iff] at digit
  have low : 48 ≤ c.toNat := UInt32.le_iff_toNat_le.mp digit.1
  have high : c.toNat ≤ 57 := UInt32.le_iff_toNat_le.mp digit.2
  have same := congrArg UInt8.toNat value
  rw [UInt8.toNat_ofNat', Nat.mod_eq_of_lt (by omega), show (0x0a : UInt8).toNat = 10 from rfl]
    at same
  omega

theorem charBytes_append (x y : String) : charBytes (x ++ y) = charBytes x ++ charBytes y := by
  simp [charBytes]

theorem decimal_no_newline (x : Int) : 0x0a ∉ charBytes (toString x) := by
  cases x with
  | ofNat n => exact digits_no_newline n
  | negSucc n =>
    have text : toString (Int.negSucc n) = "-" ++ toString (n + 1) := rfl
    rw [text, charBytes_append, List.mem_append, not_or]
    exact ⟨by decide, digits_no_newline (n + 1)⟩

theorem dumpTitle_line (i size : Int) : ∃ title, 0x0a ∉ title ∧ dumpTitle i size = title ++ [0x0a] := by
  refine ⟨charBytes "Section " ++ charBytes (toString i) ++ charBytes ": " ++
    charBytes (toString size), ?_, rfl⟩
  simp only [List.mem_append, not_or]
  exact ⟨⟨⟨by decide, decimal_no_newline i⟩, by decide⟩, decimal_no_newline size⟩

theorem dumpBytes_text {i : Int} {c : SectionContent} {count : Nat} {out out' : List UInt8}
    (hc : fetchInt elf.sectionContent i = .ok c) (h : dumpBytes elf i count out = .ok out') :
    count ≤ c.sectionBytes.length ∧ out' = out ++ dump dumpSeparator 0 (c.sectionBytes.take count) := by
  have run : 0 + count ≤ c.sectionBytes.length ∧
      out' = out ++ dump dumpSeparator 0 (c.sectionBytes.take (0 + count)) := by
    apply forLoop_partial (I := fun j text => j ≤ c.sectionBytes.length ∧
      text = out ++ dump dumpSeparator 0 (c.sectionBytes.take j)) h
    · exact ⟨Nat.zero_le _, (List.append_nil _).symm⟩
    · rintro j text text' - - ⟨inside, rfl⟩ turn
      rw [hc, ok_bind] at turn
      obtain ⟨byte, hbyte, turn⟩ := bind_eq_ok.mp turn
      cases turn
      rw [SectionContent.byteAt] at hbyte
      split at hbyte
      next =>
        have here := fetch_eq_ok.mp hbyte
        obtain ⟨below, -⟩ := List.getElem?_eq_some_iff.mp here
        refine ⟨below, ?_⟩
        rw [List.take_add_one, here, dump_append, List.length_take, Nat.min_eq_left inside]
        simp [dump]
      next => cases hbyte
  rwa [Nat.zero_add] at run

/-- The bytes that are dumped are those of the file. -/
theorem contentAt_take {header : Elf32Ehdr} {sectHeader : List Elf32Shdr} {i : Nat} {s : Elf32Shdr}
    (covered : s.shSize.toNat ≤ (contentAt file header sectHeader i s).sectionBytes.length) :
    (contentAt file header sectHeader i s).sectionBytes.take s.shSize.toNat = s.bytesIn file := by
  rw [contentAt] at covered ⊢
  rw [Elf32Shdr.bytesIn]
  by_cases empty : s.shSize = 0
  · simp [empty]
  · rw [if_neg empty] at covered ⊢
    dsimp only at covered ⊢
    refine slice_take ?_
    rw [slice, List.length_take] at covered
    omega

/-- What one turn prints is a block that is read as the bytes of its section. -/
theorem section_text (h : load file = .ok (elf, f)) {i : Nat} {s : Elf32Shdr} {c : SectionContent}
    {out' : List UInt8} (hs : elf.sectHeader[i]? = some s) (hc : elf.sectionContent[i]? = some c)
    (out : List UInt8)
    (printed : dumpBytes elf i s.shSize.toNat (out ++ dumpTitle i c.size) = .ok out') :
    ∃ title, 0x0a ∉ title ∧ out' ++ charBytes "\n\n" =
      out ++ (title ++ 0x0a :: (dump dumpSeparator 0 (s.bytesIn file) ++ [0x0a, 0x0a])) := by
  have content : fetchInt elf.sectionContent i = .ok c := by
    rw [fetchInt_natCast, fetch_eq_ok.mpr hc]
  obtain ⟨covered, text⟩ := dumpBytes_text content printed
  have value := Option.some.inj (hc.symm.trans (load_content h hs))
  rw [value] at covered text
  rw [contentAt_take covered] at text
  obtain ⟨title, line, same⟩ := dumpTitle_line i c.size
  refine ⟨title, line, ?_⟩
  rw [text, ← value, same]
  simp [charBytes]

theorem printSectionContent_blocks (h : load file = .ok (elf, f)) {out : List UInt8}
    (printed : printSectionContent elf = .ok out) : ∃ blocks : List (List UInt8 × List UInt8),
      (∀ b ∈ blocks, 0x0a ∉ b.1) ∧ blocks.map Prod.snd = elf.sectHeader.map (·.bytesIn file) ∧
        out = blocks.flatMap fun b => b.1 ++ 0x0a :: (dump dumpSeparator 0 b.2 ++ [0x0a, 0x0a]) := by
  have run : ∃ blocks : List (List UInt8 × List UInt8), (∀ b ∈ blocks, 0x0a ∉ b.1) ∧
      blocks.map Prod.snd =
        (elf.sectHeader.take (0 + elf.header.eShnum.toNat)).map (·.bytesIn file) ∧
      out = blocks.flatMap fun b => b.1 ++ 0x0a :: (dump dumpSeparator 0 b.2 ++ [0x0a, 0x0a]) := by
    apply forLoop_partial (I := fun i out => ∃ blocks : List (List UInt8 × List UInt8),
      (∀ b ∈ blocks, 0x0a ∉ b.1) ∧
      blocks.map Prod.snd = (elf.sectHeader.take i).map (·.bytesIn file) ∧
      out = blocks.flatMap fun b => b.1 ++ 0x0a :: (dump dumpSeparator 0 b.2 ++ [0x0a, 0x0a])) printed
    · exact ⟨[], by simp, by simp, rfl⟩
    · rintro i out out' - - ⟨blocks, lines, bytes, rfl⟩ turn
      obtain ⟨c, hc, turn⟩ := bind_eq_ok.mp turn
      obtain ⟨s, hs, turn⟩ := bind_eq_ok.mp turn
      obtain ⟨text, dumped, turn⟩ := bind_eq_ok.mp turn
      rw [fetchInt_natCast] at hc hs
      have here := fetch_eq_ok.mp hs
      obtain ⟨title, line, same⟩ := section_text h here (fetch_eq_ok.mp hc) _ dumped
      cases turn
      refine ⟨blocks ++ [(title, s.bytesIn file)], ?_, ?_, ?_⟩
      · intro b hb
        rcases List.mem_append.mp hb with old | new
        · exact lines b old
        · rw [List.mem_singleton.mp new]
          exact line
      · rw [List.map_append, bytes, List.take_add_one, here]
        simp
      · rw [same, List.flatMap_append]
        simp
  rwa [Nat.zero_add, ← (load_loaded h).heads, List.take_length] at run

/-- From the listing of the sections the bytes that the file has for each can be read again, and
from the listing of one section those of that section. -/
theorem listings_read_back (h : load file = .ok (elf, f)) :
    (∀ out, printSectionContent elf = .ok out →
      readBlocks out.length out = some (elf.sectHeader.map (·.bytesIn file))) ∧
    ∀ (noSection : Nat) (s : Elf32Shdr) (out : List UInt8), elf.sectHeader[noSection]? = some s →
      s.shSize ≠ 0 → printSectionContentOne elf noSection = .ok out →
      readBlock out = some (s.bytesIn file, []) := by
  constructor
  · intro out printed
    obtain ⟨blocks, lines, bytes, rfl⟩ := printSectionContent_blocks h printed
    rw [← bytes]
    exact readBlocks_blocks separates_dumpSeparator lines (length_le_blocks blocks)
  · intro noSection s out hs nonempty printed
    have below := (List.getElem?_eq_some_iff.mp hs).1
    have full := (load_loaded h).heads
    rw [printSectionContentOne, if_neg (by omega)] at printed
    obtain ⟨c, hc, printed⟩ := bind_eq_ok.mp printed
    obtain ⟨s', hs', printed⟩ := bind_eq_ok.mp printed
    rw [fetchInt_natCast] at hc hs'
    cases Option.some.inj (hs.symm.trans (fetch_eq_ok.mp hs'))
    simp only [if_neg nonempty] at printed
    obtain ⟨text, dumped, printed⟩ := bind_eq_ok.mp printed
    obtain ⟨title, line, same⟩ := section_text h hs (fetch_eq_ok.mp hc) [] dumped
    cases printed
    rw [same, List.nil_append]
    exact readBlock_block separates_dumpSeparator line _ []

end listing

theorem listings_read_back_namesFile : ∃ elf f all one,
    load namesFile = .ok (elf, f) ∧ printSectionContent elf = .ok all ∧
    readBlocks all.length all = some (elf.sectHeader.map (·.bytesIn namesFile)) ∧
    printSectionContentOne elf (1 : Nat) = .ok one ∧ readBlock one = some ([0, 0, 0, 0], []) := by
  obtain ⟨each, single⟩ := listings_read_back load_namesFile
  obtain ⟨all, printed⟩ : ∃ out, printSectionContent namesElf = .ok out := ⟨_, rfl⟩
  obtain ⟨one, printed'⟩ : ∃ out, printSectionContentOne namesElf (1 : Nat) = .ok out := ⟨_, rfl⟩
  have bytes : (objectShdr 1 1 52 4 0 0).bytesIn namesFile = [0, 0, 0, 0] := by decide
  refine ⟨namesElf, _, all, one, load_namesFile, printed, each all printed, printed', ?_⟩
  rw [← bytes]
  exact single 1 _ one rfl (by decide) printed'

end ArmRunner
