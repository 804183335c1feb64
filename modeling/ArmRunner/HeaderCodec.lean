import ArmRunner.LoadTables
import ArmRunner.WriteFormat

namespace ArmRunner

open CRun Slice Words

/-- The header that the 64-bit branches of the loader take from a file. The swap of a widened
field leaves nothing of the three addresses. -/
def wideHeaderOf (file : List UInt8) : Elf32Ehdr where
  eIdent := identOf file
  eType := halfAt file 16
  eMachine := halfAt file 18
  eVersion := wordAt file 20
  eEntry := 0
  ePhoff := 0
  eShoff := 0
  eFlags := wordAt file 48
  eEhsize := halfAt file 52
  ePhentsize := halfAt file 54
  ePhnum := halfAt file 56
  eShentsize := halfAt file 58
  eShnum := halfAt file 60
  eShstrndx := halfAt file 62

def headerWidth (file : List UInt8) : Nat := if (identOf file).eiClass = 1 then 52 else 64

/-- The header of a file that the loader accepts. -/
def acceptedHeader (file : List UInt8) : Option Elf32Ehdr :=
  if magicElf (identOf file) ∧ headerWidth file ≤ file.length then
    some (if (identOf file).eiClass = 1 then headerOf file else wideHeaderOf file)
  else none

section load

variable {file : List UInt8} {p : Nat}

theorem readLong_reads : Reads 8 readLong :=
  (readBytes_reads (by decide : 8 ≠ 0)).map
    fun bs => (bswap64 (hostWord32 (bs.take 4)).toUInt64).toUInt32

theorem readLong_at (h : p + 8 ≤ file.length) :
    readLong ⟨file, p⟩ = .ok (0, ⟨file, p + 8⟩) := by
  simp only [readLong, readBytes_at (by decide) h, ok_bind, bswap64_widened]

theorem readByte_short (h : file.length < p + 1) : readByte ⟨file, p⟩ = .error .exit := by
  apply readByte_reads.short
  simp only [CFile.left]
  omega

theorem loadHeader_wide_at (long : 64 ≤ file.length) (magic : magicElf (identOf file))
    (class64 : (identOf file).eiClass ≠ 1) :
    loadHeader (CFile.openRead file) = .ok (wideHeaderOf file, ⟨file, 64⟩) := by
  obtain ⟨h0, h1, h2, h3⟩ := magic
  simp only [identOf] at h0 h1 h2 h3 class64
  simp (disch := omega) only [loadHeader, CFile.openRead, readByte_at, ok_bind, Nat.reduceAdd,
    h0, h1, h2, h3, class64, ne_eq, not_true_eq_false, or_self, if_false, readBytes_at, readHalf_at,
    readWord_at, readAddress, readLong_at, wideHeaderOf, identOf]

/-- A file without the magic bytes, or without a byte for the class, ends the program. -/
theorem loadHeader_rejects (h : ¬magicElf (identOf file) ∨ file.length < 5) :
    loadHeader (CFile.openRead file) = .error .exit := by
  by_cases four : 4 ≤ file.length
  · simp (disch := omega) only [loadHeader, CFile.openRead, readByte_at, ok_bind, Nat.reduceAdd]
    split
    · rfl
    next good =>
      have short : file.length < 5 := by
        refine h.resolve_left ?_
        intro bad
        apply good
        simp only [magicElf, identOf] at bad
        tauto
      rw [readByte_short (by omega), error_bind]
  · have length : file.length = 0 ∨ file.length = 1 ∨ file.length = 2 ∨ file.length = 3 := by omega
    rcases length with zero | one | two | three <;>
      simp (disch := omega) only [loadHeader, CFile.openRead, readByte_at, readByte_short, ok_bind,
        error_bind, Nat.reduceAdd]

/-- A file that ends inside its header ends the program. -/
theorem loadHeader_short (magic : magicElf (identOf file)) (five : 5 ≤ file.length)
    (short : file.length < headerWidth file) :
    loadHeader (CFile.openRead file) = .error .exit := by
  obtain ⟨h0, h1, h2, h3⟩ := magic
  simp only [identOf] at h0 h1 h2 h3
  simp (disch := omega) only [loadHeader, CFile.openRead, readByte_at, ok_bind, Nat.reduceAdd,
    h0, h1, h2, h3, ne_eq, not_true_eq_false, or_self, if_false]
  have tail (w : Nat) (address : Reads w (readAddress (byteAt file 4))) :=
    readByte_reads.bind fun eiData => readByte_reads.bind fun eiVersion =>
    readByte_reads.bind fun eiOsabi => readByte_reads.bind fun eiAbiversion =>
    (readBytes_reads (by decide : 7 ≠ 0)).bind fun eiPad => readHalf_reads.bind fun eType =>
    readHalf_reads.bind fun eMachine => readWord_reads.bind fun eVersion =>
    address.bind fun eEntry => address.bind fun ePhoff => address.bind fun eShoff =>
    readWord_reads.bind fun eFlags => readHalf_reads.bind fun eEhsize =>
    readHalf_reads.bind fun ePhentsize => readHalf_reads.bind fun ePhnum =>
    readHalf_reads.bind fun eShentsize => readHalf_reads.bind fun eShnum =>
    readHalf_reads.map fun eShstrndx =>
      Elf32Ehdr.mk ⟨0x7f, 0x45, 0x4c, 0x46, byteAt file 4, eiData, eiVersion, eiOsabi, eiAbiversion,
        eiPad⟩ eType eMachine eVersion eEntry ePhoff eShoff eFlags eEhsize ePhentsize ePhnum
        eShentsize eShnum eShstrndx
  by_cases class32 : (identOf file).eiClass = 1
  · have address : Reads 4 (readAddress (byteAt file 4)) := by
      have same : readAddress (byteAt file 4) = readWord := by
        funext f
        exact if_pos class32
      rw [same]
      exact readWord_reads
    rw [headerWidth, if_pos class32] at short
    refine (tail 4 address).short ⟨file, 5⟩ ?_
    simp only [CFile.left]
    omega
  · have address : Reads 8 (readAddress (byteAt file 4)) := by
      have same : readAddress (byteAt file 4) = readLong := by
        funext f
        exact if_neg class32
      rw [same]
      exact readLong_reads
    rw [headerWidth, if_neg class32] at short
    refine (tail 8 address).short ⟨file, 5⟩ ?_
    simp only [CFile.left]
    omega

/-- What `loadHeader` does with any file. -/
theorem loadHeader_eq (file : List UInt8) :
    loadHeader (CFile.openRead file) =
      match acceptedHeader file with
      | some header => .ok (header, ⟨file, headerWidth file⟩)
      | none => .error .exit := by
  unfold acceptedHeader
  by_cases magic : magicElf (identOf file)
  · by_cases long : headerWidth file ≤ file.length
    · rw [if_pos ⟨magic, long⟩]
      unfold headerWidth at long ⊢
      by_cases class32 : (identOf file).eiClass = 1
      · rw [if_pos class32] at long
        simp only [class32, if_true]
        exact loadHeader_at long magic class32
      · rw [if_neg class32] at long
        simp only [class32, if_false]
        exact loadHeader_wide_at long magic class32
    · rw [if_neg (fun h => long h.2)]
      by_cases five : 5 ≤ file.length
      · exact loadHeader_short magic five (by omega)
      · exact loadHeader_rejects (Or.inr (by omega))
  · rw [if_neg (fun h => magic h.1)]
    exact loadHeader_rejects (Or.inl magic)

end load

/-- The 64 bytes that the 64-bit branches of the writer make: each address is followed by the
field behind it, both in host order. -/
def wideHeaderBytes (h : Elf32Ehdr) : List UInt8 :=
  identBytes h.eIdent ++ halfBytes h.eType ++ halfBytes h.eMachine ++ wordBytes h.eVersion ++
    (leBytes 4 h.eEntry.toNat ++ leBytes 4 h.ePhoff.toNat) ++
    (leBytes 4 h.ePhoff.toNat ++ leBytes 4 h.eShoff.toNat) ++
    (leBytes 4 h.eShoff.toNat ++ leBytes 4 h.eFlags.toNat) ++ wordBytes h.eFlags ++
    halfBytes h.eEhsize ++ halfBytes h.ePhentsize ++ halfBytes h.ePhnum ++
    halfBytes h.eShentsize ++ halfBytes h.eShnum ++ halfBytes h.eShstrndx

/-- The bytes of the addresses, behind the version, that a 64-bit header is given back. -/
def AddressesKept (file : List UInt8) : Prop :=
  slice file 24 44 = List.replicate 20 0 ∧ slice file 44 48 = (slice file 48 52).reverse

section write

variable {file : List UInt8}

theorem writeHeader_wide_eq {h : Elf32Ehdr} (class64 : h.eIdent.eiClass ≠ 1) (f : CFile) :
    writeHeader h f = (f.fseek 0).fwrite (wideHeaderBytes h) := by
  simp only [writeHeader, writeByte, writeAddress, class64, if_false, writeHalf_eq, writeWord_eq,
    CFile.fwrite_fwrite, wideHeaderBytes, identBytes]

theorem leBytes_wordAt {p : Nat} (h : p + 4 ≤ file.length) :
    leBytes 4 (wordAt file p).toNat = (slice file p (p + 4)).reverse := by
  have big := congrArg List.reverse (wordBytes_wordAt h)
  rwa [wordBytes, beBytes, List.reverse_reverse] at big

theorem wideHeaderBytes_wideHeaderOf (long : 64 ≤ file.length) :
    wideHeaderBytes (wideHeaderOf file) =
      slice file 0 24 ++ (List.replicate 20 0 ++ (slice file 48 52).reverse) ++
        slice file 48 64 := by
  have front : identBytes (identOf file) ++ halfBytes (halfAt file 16) ++
      halfBytes (halfAt file 18) ++ wordBytes (wordAt file 20) = slice file 0 24 := by
    simp (disch := omega) only [identBytes_identOf, halfBytes_halfAt, wordBytes_wordAt,
      Nat.reduceAdd, slice_append_slice]
  have back : wordBytes (wordAt file 48) ++ halfBytes (halfAt file 52) ++
      halfBytes (halfAt file 54) ++ halfBytes (halfAt file 56) ++ halfBytes (halfAt file 58) ++
      halfBytes (halfAt file 60) ++ halfBytes (halfAt file 62) = slice file 48 64 := by
    simp (disch := omega) only [halfBytes_halfAt, wordBytes_wordAt, Nat.reduceAdd,
      slice_append_slice]
  have zeros : leBytes 4 (0 : UInt32).toNat = List.replicate 4 0 := by decide
  have flags : leBytes 4 (wordAt file 48).toNat = (slice file 48 52).reverse :=
    leBytes_wordAt (by omega)
  have addresses : List.replicate 20 (0 : UInt8) = List.replicate 4 0 ++ (List.replicate 4 0 ++
      (List.replicate 4 0 ++ (List.replicate 4 0 ++ List.replicate 4 0))) := rfl
  rw [← front, ← back, addresses]
  simp only [wideHeaderBytes, wideHeaderOf, zeros, flags, List.append_assoc]

/-- A 64-bit header is written as it was read only if the reader had nothing to lose. -/
theorem wideHeaderBytes_eq_iff (long : 64 ≤ file.length) :
    wideHeaderBytes (wideHeaderOf file) = file.take 64 ↔ AddressesKept file := by
  have whole : file.take 64 =
      slice file 0 24 ++ (slice file 24 44 ++ slice file 44 48) ++ slice file 48 64 := by
    rw [slice_append_slice file (by omega) (by omega),
      slice_append_slice file (by omega) (by omega),
      slice_append_slice file (by omega) (by omega), slice_zero]
  have first : (slice file 24 44).length = 20 := slice_length (by omega)
  have second : (slice file 44 48).length = 4 := slice_length (by omega)
  have flags : (slice file 48 52).length = 4 := slice_length (by omega)
  rw [wideHeaderBytes_wideHeaderOf long, whole, List.append_left_inj, List.append_right_inj]
  constructor
  · intro same
    obtain ⟨zeros, swapped⟩ := List.append_inj same (by rw [first, List.length_replicate])
    exact ⟨zeros.symm, swapped.symm⟩
  · rintro ⟨zeros, swapped⟩
    rw [zeros, swapped]

end write

/-- The header that is written is the header that was read, for 32-bit files always and for
64-bit files only when the addresses are zero but for a copy of the flags in host order. -/
theorem writeHeader_loadHeader_iff {file : List UInt8} {h : Elf32Ehdr} {f : CFile}
    (accepted : loadHeader (CFile.openRead file) = .ok (h, f))
    (known : h.eIdent.eiClass = 1 ∨ h.eIdent.eiClass = 2) :
    f.pos = (if h.eIdent.eiClass = 1 then 52 else 64) ∧
      ((writeHeader h CFile.openWrite).bytes = file.take f.pos ↔
        h.eIdent.eiClass = 1 ∨ h.eIdent.eiClass = 2 ∧ AddressesKept file) := by
  have rewound : CFile.openWrite.fseek 0 = CFile.openWrite := rfl
  rw [loadHeader_eq, acceptedHeader, headerWidth] at accepted
  by_cases class32 : (identOf file).eiClass = 1
  · simp only [class32, if_true] at accepted
    split at accepted
    next header found =>
      split at found
      next accepts =>
        cases found
        cases accepted
        have here : (headerOf file).eIdent.eiClass = 1 := class32
        rw [writeHeader_eq here, rewound, CFile.fwrite_openWrite,
          headerBytes_headerOf accepts.2, slice_zero]
        simp [here]
      next => cases found
    next => cases accepted
  · simp only [class32, if_false] at accepted
    split at accepted
    next header found =>
      split at found
      next accepts =>
        cases found
        cases accepted
        have here : (wideHeaderOf file).eIdent.eiClass ≠ 1 := class32
        rw [writeHeader_wide_eq here, rewound, CFile.fwrite_openWrite]
        have kept := wideHeaderBytes_eq_iff accepts.2
        simp only [kept, here, if_false, false_or, true_and]
        have two := known.resolve_left here
        simp [two]
      next => cases found
    next => cases accepted

/-- A 64-bit header with an entry point. -/
def entryHeader : List UInt8 :=
  [0x7f, 0x45, 0x4c, 0x46, 2, 2, 1, 0, 0] ++ List.replicate 7 0 ++ halfBytes 2 ++ halfBytes 40 ++
    wordBytes 1 ++ [0, 0, 0, 0, 0, 1, 0, 0] ++ List.replicate 16 0 ++ wordBytes 0 ++
    halfBytes 64 ++ halfBytes 0 ++ halfBytes 0 ++ halfBytes 40 ++ halfBytes 0 ++ halfBytes 0

theorem writeHeader_loadHeader_objectFile :
    ∃ h f, loadHeader (CFile.openRead (headerBytes (objectHeader 52 0 0))) = .ok (h, f) ∧
      f.pos = (if h.eIdent.eiClass = 1 then 52 else 64) ∧
      ((writeHeader h CFile.openWrite).bytes = (headerBytes (objectHeader 52 0 0)).take f.pos ↔
        h.eIdent.eiClass = 1 ∨
          h.eIdent.eiClass = 2 ∧ AddressesKept (headerBytes (objectHeader 52 0 0))) :=
  ⟨objectHeader 52 0 0, ⟨headerBytes (objectHeader 52 0 0), 52⟩, by decide,
    writeHeader_loadHeader_iff (by decide) (Or.inl rfl)⟩

/-- The entry point is lost. -/
theorem writeHeader_loadHeader_differs :
    ∃ h f, loadHeader (CFile.openRead entryHeader) = .ok (h, f) ∧ h.eIdent.eiClass = 2 ∧
      (writeHeader h CFile.openWrite).bytes ≠ entryHeader.take f.pos :=
  ⟨wideHeaderOf entryHeader, ⟨entryHeader, 64⟩, by decide, by decide,
    by decide⟩

end ArmRunner
