import ArmRunner.Format

namespace ArmRunner

open Slice Words

def halfBytes (x : UInt16) : List UInt8 := beBytes 2 x.toNat

def wordBytes (x : UInt32) : List UInt8 := beBytes 4 x.toNat

def identBytes (ident : ElfIdent) : List UInt8 :=
  [ident.eiMag0] ++ [ident.eiMag1] ++ [ident.eiMag2] ++ [ident.eiMag3] ++ [ident.eiClass] ++
    [ident.eiData] ++ [ident.eiVersion] ++ [ident.eiOsabi] ++ [ident.eiAbiversion] ++ ident.eiPad

/-- The 52 bytes of an ELF32 header in a big-endian file. -/
def headerBytes (h : Elf32Ehdr) : List UInt8 :=
  identBytes h.eIdent ++ halfBytes h.eType ++ halfBytes h.eMachine ++ wordBytes h.eVersion ++
    wordBytes h.eEntry ++ wordBytes h.ePhoff ++ wordBytes h.eShoff ++ wordBytes h.eFlags ++
    halfBytes h.eEhsize ++ halfBytes h.ePhentsize ++ halfBytes h.ePhnum ++
    halfBytes h.eShentsize ++ halfBytes h.eShnum ++ halfBytes h.eShstrndx

def shdrBytes (s : Elf32Shdr) : List UInt8 :=
  wordBytes s.shName ++ wordBytes s.shType ++ wordBytes s.shFlags ++ wordBytes s.shAddr ++
    wordBytes s.shOffset ++ wordBytes s.shSize ++ wordBytes s.shLink ++ wordBytes s.shInfo ++
    wordBytes s.shAddralign ++ wordBytes s.shEntsize

def symBytes (sym : Elf32Sym) : List UInt8 :=
  wordBytes sym.stName ++ wordBytes sym.stValue ++ wordBytes sym.stSize ++ [sym.stInfo] ++
    [sym.stOther] ++ halfBytes sym.stShndx

/-- A file made of a header, the contents and the section header table. -/
def assemble (h : Elf32Ehdr) (body : List UInt8) (sections : List Elf32Shdr) : List UInt8 :=
  headerBytes h ++ body ++ sections.flatMap shdrBytes

/-- The header of an ARM object file. -/
def objectHeader (eShoff : UInt32) (eShnum eShstrndx : UInt16) : Elf32Ehdr where
  eIdent := ⟨0x7f, 0x45, 0x4c, 0x46, 1, 2, 1, 0, 0, List.replicate 7 0⟩
  eType := 1
  eMachine := 40
  eVersion := 1
  eEntry := 0
  ePhoff := 0
  eShoff := eShoff
  eFlags := 0
  eEhsize := 52
  ePhentsize := 0
  ePhnum := 0
  eShentsize := 40
  eShnum := eShnum
  eShstrndx := eShstrndx

def objectShdr (shName shType shOffset shSize shLink shInfo : UInt32) : Elf32Shdr where
  shName := shName
  shType := shType
  shFlags := 0
  shAddr := 0
  shOffset := shOffset
  shSize := shSize
  shLink := shLink
  shInfo := shInfo
  shAddralign := 1
  shEntsize := 0

@[simp] theorem halfBytes_length (x : UInt16) : (halfBytes x).length = 2 := beBytes_length 2 _

@[simp] theorem wordBytes_length (x : UInt32) : (wordBytes x).length = 4 := beBytes_length 4 _

@[simp] theorem shdrBytes_length (s : Elf32Shdr) : (shdrBytes s).length = 40 := by
  simp [shdrBytes]

@[simp] theorem symBytes_length (sym : Elf32Sym) : (symBytes sym).length = 16 := by
  simp [symBytes]

theorem headerBytes_length {h : Elf32Ehdr} (pad : h.eIdent.eiPad.length = 7) :
    (headerBytes h).length = 52 := by
  simp [headerBytes, identBytes, pad]

section encodeDecode

variable {file : List UInt8} {p : Nat}

theorem byteAt_slice (h : p + 1 ≤ file.length) : [byteAt file p] = slice file p (p + 1) := by
  have one : (slice file p (p + 1)).length = 1 := by rw [slice_length h]; omega
  obtain ⟨b, hb⟩ := List.length_eq_one_iff.mp one
  simp [byteAt, hb, beNat, leNat]

theorem halfBytes_halfAt (h : p + 2 ≤ file.length) :
    halfBytes (halfAt file p) = slice file p (p + 2) :=
  beBytes_word16 (by rw [slice_length h]; omega)

theorem wordBytes_wordAt (h : p + 4 ≤ file.length) :
    wordBytes (wordAt file p) = slice file p (p + 4) :=
  beBytes_word32 (by rw [slice_length h]; omega)

theorem identBytes_identOf (h : 16 ≤ file.length) :
    identBytes (identOf file) = slice file 0 16 := by
  simp (disch := omega) only [identBytes, identOf, byteAt_slice, Nat.reduceAdd,
    slice_append_slice]

/-- Decoding the header of a file and encoding it again gives back its first 52 bytes. -/
theorem headerBytes_headerOf (h : 52 ≤ file.length) :
    headerBytes (headerOf file) = slice file 0 52 := by
  simp (disch := omega) only [headerBytes, headerOf, identBytes_identOf, halfBytes_halfAt,
    wordBytes_wordAt, Nat.reduceAdd, slice_append_slice]

theorem shdrBytes_shdrAt (h : p + 40 ≤ file.length) :
    shdrBytes (shdrAt file p) = slice file p (p + 40) := by
  simp (disch := omega) only [shdrBytes, shdrAt, wordBytes_wordAt, Nat.add_assoc, Nat.reduceAdd,
    slice_append_slice]

theorem symBytes_symAt (h : p + 16 ≤ file.length) :
    symBytes (symAt file p) = slice file p (p + 16) := by
  simp (disch := omega) only [symBytes, symAt, wordBytes_wordAt, halfBytes_halfAt, byteAt_slice,
    Nat.add_assoc, Nat.reduceAdd, slice_append_slice]

end encodeDecode

section decodeEncode

variable {xs ys : List UInt8} {p : Nat}

theorem halfAt_append (h : xs.length ≤ p) : halfAt (xs ++ ys) p = halfAt ys (p - xs.length) := by
  rw [halfAt, halfAt, slice_append_right h, Nat.sub_add_comm h]

theorem wordAt_append (h : xs.length ≤ p) : wordAt (xs ++ ys) p = wordAt ys (p - xs.length) := by
  rw [wordAt, wordAt, slice_append_right h, Nat.sub_add_comm h]

theorem byteAt_append (h : xs.length ≤ p) : byteAt (xs ++ ys) p = byteAt ys (p - xs.length) := by
  rw [byteAt, byteAt, slice_append_right h, Nat.sub_add_comm h]

theorem halfAt_halfBytes (x : UInt16) : halfAt (halfBytes x ++ ys) 0 = x := by
  rw [halfAt, slice_append_left (by simp), slice_zero, List.take_of_length_le (by simp)]
  exact word16_beBytes x

theorem wordAt_wordBytes (x : UInt32) : wordAt (wordBytes x ++ ys) 0 = x := by
  rw [wordAt, slice_append_left (by simp), slice_zero, List.take_of_length_le (by simp)]
  exact word32_beBytes x

theorem byteAt_singleton (x : UInt8) : byteAt ([x] ++ ys) 0 = x := by
  simp [byteAt, slice, beNat, leNat]

theorem identOf_identBytes {ident : ElfIdent} (pad : ident.eiPad.length = 7) :
    identOf (identBytes ident ++ ys) = ident := by
  have tail : slice (identBytes ident ++ ys) 9 16 = ident.eiPad := by
    have front : ((identBytes ident).take 9).length = 9 := by simp [identBytes]
    have h : slice ((identBytes ident).take 9 ++ ident.eiPad ++ ys) 9 (9 + ident.eiPad.length) =
        ident.eiPad := slice_middle front
    rw [pad] at h
    exact h
  simp only [identOf, tail]
  simp (disch := simp) only [identBytes, List.append_assoc, byteAt_append, List.length_singleton,
    Nat.reduceSub, byteAt_singleton]

/-- Encoding a header and decoding it again gives back the header. -/
theorem headerOf_headerBytes {h : Elf32Ehdr} (pad : h.eIdent.eiPad.length = 7) :
    headerOf (headerBytes h ++ ys) = h := by
  have ident : (identBytes h.eIdent).length = 16 := by simp [identBytes, pad]
  simp (disch := simp [ident]) only [headerOf, headerBytes, List.append_assoc,
    identOf_identBytes pad, halfAt_append, wordAt_append, ident, halfBytes_length,
    wordBytes_length, Nat.reduceSub, halfAt_halfBytes, wordAt_wordBytes]

theorem shdrAt_shdrBytes (s : Elf32Shdr) : shdrAt (shdrBytes s ++ ys) 0 = s := by
  simp (disch := simp) only [shdrAt, shdrBytes, List.append_assoc, Nat.zero_add, wordAt_append,
    wordBytes_length, Nat.reduceSub, wordAt_wordBytes]

theorem symAt_symBytes (sym : Elf32Sym) : symAt (symBytes sym ++ ys) 0 = sym := by
  simp (disch := simp) only [symAt, symBytes, List.append_assoc, Nat.zero_add, wordAt_append,
    halfAt_append, byteAt_append, wordBytes_length, List.length_singleton, Nat.reduceSub,
    wordAt_wordBytes, halfAt_halfBytes, byteAt_singleton]

theorem shdrAt_append (h : xs.length ≤ p) : shdrAt (xs ++ ys) p = shdrAt ys (p - xs.length) := by
  simp (disch := omega) only [shdrAt, wordAt_append, Nat.sub_add_comm h]

theorem symAt_append (h : xs.length ≤ p) : symAt (xs ++ ys) p = symAt ys (p - xs.length) := by
  simp (disch := omega) only [symAt, wordAt_append, halfAt_append, byteAt_append,
    Nat.sub_add_comm h]

/-- Entry `i` of a table of section headers. -/
theorem shdrAt_table {tab : List Elf32Shdr} {i : Nat} {s : Elf32Shdr} (h : tab[i]? = some s) :
    shdrAt (tab.flatMap shdrBytes) (40 * i) = s := by
  induction tab generalizing i with
  | nil => simp at h
  | cons t tab ih =>
    rw [List.flatMap_cons]
    cases i with
    | zero =>
      have same := Option.some.inj h
      rw [same]
      exact shdrAt_shdrBytes _
    | succ i =>
      rw [shdrAt_append (by rw [shdrBytes_length]; omega), shdrBytes_length,
        show 40 * (i + 1) - 40 = 40 * i by omega]
      exact ih (by simpa using h)

theorem symAt_table {tab : List Elf32Sym} {i : Nat} {sym : Elf32Sym} (h : tab[i]? = some sym) :
    symAt (tab.flatMap symBytes) (16 * i) = sym := by
  induction tab generalizing i with
  | nil => simp at h
  | cons t tab ih =>
    rw [List.flatMap_cons]
    cases i with
    | zero =>
      have same := Option.some.inj h
      rw [same]
      exact symAt_symBytes _
    | succ i =>
      rw [symAt_append (by rw [symBytes_length]; omega), symBytes_length,
        show 16 * (i + 1) - 16 = 16 * i by omega]
      exact ih (by simpa using h)

theorem symAt_slice {a b : Nat} (h : a + p + 16 ≤ b) :
    symAt (slice xs a b) p = symAt xs (a + p) := by
  simp (disch := omega) only [symAt, wordAt, halfAt, byteAt, slice_slice, Nat.add_assoc]

end decodeEncode

section assemble

variable {h : Elf32Ehdr} {body : List UInt8} {sections : List Elf32Shdr}

theorem headerOf_assemble (pad : h.eIdent.eiPad.length = 7) :
    headerOf (assemble h body sections) = h := by
  rw [assemble, List.append_assoc]
  exact headerOf_headerBytes pad

theorem assemble_length (pad : h.eIdent.eiPad.length = 7) :
    (assemble h body sections).length = 52 + body.length + 40 * sections.length := by
  rw [assemble, List.length_append, List.length_append, headerBytes_length pad,
    flatMap_length_const shdrBytes_length]

/-- The section header table of a file is the one it was assembled with. -/
theorem sectionsOf_assemble (pad : h.eIdent.eiPad.length = 7)
    (offset : h.eShoff.toNat = 52 + body.length) (count : h.eShnum.toNat = sections.length) :
    sectionsOf (assemble h body sections) = sections := by
  have header : headerOf (assemble h body sections) = h := headerOf_assemble pad
  have front : (headerBytes h ++ body).length = h.eShoff.toNat := by
    rw [List.length_append, headerBytes_length pad, offset]
  apply List.ext_getElem?
  intro i
  by_cases hi : i < sections.length
  · have here : sections[i]? = some sections[i] := List.getElem?_eq_getElem hi
    rw [sectionsOf_getElem? (by rw [header]; omega), header, here, assemble,
      shdrAt_append (by omega), front, Nat.add_sub_cancel_left, shdrAt_table here]
  · rw [List.getElem?_eq_none, List.getElem?_eq_none (by omega)]
    rw [sectionsOf_length, header]
    omega

end assemble

end ArmRunner
