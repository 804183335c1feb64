import ArmRunner.Load

namespace ArmRunner

open CRun Words Slice

section reads

variable {file : List UInt8} {p : Nat}

theorem readBytes_at {n : Nat} (hn : n ≠ 0) (h : p + n ≤ file.length) :
    readBytes ⟨file, p⟩ n = .ok (slice file p (p + n), ⟨file, p + n⟩) := by
  simp only [readBytes, CFile.fread_of_le (f := ⟨file, p⟩) hn h]

theorem readByte_at (h : p + 1 ≤ file.length) :
    readByte ⟨file, p⟩ = .ok (byteAt file p, ⟨file, p + 1⟩) := by
  have one : (slice file p (p + 1)).length = 1 := by rw [slice_length h]; omega
  obtain ⟨b, hb⟩ := List.length_eq_one_iff.mp one
  simp [readByte, readBytes_at (by decide) h, byteAt, beNat, hb]

theorem readHalf_at (h : p + 2 ≤ file.length) :
    readHalf ⟨file, p⟩ = .ok (halfAt file p, ⟨file, p + 2⟩) := by
  have two : (slice file p (p + 2)).length = 2 := by rw [slice_length h]; omega
  simp [readHalf, readBytes_at (by decide) h, halfAt, bswap16_hostWord two]

theorem readWord_at (h : p + 4 ≤ file.length) :
    readWord ⟨file, p⟩ = .ok (wordAt file p, ⟨file, p + 4⟩) := by
  have four : (slice file p (p + 4)).length = 4 := by rw [slice_length h]; omega
  simp [readWord, readBytes_at (by decide) h, wordAt, bswap32_hostWord four]

theorem readShdr_at (h : p + 40 ≤ file.length) :
    readShdr ⟨file, p⟩ = .ok (shdrAt file p, ⟨file, p + 40⟩) := by
  simp (disch := omega) only [readShdr, readWord_at, ok_bind, Nat.add_assoc, Nat.reduceAdd, shdrAt]

theorem readSym_at (h : p + 16 ≤ file.length) :
    readSym ⟨file, p⟩ = .ok (symAt file p, ⟨file, p + 16⟩) := by
  simp (disch := omega) only [readSym, readWord_at, readHalf_at, readByte_at, ok_bind,
    Nat.add_assoc, Nat.reduceAdd, symAt]

theorem readRel_at (h : p + 8 ≤ file.length) :
    readRel ⟨file, p⟩ = .ok (relAt file p, ⟨file, p + 8⟩) := by
  simp (disch := omega) only [readRel, readWord_at, ok_bind, Nat.add_assoc, Nat.reduceAdd, relAt]

end reads

/-- Reading records of a fixed width one after another. -/
theorem collect_records {α : Type} {read : CFile → Run (α × CFile)} {decode : List UInt8 → Nat → α}
    {w : Nat} {file : List UInt8} {p n : Nat}
    (record : ∀ p, p + w ≤ file.length → read ⟨file, p⟩ = .ok (decode file p, ⟨file, p + w⟩))
    (h : p + w * n ≤ file.length) :
    collect (fun _ => read) 0 n ⟨file, p⟩ =
      .ok ((List.range n).map fun i => decode file (p + w * i), ⟨file, p + w * n⟩) := by
  have each : ∀ k, 0 ≤ k → k < 0 + n → (fun _ => read) k (⟨file, p + w * k⟩ : CFile) =
      .ok (decode file (p + w * k), ⟨file, p + w * (k + 1)⟩) := by
    intro k _ hk
    have room : w * k + w ≤ w * n := by
      rw [← Nat.mul_succ]
      exact Nat.mul_le_mul_left w (by omega)
    have here := record (p + w * k) (by omega)
    rwa [Nat.add_assoc, ← Nat.mul_succ] at here
  have run := collect_of_states (fun k => (⟨file, p + w * k⟩ : CFile))
    (fun k => decode file (p + w * k)) each
  simpa [List.range_eq_range'] using run

theorem loadHeader_at {file : List UInt8} (long : 52 ≤ file.length)
    (magic : magicElf (identOf file)) (class32 : (identOf file).eiClass = 1) :
    loadHeader (CFile.openRead file) = .ok (headerOf file, ⟨file, 52⟩) := by
  obtain ⟨h0, h1, h2, h3⟩ := magic
  simp only [identOf] at h0 h1 h2 h3 class32
  simp (disch := omega) only [loadHeader, CFile.openRead, readByte_at, ok_bind, Nat.reduceAdd,
    h0, h1, h2, h3, class32, ne_eq, not_true_eq_false, or_self, if_false, readBytes_at, readHalf_at,
    readWord_at, readAddress, if_true, headerOf, identOf]

/-- The `e_shnum` section headers that the file holds from `e_shoff` on. -/
def tableOf (file : List UInt8) (header : Elf32Ehdr) : List Elf32Shdr :=
  (List.range header.eShnum.toNat).map fun i => shdrAt file (header.eShoff.toNat + 40 * i)

@[simp] theorem tableOf_length (file : List UInt8) (header : Elf32Ehdr) :
    (tableOf file header).length = header.eShnum.toNat := by
  simp [tableOf]

theorem readTabSectionHeader_table {file : List UInt8} {header : Elf32Ehdr} {p : Nat}
    (fits : header.eShoff.toNat + 40 * header.eShnum.toNat ≤ file.length) :
    readTabSectionHeader ⟨file, p⟩ header = .ok (some (tableOf file header),
      ⟨file, header.eShoff.toNat + 40 * header.eShnum.toNat⟩) := by
  rw [readTabSectionHeader, CFile.fseek_natCast, collect_records (fun q hq => readShdr_at hq) fits,
    tableOf]

theorem readTabSectionHeader_at {file : List UInt8} {p : Nat}
    (fits : (headerOf file).eShoff.toNat + 40 * (headerOf file).eShnum.toNat ≤ file.length) :
    readTabSectionHeader ⟨file, p⟩ (headerOf file) = .ok (some (sectionsOf file),
      ⟨file, (headerOf file).eShoff.toNat + 40 * (headerOf file).eShnum.toNat⟩) :=
  readTabSectionHeader_table fits

/-- The symbols that the file holds in section `s`. -/
def symbolsAt (file : List UInt8) (s : Elf32Shdr) : List Elf32Sym :=
  (List.range (s.shSize.toNat / 16)).map fun j => symAt file (s.shOffset.toNat + 16 * j)

def relocsAt (file : List UInt8) (s : Elf32Shdr) : List Elf32Rel :=
  (List.range (s.shSize.toNat / 8)).map fun j => relAt file (s.shOffset.toNat + 8 * j)

end ArmRunner
