import ArmRunner.Load

namespace ArmRunner

open CRun Words

section fields

variable {size off : Nat}

theorem readBytes_eq_ok {f f' : CFile} {n : Nat} {bs : List UInt8} :
    readBytes f n = .ok (bs, f') ↔ f.fread n = some (bs, f') := by
  unfold readBytes
  split <;> simp_all

theorem readBytes_reads {n : Nat} (hn : n ≠ 0) : Reads n (fun f => readBytes f n) := by
  refine ⟨?_, ?_⟩
  · intro f enough
    have fits : f.pos + n ≤ f.bytes.length := by
      unfold CFile.left at enough
      omega
    exact ⟨_, readBytes_eq_ok.mpr (CFile.fread_of_le hn fits)⟩
  · intro f short
    unfold CFile.left at short
    have none : f.fread n = none := if_neg (by omega)
    simp only [readBytes, none]

theorem readByte_reads : Reads 1 readByte :=
  (readBytes_reads one_ne_zero).map fun bs => UInt8.ofNat (leNat bs)

theorem readHalf_reads : Reads 2 readHalf :=
  (readBytes_reads two_ne_zero).map fun bs => bswap16 (hostWord16 bs)

theorem readWord_reads : Reads 4 readWord :=
  (readBytes_reads four_ne_zero).map fun bs => bswap32 (hostWord32 bs)

theorem readBytes_fills {n : Nat} (hn : n ≠ 0) :
    Fills size off n (readBytesInto size off n) (fun f => readBytes f n) := by
  refine ⟨readBytes_reads hn, ?_⟩
  intro _ f
  unfold readBytesInto CFile.freadInto
  split
  · rfl
  · rfl

theorem readByte_fills : Fills size off 1 (readByteInto size off) readByte :=
  (readBytes_fills one_ne_zero).map fun bs => UInt8.ofNat (leNat bs)

theorem readHalf_fills : Fills size off 2 (readHalfInto size off) readHalf :=
  (readBytes_fills two_ne_zero).map fun bs => bswap16 (hostWord16 bs)

theorem readWord_fills : Fills size off 4 (readWordInto size off) readWord :=
  (readBytes_fills four_ne_zero).map fun bs => bswap32 (hostWord32 bs)

theorem readRel_fills : Fills size off 8 (readRelInto size off) readRel := by
  have fields := (@readWord_fills size off).bind fun rOffset =>
    (@readWord_fills size (off + 4)).map fun rInfo => Elf32Rel.mk rOffset rInfo
  exact fields

theorem readShdr_fills : Fills size off 40 (readShdrInto size off) readShdr := by
  have fields := (@readWord_fills size off).bind fun shName =>
    (@readWord_fills size (off + 4)).bind fun shType =>
    (@readWord_fills size (off + 8)).bind fun shFlags =>
    (@readWord_fills size (off + 12)).bind fun shAddr =>
    (@readWord_fills size (off + 16)).bind fun shOffset =>
    (@readWord_fills size (off + 20)).bind fun shSize =>
    (@readWord_fills size (off + 24)).bind fun shLink =>
    (@readWord_fills size (off + 28)).bind fun shInfo =>
    (@readWord_fills size (off + 32)).bind fun shAddralign =>
    (@readWord_fills size (off + 36)).map fun shEntsize =>
      Elf32Shdr.mk shName shType shFlags shAddr shOffset shSize shLink shInfo shAddralign shEntsize
  exact fields

theorem readSym_fills : Fills size off 16 (readSymInto size off) readSym := by
  have fields := (@readWord_fills size off).bind fun stName =>
    (@readWord_fills size (off + 4)).bind fun stValue =>
    (@readWord_fills size (off + 8)).bind fun stSize =>
    (@readByte_fills size (off + 12)).bind fun stInfo =>
    (@readByte_fills size (off + 13)).bind fun stOther =>
    (@readHalf_fills size (off + 14)).map fun stShndx =>
      Elf32Sym.mk stName stValue stSize stInfo stOther stShndx
  exact fields

end fields

section loaders

variable {f : CFile} {header : Elf32Ehdr} {sectHeader : List Elf32Shdr}

/-- What the section header table needs of its block. -/
theorem loadTabSectionHeader_eq
    (small : header.eShentsize.toNat * header.eShnum.toNat < 2 ^ 31) :
    loadTabSectionHeader f header =
      if header.eShentsize.toNat * header.eShnum.toNat <
          min (40 * header.eShnum.toNat) (f.fseek header.eShoff.toNat).left then .error .fault
      else readTabSectionHeader f header := by
  have fills := Fills.collect (fun k => @readShdr_fills
    (header.eShentsize.toNat * header.eShnum.toNat) (40 * k)) 0 header.eShnum.toNat
  have run := fills.run (f.fseek header.eShoff.toNat)
  have noFault := fills.reads.not_fault (f.fseek header.eShoff.toNat)
  rw [loadTabSectionHeader, readTabSectionHeader, if_neg (by omega)]
  dsimp only
  rw [run]
  by_cases beyond : header.eShentsize.toNat * header.eShnum.toNat <
      min (40 * header.eShnum.toNat) (f.fseek header.eShoff.toNat).left
  · rw [if_pos beyond, if_pos beyond]
  · rw [if_neg beyond, if_neg beyond]
    cases result : collect (fun _ => readShdr) 0 header.eShnum.toNat
        (f.fseek header.eShoff.toNat) with
    | ok r => rfl
    | error e =>
      cases e with
      | exit => rfl
      | fault => exact absurd result noFault

theorem loadRelocSection_eq :
    loadRelocSection sectHeader = readRelocSection sectHeader := by
  funext i r
  rw [loadRelocSection, readRelocSection]
  cases fetch sectHeader i with
  | error e => rfl
  | ok s =>
    have fills := Fills.collect (fun j => @readRel_fills s.shSize.toNat (8 * j)) 0
      (s.shSize.toNat / 8)
    have room : 8 * (s.shSize.toNat / 8) ≤ s.shSize.toNat := Nat.mul_div_le _ _
    simp only [ok_bind, fills.run_of_le room]

theorem loadRelocTable_eq (tabSecRel : TableauSectionReloc) :
    loadRelocTable f header sectHeader tabSecRel =
      readRelocTable f header sectHeader tabSecRel := by
  rw [loadRelocTable, readRelocTable, loadRelocSection_eq]

theorem loadTabSectionHeader_read {r : Option (List Elf32Shdr) × CFile}
    (h : loadTabSectionHeader f header = .ok r) : readTabSectionHeader f header = .ok r := by
  by_cases small : header.eShentsize.toNat * header.eShnum.toNat < 2 ^ 31
  · rw [loadTabSectionHeader_eq small] at h
    split at h
    · cases h
    · exact h
  · rw [loadTabSectionHeader, if_pos (by omega)] at h
    cases h

/-- A symbol table that is loaded had room in its block. -/
theorem loadSymTable_read {r : (List Elf32Sym × Int) × CFile}
    (h : loadSymTable f header sectHeader = .ok r) :
    readSymTable f header sectHeader = .ok r := by
  obtain ⟨i, hi, h⟩ := bind_eq_ok.mp h
  rw [readSymTable, hi, ok_bind]
  split at h
  next beyond => rw [if_pos beyond, h]
  next inside =>
    rw [if_neg inside]
    obtain ⟨s, hs, h⟩ := bind_eq_ok.mp h
    obtain ⟨⟨tab, g⟩, read, h⟩ := bind_eq_ok.mp h
    have fills := Fills.collect (fun j => @readSym_fills (s.shSize * 16).toNat (16 * j)) 0
      (s.shSize.toNat / 16)
    rw [fills.run] at read
    split at read
    · cases read
    · rw [hs, ok_bind]
      exact bind_eq_ok.mpr ⟨_, read, h⟩

end loaders

end ArmRunner
