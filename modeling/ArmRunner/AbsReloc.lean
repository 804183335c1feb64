import ArmRunner.Encode
import ArmRunner.Relocate

namespace ArmRunner

open CRun Slice Words WriteLog

/-- The bytes that an absolute relocation is about, and the value `S` of its symbol. -/
structure Field where
  sec : Nat
  off : Nat
  width : Nat
  symbol : UInt32
  deriving DecidableEq, Repr

def absWidth (type : Nat) : Option Nat :=
  if type = rArmAbs32 then some 4
  else if type = rArmAbs16 then some 2
  else if type = rArmAbs8 then some 1
  else none

/-- The fields that the entries of one relocation section designate in its target section. -/
def tableFields (elf : Elf32Main) (r : Elf32Shdr) (table : List Elf32Rel) : List Field :=
  table.filterMap fun rel =>
    (absWidth rel.type).bind fun width => elf.symTable[rel.sym]?.map fun sym =>
      ⟨r.shInfo.toNat, rel.rOffset.toNat, width, sym.stValue⟩

def fieldsOf (elf : Elf32Main) : List Field :=
  ((elf.sectHeader.filter Elf32Shdr.isRel).zip elf.relTable).flatMap fun p =>
    tableFields elf p.1 p.2

/-- A number of `w` bytes, read with its sign. -/
def signed (w n : Nat) : Int := if n < 2 ^ (8 * w - 1) then n else n - 2 ^ (8 * w)

def Field.covers (f : Field) (place : Nat × Nat) : Prop :=
  f.sec = place.1 ∧ f.off ≤ place.2 ∧ place.2 < f.off + f.width

instance (f : Field) (place : Nat × Nat) : Decidable (f.covers place) :=
  inferInstanceAs (Decidable (_ ∧ _))

def Field.bytes (content : List SectionContent) (f : Field) : List UInt8 :=
  (content[f.sec]?).elim [] fun c => slice c.sectionBytes f.off (f.off + f.width)

/-- The field with `S + A`, where `A` is its present value with its sign. -/
def Field.relocated (content : List SectionContent) (f : Field) : List UInt8 :=
  beBytes f.width
    ((f.symbol.toNat + signed f.width (beNat (f.bytes content))) % 2 ^ (8 * f.width) : Int).toNat

/-- Every field holds the sum prescribed for it, and every other byte is as before. -/
structure AbsApplied (elf elf' : Elf32Main) : Prop where
  fields : ∀ f ∈ fieldsOf elf, f.bytes elf'.sectionContent = f.relocated elf.sectionContent
  frame : ∀ place, (∀ f ∈ fieldsOf elf, ¬f.covers place) →
    byteOf elf'.sectionContent place = byteOf elf.sectionContent place

/-- The fields lie in their sections' contents and apart from each other. -/
structure FieldsApart (elf : Elf32Main) : Prop where
  inside : ∀ f ∈ fieldsOf elf, (f.bytes elf.sectionContent).length = f.width
  apart : (fieldsOf elf).Pairwise fun f g =>
    f.sec = g.sec → f.off + f.width ≤ g.off ∨ g.off + g.width ≤ f.off

/-- The lookups and the stores of the entries are in range, the last byte stored at a place is
the one prescribed there, and the prescribed sums leave the bytes that no entry stores alone. -/
structure StoresAgree (elf : Elf32Main) : Prop where
  inRange : ∀ rel ∈ elf.relTable.flatten, EntryInRange elf rel
  placed : ∀ s ∈ stores elf, (byteOf elf.sectionContent s.1).isSome
  stored : ∀ place b, lastWrite (stores elf) place = some b →
    (∀ f ∈ fieldsOf elf, f.covers place →
      (f.relocated elf.sectionContent)[place.2 - f.off]? = some b) ∧
    ((∀ f ∈ fieldsOf elf, ¬f.covers place) → byteOf elf.sectionContent place = some b)
  unstored : ∀ f ∈ fieldsOf elf, ∀ place, f.covers place → (∀ s ∈ stores elf, s.1 ≠ place) →
    (f.relocated elf.sectionContent)[place.2 - f.off]? = byteOf elf.sectionContent place

section fields

variable {content : List SectionContent} {f : Field}

@[simp] theorem relocated_length : (f.relocated content).length = f.width := beBytes_length _ _

theorem bytes_getElem? {k : Nat} (hk : k < f.width) :
    (f.bytes content)[k]? = byteOf content (f.sec, f.off + k) := by
  unfold Field.bytes byteOf
  cases hc : content[f.sec]? with
  | none => rfl
  | some c =>
    rw [Option.elim_some, Option.bind_some]
    exact slice_getElem? (by omega)

theorem bytes_length_le : (f.bytes content).length ≤ f.width := by
  unfold Field.bytes
  cases content[f.sec]? with
  | none => exact Nat.zero_le _
  | some c =>
    rw [Option.elim_some, slice, List.length_take]
    omega

theorem bytes_eq_relocated {content' : List SectionContent} :
    f.bytes content' = f.relocated content ↔ ∀ place, f.covers place →
      byteOf content' place = (f.relocated content)[place.2 - f.off]? := by
  constructor
  · rintro h ⟨t, k⟩ ⟨hsec, low, high⟩
    simp only at hsec low high ⊢
    rw [← h, bytes_getElem? (by omega), hsec, Nat.add_sub_cancel' low]
  · intro h
    apply List.ext_getElem?
    intro k
    by_cases hk : k < f.width
    · rw [bytes_getElem? hk, h (f.sec, f.off + k) ⟨rfl, by simp, by simpa using hk⟩]
      simp
    · have short : (f.bytes content').length ≤ f.width := bytes_length_le
      rw [List.getElem?_eq_none (by omega), List.getElem?_eq_none (by rw [relocated_length]; omega)]

theorem add_mod_eq_right_iff {s n m : Nat} (h : n < m) : (s + n) % m = n ↔ s % m = 0 := by
  have small := Nat.mod_lt s (Nat.zero_lt_of_lt h)
  have split : (s + n) % m = (s % m + n) % m := by rw [Nat.mod_add_mod]
  rw [split]
  by_cases carry : s % m + n < m
  · rw [Nat.mod_eq_of_lt carry]
    omega
  · rw [Nat.mod_eq_sub_mod (by omega), Nat.mod_eq_of_lt (by omega)]
    omega

/-- The sign of `A` makes no difference to the sum in the field's width. -/
theorem signed_sum (s w n : Nat) :
    (((s : Int) + signed w n) % 2 ^ (8 * w)).toNat = (s + n) % 2 ^ (8 * w) := by
  have cast : (2 : Int) ^ (8 * w) = ((2 ^ (8 * w) : Nat) : Int) := by push_cast; rfl
  have sum : ((s : Int) + signed w n) % 2 ^ (8 * w) = ((s : Int) + n) % 2 ^ (8 * w) := by
    unfold signed
    split
    · rfl
    · rw [← Int.add_sub_assoc, Int.sub_emod_right]
  rw [sum, cast, ← Int.natCast_add, ← Int.natCast_mod, Int.toNat_natCast]

/-- Adding `S` leaves a whole field as it is only if `S` is 0 in the field's width. -/
theorem relocated_eq_bytes_iff (inside : (f.bytes content).length = f.width) :
    f.relocated content = f.bytes content ↔ f.symbol.toNat % 2 ^ (8 * f.width) = 0 := by
  have power : 256 ^ f.width = 2 ^ (8 * f.width) := by rw [Nat.pow_mul]
  have bound := beNat_lt (f.bytes content)
  rw [inside, power] at bound
  rw [← add_mod_eq_right_iff bound, Field.relocated, signed_sum]
  constructor
  · intro same
    have value := congrArg beNat same
    rwa [beNat_beBytes, power, Nat.mod_mod] at value
  · intro value
    rw [value, beBytes_beNat inside]

end fields

/-- A pass over the relocation tables applies the absolute relocations exactly when what it
stores, one byte for each entry of type `R_ARM_ABS16` or `R_ARM_ABS8`, agrees with them. -/
theorem applied_iff_storesAgree {elf : Elf32Main} (shape : RelocShape elf) :
    (∃ elf', correctABSReloc elf = .ok elf' ∧ AbsApplied elf elf') ↔ StoresAgree elf := by
  constructor
  · rintro ⟨elf', run, applied⟩
    obtain ⟨inRange, content, replayed, rfl⟩ := (correctABSReloc_eq_ok shape).mp run
    refine ⟨inRange, replay_returns_iff.mp ⟨content, replayed⟩, ?_, ?_⟩
    · intro place b last
      have written : byteOf content place = some b := read_written replayed last
      refine ⟨?_, ?_⟩
      · intro g hg covers
        rw [← bytes_eq_relocated.mp (applied.fields g hg) place covers]
        exact written
      · intro outside
        rw [← applied.frame place outside]
        exact written
    · intro g hg place covers untouched
      rw [← bytes_eq_relocated.mp (applied.fields g hg) place covers]
      exact read_untouched replayed (lastWrite_eq_none_iff.mpr untouched)
  · intro agree
    obtain ⟨content, replayed⟩ := (replay_returns_iff (M := contentMemory)).mpr agree.placed
    refine ⟨{ elf with sectionContent := content },
      (correctABSReloc_eq_ok shape).mpr ⟨agree.inRange, content, replayed, rfl⟩, ?_, ?_⟩
    · intro g hg
      apply bytes_eq_relocated.mpr
      intro place covers
      cases last : lastWrite (stores elf) place with
      | some b =>
        rw [(agree.stored place b last).1 g hg covers]
        exact read_written replayed last
      | none =>
        rw [agree.unstored g hg place covers (lastWrite_eq_none_iff.mp last)]
        exact read_untouched replayed last
    · intro place outside
      cases last : lastWrite (stores elf) place with
      | some b =>
        have before := (agree.stored place b last).2 outside
        exact (read_written replayed last).trans before.symm
      | none => exact read_untouched replayed last

end ArmRunner
