import ArmRunner.AbsReloc

namespace ArmRunner

open CRun Slice Words WriteLog

/-- The entries, each with the header of its relocation section. -/
def entriesOf (elf : Elf32Main) : List (Elf32Shdr × Elf32Rel) :=
  ((elf.sectHeader.filter Elf32Shdr.isRel).zip elf.relTable).flatMap fun p => p.2.map (p.1, ·)

/-- The field that an entry designates in the target section of its table. -/
def fieldOf (elf : Elf32Main) (e : Elf32Shdr × Elf32Rel) : Option Field :=
  (absWidth e.2.type).bind fun width => elf.symTable[e.2.sym]?.map fun sym =>
    ⟨e.1.shInfo.toNat, e.2.rOffset.toNat, width, sym.stValue⟩

/-- What an entry of the relocation section `r` needs for its field to come out right, with the
value `S` and the section `s` of its symbol: the pass leaves an `R_ARM_ABS32` field alone, and
of the others it replaces one byte, which it looks for in the section `s.sh_info`. -/
structure EntryFits (elf : Elf32Main) (r : Elf32Shdr) (rel : Elf32Rel) (sym : Elf32Sym)
    (s : Elf32Shdr) : Prop where
  abs32 : rel.type = rArmAbs32 → sym.stValue.toNat = 0
  abs16 : rel.type = rArmAbs16 → s.shInfo = r.shInfo → sym.stValue.toNat % 2 ^ 8 = 0 ∧
    ∃ high, byteOf elf.sectionContent (r.shInfo.toNat, rel.rOffset.toNat) = some high ∧
      (sym.stValue.toNat / 2 ^ 8 + high.toNat) % 2 ^ 8 =
        (s.shAddr.toNat + rel.rOffset.toNat) % 2 ^ 8
  abs8 : rel.type = rArmAbs8 → s.shInfo = r.shInfo →
    ∃ addend, byteOf elf.sectionContent (r.shInfo.toNat, rel.rOffset.toNat) = some addend ∧
      addend.toNat = (s.shAddr.toNat + rel.rOffset.toNat) % 2 ^ 8
  -- a store into another section does no harm where the byte was there already
  astray : rel.type = rArmAbs16 ∨ rel.type = rArmAbs8 → s.shInfo ≠ r.shInfo →
    (∀ width ∈ absWidth rel.type, sym.stValue.toNat % 2 ^ (8 * width) = 0) ∧
    ∃ old, byteOf elf.sectionContent (s.shInfo.toNat, rel.rOffset.toNat) = some old ∧
      old.toNat = (s.shAddr.toNat + rel.rOffset.toNat) % 2 ^ 8

/-- Every entry has a symbol, in a section whose `sh_info` numbers a content, and fits. -/
def EntriesFit (elf : Elf32Main) : Prop :=
  ∀ e ∈ entriesOf elf, ∃ sym s, target elf e.2 = some (sym, s) ∧
    s.shInfo.toNat < elf.sectionContent.length ∧ EntryFits elf e.1 e.2 sym s

/-- No two entries store at one place, and a store into another section than that of the entry's
field meets no field. -/
structure StoresApart (elf : Elf32Main) : Prop where
  places : (stores elf).Pairwise fun s t => s.1 ≠ t.1
  astray : ∀ e ∈ entriesOf elf, ∀ store ∈ storeOf elf e.2, store.1.1 ≠ e.1.shInfo.toNat →
    ∀ f ∈ fieldsOf elf, ¬f.covers store.1

section entries

variable {elf : Elf32Main} {e e' : Elf32Shdr × Elf32Rel} {f f' : Field} {place : Nat × Nat}
  {sym : Elf32Sym} {s : Elf32Shdr}

theorem fieldsOf_eq : fieldsOf elf = (entriesOf elf).filterMap (fieldOf elf) := by
  simp only [fieldsOf, entriesOf, tableFields, List.filterMap_flatMap, List.filterMap_map]
  rfl

theorem mem_fieldsOf : f ∈ fieldsOf elf ↔ ∃ e ∈ entriesOf elf, fieldOf elf e = some f := by
  rw [fieldsOf_eq, List.mem_filterMap]

theorem flatten_relTable
    (count : elf.relTable.length = (elf.sectHeader.filter Elf32Shdr.isRel).length) :
    elf.relTable.flatten = (entriesOf elf).map Prod.snd := by
  have tables : elf.relTable =
      ((elf.sectHeader.filter Elf32Shdr.isRel).zip elf.relTable).map Prod.snd :=
    (List.map_snd_zip (Nat.le_of_eq count)).symm
  conv_lhs => rw [tables]
  simp [entriesOf, List.flatMap_def, Function.comp_def]

theorem mem_storeOf {rel : Elf32Rel} {store : (Nat × Nat) × UInt8} :
    store ∈ storeOf elf rel ↔ ∃ sym s, target elf rel = some (sym, s) ∧
      (rel.type = rArmAbs16 ∨ rel.type = rArmAbs8) ∧
      store = ((s.shInfo.toNat, rel.rOffset.toNat), storedByte sym s rel) := by
  unfold storeOf
  cases target elf rel with
  | none => simp
  | some found =>
    obtain ⟨sym, s⟩ := found
    by_cases type : rel.type = rArmAbs16 ∨ rel.type = rArmAbs8
    · simp [type]
    · simp [type]

theorem mem_stores (count : elf.relTable.length = (elf.sectHeader.filter Elf32Shdr.isRel).length)
    {store : (Nat × Nat) × UInt8} :
    store ∈ stores elf ↔ ∃ e ∈ entriesOf elf, store ∈ storeOf elf e.2 := by
  rw [stores, flatten_relTable count, List.flatMap_map, List.mem_flatMap]

theorem fieldOf_eq_some (found : target elf e.2 = some (sym, s)) :
    fieldOf elf e = some f ↔ ∃ width, absWidth e.2.type = some width ∧
      f = ⟨e.1.shInfo.toNat, e.2.rOffset.toNat, width, sym.stValue⟩ := by
  rw [fieldOf, (target_eq_some.mp found).1, Option.bind_eq_some_iff]
  simp only [Option.map_some, Option.some.injEq, eq_comm]

theorem absWidth_eq_some {type width : Nat} : absWidth type = some width ↔
    type = rArmAbs32 ∧ width = 4 ∨ type = rArmAbs16 ∧ width = 2 ∨ type = rArmAbs8 ∧ width = 1 := by
  unfold absWidth rArmAbs32 rArmAbs16 rArmAbs8
  grind

/-- The fields of two entries lie apart. -/
def EntriesApart (elf : Elf32Main) (e e' : Elf32Shdr × Elf32Rel) : Prop :=
  ∀ f, fieldOf elf e = some f → ∀ f', fieldOf elf e' = some f' →
    f.sec = f'.sec → f.off + f.width ≤ f'.off ∨ f'.off + f'.width ≤ f.off

instance : Std.Symm (EntriesApart elf) :=
  ⟨fun _ _ h f hf f' hf' same => (h f' hf' f hf same.symm).symm⟩

theorem FieldsApart.same_entry (apart : FieldsApart elf) (he : e ∈ entriesOf elf)
    (he' : e' ∈ entriesOf elf) (hf : fieldOf elf e = some f) (hf' : fieldOf elf e' = some f')
    (covers : f.covers place) (covers' : f'.covers place) : e = e' := by
  have pairs : (entriesOf elf).Pairwise (EntriesApart elf) :=
    List.pairwise_filterMap.mp (fieldsOf_eq ▸ apart.apart)
  by_contra differ
  have disjoint := pairs.forall he he' differ f hf f' hf' (covers.1.trans covers'.1.symm)
  have within := covers.2
  have within' := covers'.2
  omega

theorem relocated_one {content : List SectionContent} {a : UInt8} (width : f.width = 1)
    (bytes : f.bytes content = [a]) :
    f.relocated content = [UInt8.ofNat (f.symbol.toNat + a.toNat)] := by
  have sum := signed_sum f.symbol.toNat 1 a.toNat
  have value : beNat [a] = a.toNat := by simp [beNat, leNat]
  rw [Field.relocated, width, bytes, value, sum, beBytes, leBytes, leBytes, List.reverse_singleton]
  apply congrArg (fun b => [b])
  apply UInt8.toNat_inj.mp
  simp

theorem relocated_two {content : List SectionContent} {a b : UInt8} (width : f.width = 2)
    (bytes : f.bytes content = [a, b]) :
    f.relocated content = [UInt8.ofNat ((f.symbol.toNat + (256 * a.toNat + b.toNat)) / 256),
      UInt8.ofNat (f.symbol.toNat + b.toNat)] := by
  have sum := signed_sum f.symbol.toNat 2 (256 * a.toNat + b.toNat)
  have value : beNat [a, b] = 256 * a.toNat + b.toNat := by simp [beNat, leNat]; omega
  rw [Field.relocated, width, bytes, value, sum, beBytes, leBytes, leBytes, leBytes]
  simp only [List.reverse_cons, List.reverse_nil, List.nil_append, List.cons_append,
    List.cons.injEq, and_true]
  constructor
  · apply UInt8.toNat_inj.mp
    simp only [UInt8.toNat_ofNat']
    omega
  · apply UInt8.toNat_inj.mp
    simp only [UInt8.toNat_ofNat']
    omega

end entries

section applied

variable {elf : Elf32Main} {e : Elf32Shdr × Elf32Rel} {f : Field} {place : Nat × Nat}
  {sym : Elf32Sym} {s : Elf32Shdr}

theorem storedByte_toNat (sym : Elf32Sym) (s : Elf32Shdr) (rel : Elf32Rel) :
    (storedByte sym s rel).toNat =
      (sym.stValue.toNat + (s.shAddr.toNat + rel.rOffset.toNat)) % 2 ^ 8 := by
  simp only [storedByte, UInt32.toNat_toUInt8, UInt32.toNat_add]
  omega

/-- A field to which `S` adds nothing holds the sum already. -/
theorem FieldsApart.kept (apart : FieldsApart elf) (hf : f ∈ fieldsOf elf)
    (zero : f.symbol.toNat % 2 ^ (8 * f.width) = 0) (covers : f.covers place) :
    (f.relocated elf.sectionContent)[place.2 - f.off]? = byteOf elf.sectionContent place := by
  obtain ⟨hsec, low, high⟩ := covers
  rw [(relocated_eq_bytes_iff (apart.inside f hf)).mpr zero, bytes_getElem? (by omega), hsec,
    Nat.add_sub_cancel' low]

/-- A field in which nothing is stored is right only if `S` adds nothing. -/
theorem StoresAgree.zero_of_unstored (agree : StoresAgree elf) (apart : FieldsApart elf)
    (hf : f ∈ fieldsOf elf) (untouched : ∀ store ∈ stores elf, ¬f.covers store.1) :
    f.symbol.toNat % 2 ^ (8 * f.width) = 0 := by
  apply (relocated_eq_bytes_iff (apart.inside f hf)).mp
  symm
  apply bytes_eq_relocated.mpr
  intro place covers
  exact (agree.unstored f hf place covers fun store hstore same =>
    untouched store hstore (same ▸ covers)).symm

variable (count : elf.relTable.length = (elf.sectHeader.filter Elf32Shdr.isRel).length)

include count

/-- A store that meets the field of an entry is that entry's own, to the first byte. -/
theorem StoresApart.own_store (stored : StoresApart elf) (apart : FieldsApart elf)
    (he : e ∈ entriesOf elf) (hf : fieldOf elf e = some f) {store : (Nat × Nat) × UInt8}
    (hstore : store ∈ stores elf) (covers : f.covers store.1) :
    store ∈ storeOf elf e.2 ∧ store.1 = (f.sec, f.off) := by
  obtain ⟨e', he', from_e'⟩ := (mem_stores count).mp hstore
  obtain ⟨sym', s', found', type, rfl⟩ := mem_storeOf.mp from_e'
  have aimed : s'.shInfo.toNat = e'.1.shInfo.toNat := by
    by_contra astray
    exact stored.astray e' he' _ from_e' astray f (mem_fieldsOf.mpr ⟨e, he, hf⟩) covers
  obtain ⟨width, hwidth⟩ : ∃ width, absWidth e'.2.type = some width := by
    rcases type with h16 | h8
    · exact ⟨2, absWidth_eq_some.mpr (.inr (.inl ⟨h16, rfl⟩))⟩
    · exact ⟨1, absWidth_eq_some.mpr (.inr (.inr ⟨h8, rfl⟩))⟩
  have positive : 0 < width := by
    rcases absWidth_eq_some.mp hwidth with ⟨_, rfl⟩ | ⟨_, rfl⟩ | ⟨_, rfl⟩ <;> decide
  have own := (fieldOf_eq_some found').mpr ⟨width, hwidth, rfl⟩
  obtain rfl := apart.same_entry he' he own hf ⟨aimed.symm, Nat.le_refl _, by simpa⟩ covers
  cases Option.some.inj (own.symm.trans hf)
  exact ⟨from_e', by rw [aimed]⟩

omit count in
theorem EntryFits.placed {rel : Elf32Rel} {r : Elf32Shdr} (fits : EntryFits elf r rel sym s)
    (type : rel.type = rArmAbs16 ∨ rel.type = rArmAbs8) :
    (byteOf elf.sectionContent (s.shInfo.toNat, rel.rOffset.toNat)).isSome := by
  by_cases aimed : s.shInfo = r.shInfo
  · rw [aimed]
    rcases type with h16 | h8
    · obtain ⟨_, high, there, _⟩ := fits.abs16 h16 aimed
      exact Option.isSome_of_eq_some there
    · obtain ⟨addend, there, _⟩ := fits.abs8 h8 aimed
      exact Option.isSome_of_eq_some there
  · obtain ⟨_, old, there, _⟩ := fits.astray type aimed
    exact Option.isSome_of_eq_some there

omit count in
theorem FieldsApart.bytes_one (apart : FieldsApart elf) (hf : f ∈ fieldsOf elf)
    (width : f.width = 1) :
    ∃ a, f.bytes elf.sectionContent = [a] ∧ byteOf elf.sectionContent (f.sec, f.off) = some a := by
  obtain ⟨a, bytes⟩ := List.length_eq_one_iff.mp ((apart.inside f hf).trans width)
  refine ⟨a, bytes, ?_⟩
  have first : (f.bytes elf.sectionContent)[0]? = byteOf elf.sectionContent (f.sec, f.off + 0) :=
    bytes_getElem? (by omega)
  rw [bytes] at first
  exact first.symm

omit count in
theorem FieldsApart.bytes_two (apart : FieldsApart elf) (hf : f ∈ fieldsOf elf)
    (width : f.width = 2) :
    ∃ a b, f.bytes elf.sectionContent = [a, b] ∧
      byteOf elf.sectionContent (f.sec, f.off) = some a ∧
      byteOf elf.sectionContent (f.sec, f.off + 1) = some b := by
  obtain ⟨a, b, bytes⟩ := List.length_eq_two.mp ((apart.inside f hf).trans width)
  have first : (f.bytes elf.sectionContent)[0]? = byteOf elf.sectionContent (f.sec, f.off + 0) :=
    bytes_getElem? (by omega)
  have second : (f.bytes elf.sectionContent)[1]? = byteOf elf.sectionContent (f.sec, f.off + 1) :=
    bytes_getElem? (by omega)
  rw [bytes] at first second
  exact ⟨a, b, bytes, first.symm, second.symm⟩

omit count in
/-- The first byte of a field that its entry stores to is the one prescribed. -/
theorem EntryFits.first (fits : EntryFits elf e.1 e.2 sym s) (apart : FieldsApart elf)
    (hf : f ∈ fieldsOf elf) (type : e.2.type = rArmAbs16 ∧ f.width = 2 ∨
      e.2.type = rArmAbs8 ∧ f.width = 1) (aimed : s.shInfo = e.1.shInfo)
    (sec : f.sec = e.1.shInfo.toNat) (off : f.off = e.2.rOffset.toNat)
    (symbol : f.symbol = sym.stValue) :
    (f.relocated elf.sectionContent)[0]? = some (storedByte sym s e.2) := by
  have sum := storedByte_toNat sym s e.2
  rcases type with ⟨h16, width⟩ | ⟨h8, width⟩
  · obtain ⟨a, b, bytes, first, _⟩ := apart.bytes_two hf width
    obtain ⟨zero, high, there, agrees⟩ := fits.abs16 h16 aimed
    rw [sec, off, there] at first
    cases first
    rw [relocated_two width bytes, List.getElem?_cons_zero, symbol]
    apply congrArg some
    apply UInt8.toNat_inj.mp
    have low := b.toNat_lt
    rw [sum, UInt8.toNat_ofNat']
    omega
  · obtain ⟨a, bytes, first⟩ := apart.bytes_one hf width
    obtain ⟨addend, there, agrees⟩ := fits.abs8 h8 aimed
    rw [sec, off, there] at first
    cases first
    rw [relocated_one width bytes, List.getElem?_cons_zero, symbol]
    apply congrArg some
    apply UInt8.toNat_inj.mp
    rw [sum, UInt8.toNat_ofNat']
    omega

omit count in
theorem width_of_type (type : e.2.type = rArmAbs16 ∨ e.2.type = rArmAbs8) :
    ∃ width, absWidth e.2.type = some width ∧
      (e.2.type = rArmAbs16 ∧ width = 2 ∨ e.2.type = rArmAbs8 ∧ width = 1) := by
  rcases type with h16 | h8
  · exact ⟨2, absWidth_eq_some.mpr (.inr (.inl ⟨h16, rfl⟩)), .inl ⟨h16, rfl⟩⟩
  · exact ⟨1, absWidth_eq_some.mpr (.inr (.inr ⟨h8, rfl⟩)), .inr ⟨h8, rfl⟩⟩

/-- What a store leaves at its place is prescribed there, in a field or outside of all. -/
theorem EntriesFit.stored (fit : EntriesFit elf) (stored : StoresApart elf)
    (apart : FieldsApart elf) (he : e ∈ entriesOf elf) {store : (Nat × Nat) × UInt8}
    (hstore : store ∈ storeOf elf e.2) :
    (∀ f ∈ fieldsOf elf, f.covers store.1 →
      (f.relocated elf.sectionContent)[store.1.2 - f.off]? = some store.2) ∧
    ((∀ f ∈ fieldsOf elf, ¬f.covers store.1) →
      byteOf elf.sectionContent store.1 = some store.2) := by
  obtain ⟨sym, s, found, type, rfl⟩ := mem_storeOf.mp hstore
  obtain ⟨sym', s', found', _, fits⟩ := fit e he
  cases Option.some.inj (found.symm.trans found')
  obtain ⟨width, hwidth, ofType⟩ := width_of_type type
  have own := (fieldOf_eq_some found).mpr ⟨width, hwidth, rfl⟩
  have hown := mem_fieldsOf.mpr ⟨e, he, own⟩
  by_cases aimed : s.shInfo = e.1.shInfo
  · have first := fits.first apart hown ofType aimed rfl rfl rfl
    refine ⟨?_, ?_⟩
    · intro f hf covers
      obtain ⟨e', he', from_e'⟩ := mem_fieldsOf.mp hf
      obtain ⟨same, place⟩ := stored.own_store count apart he' from_e'
        ((mem_stores count).mpr ⟨e, he, hstore⟩) covers
      have shares : e' = e := by
        apply apart.same_entry he' he from_e' own covers
        refine ⟨by rw [aimed], Nat.le_refl _, ?_⟩
        rcases ofType with ⟨_, rfl⟩ | ⟨_, rfl⟩ <;> simp
      cases shares
      cases Option.some.inj (from_e'.symm.trans own)
      simpa using first
    · intro outside
      refine absurd ⟨by rw [aimed], Nat.le_refl _, ?_⟩ (outside _ hown)
      rcases ofType with ⟨_, rfl⟩ | ⟨_, rfl⟩ <;> simp
  · have far : s.shInfo.toNat ≠ e.1.shInfo.toNat := fun same => aimed (UInt32.toNat_inj.mp same)
    refine ⟨fun f hf covers => absurd covers (stored.astray e he _ hstore far f hf), ?_⟩
    intro _
    obtain ⟨zero, old, there, agrees⟩ := fits.astray type aimed
    have low := zero width hwidth
    rw [there]
    apply congrArg some
    apply UInt8.toNat_inj.mp
    rw [agrees, storedByte_toNat]
    rcases ofType with ⟨_, rfl⟩ | ⟨_, rfl⟩ <;> omega

/-- The bytes of a field that nothing is stored to are prescribed as they are. -/
theorem EntriesFit.unstored (fit : EntriesFit elf) (apart : FieldsApart elf)
    (hf : f ∈ fieldsOf elf) (covers : f.covers place)
    (untouched : ∀ store ∈ stores elf, store.1 ≠ place) :
    (f.relocated elf.sectionContent)[place.2 - f.off]? = byteOf elf.sectionContent place := by
  obtain ⟨e, he, from_e⟩ := mem_fieldsOf.mp hf
  obtain ⟨sym, s, found, _, fits⟩ := fit e he
  obtain ⟨width, hwidth, same⟩ := (fieldOf_eq_some found).mp from_e
  by_cases h32 : e.2.type = rArmAbs32
  · refine apart.kept hf ?_ covers
    rw [same, fits.abs32 h32, Nat.zero_mod]
  · have types := (absWidth_eq_some.mp hwidth).resolve_left fun h => h32 h.1
    have type : e.2.type = rArmAbs16 ∨ e.2.type = rArmAbs8 := types.imp And.left And.left
    by_cases aimed : s.shInfo = e.1.shInfo
    · have there : (e.1.shInfo.toNat, e.2.rOffset.toNat) ≠ place :=
        untouched _ ((mem_stores count).mpr
          ⟨e, he, mem_storeOf.mpr ⟨sym, s, found, type, by rw [aimed]⟩⟩)
      obtain ⟨hsec, low, high⟩ := covers
      rw [same] at hsec low high
      rcases types with ⟨h16, rfl⟩ | ⟨h8, rfl⟩
      · have second : place = (f.sec, f.off + 1) := by
          apply Prod.ext
          · rw [same, ← hsec]
          · have : place.2 ≠ e.2.rOffset.toNat := fun h => there (Prod.ext hsec h.symm)
            rw [same]
            simp only at low high ⊢
            omega
        obtain ⟨a, b, bytes, _, hb⟩ := apart.bytes_two hf (by rw [same])
        rw [second, hb, relocated_two (by rw [same]) bytes, Nat.add_sub_cancel_left,
          List.getElem?_cons_succ, List.getElem?_cons_zero]
        apply congrArg some
        apply UInt8.toNat_inj.mp
        have zero := (fits.abs16 h16 aimed).1
        have small := b.toNat_lt
        rw [UInt8.toNat_ofNat', same]
        simp only
        omega
      · have : place.2 = e.2.rOffset.toNat := by
          simp only at low high
          omega
        exact absurd (Prod.ext hsec this.symm) there
    · refine apart.kept hf ?_ covers
      rw [same]
      exact (fits.astray type aimed).1 width hwidth

theorem EntriesFit.storesAgree (fit : EntriesFit elf) (stored : StoresApart elf)
    (apart : FieldsApart elf) : StoresAgree elf := by
  refine ⟨?_, ?_, ?_, fun f hf place covers => fit.unstored count apart hf covers⟩
  · intro rel hrel
    rw [flatten_relTable count] at hrel
    obtain ⟨e, he, rfl⟩ := List.mem_map.mp hrel
    obtain ⟨sym, s, found, inside, _⟩ := fit e he
    exact ⟨sym, s, found, inside⟩
  · intro store hstore
    obtain ⟨e, he, from_e⟩ := (mem_stores count).mp hstore
    obtain ⟨sym, s, found, type, rfl⟩ := mem_storeOf.mp from_e
    obtain ⟨sym', s', found', _, fits⟩ := fit e he
    cases Option.some.inj (found.symm.trans found')
    exact fits.placed type
  · intro place b last
    obtain ⟨e, he, from_e⟩ := (mem_stores count).mp (mem_of_lastWrite last)
    exact fit.stored count stored apart he from_e

/-- Where no two stores meet, nothing but fitting entries is relocated rightly. -/
theorem StoresAgree.entriesFit (agree : StoresAgree elf) (stored : StoresApart elf)
    (apart : FieldsApart elf) : EntriesFit elf := by
  intro e he
  obtain ⟨sym, s, found, inside⟩ := agree.inRange e.2
    (flatten_relTable count ▸ List.mem_map_of_mem he)
  have own : ∀ width, absWidth e.2.type = some width → fieldOf elf e =
      some ⟨e.1.shInfo.toNat, e.2.rOffset.toNat, width, sym.stValue⟩ :=
    fun width hwidth => (fieldOf_eq_some found).mpr ⟨width, hwidth, rfl⟩
  have written : e.2.type = rArmAbs16 ∨ e.2.type = rArmAbs8 →
      ((s.shInfo.toNat, e.2.rOffset.toNat), storedByte sym s e.2) ∈ stores elf :=
    fun type => (mem_stores count).mpr ⟨e, he, mem_storeOf.mpr ⟨sym, s, found, type, rfl⟩⟩
  have sum := storedByte_toNat sym s e.2
  refine ⟨sym, s, found, inside, ?_, ?_, ?_, ?_⟩
  · intro h32
    have hown := own 4 (absWidth_eq_some.mpr (.inl ⟨h32, rfl⟩))
    have zero := agree.zero_of_unstored apart (mem_fieldsOf.mpr ⟨e, he, hown⟩) fun store hs cov => by
      obtain ⟨from_e, _⟩ := stored.own_store count apart he hown hs cov
      obtain ⟨_, _, _, type, _⟩ := mem_storeOf.mp from_e
      rw [h32] at type
      revert type
      decide
    have bound := sym.stValue.toNat_lt
    simp only at zero
    omega
  · intro h16 aimed
    have hown := own 2 (absWidth_eq_some.mpr (.inr (.inl ⟨h16, rfl⟩)))
    have hf := mem_fieldsOf.mpr ⟨e, he, hown⟩
    obtain ⟨a, b, bytes, ha, hb⟩ := apart.bytes_two hf rfl
    have last := lastWrite_of_mem stored.places (written (.inl h16))
    have first := (agree.stored _ _ last).1 _ hf ⟨by rw [aimed], Nat.le_refl _, by simp⟩
    have second := agree.unstored _ hf (e.1.shInfo.toNat, e.2.rOffset.toNat + 1)
      ⟨rfl, by simp, by simp⟩ fun store hs same => by
        obtain ⟨_, place⟩ := stored.own_store count apart he hown hs
          (by rw [same]; exact ⟨rfl, by simp, by simp⟩)
        rw [same] at place
        simp at place
    rw [relocated_two rfl bytes] at first second
    simp only [Nat.sub_self, List.getElem?_cons_zero, Option.some.injEq] at first
    rw [hb] at second
    simp only [Nat.add_sub_cancel_left, List.getElem?_cons_succ, List.getElem?_cons_zero,
      Option.some.injEq] at second
    have high := congrArg UInt8.toNat first
    have low := congrArg UInt8.toNat second
    rw [sum, UInt8.toNat_ofNat'] at high
    rw [UInt8.toNat_ofNat'] at low
    have small := b.toNat_lt
    have zero : sym.stValue.toNat % 2 ^ 8 = 0 := by omega
    exact ⟨zero, a, ha, by omega⟩
  · intro h8 aimed
    have hown := own 1 (absWidth_eq_some.mpr (.inr (.inr ⟨h8, rfl⟩)))
    have hf := mem_fieldsOf.mpr ⟨e, he, hown⟩
    obtain ⟨a, bytes, ha⟩ := apart.bytes_one hf rfl
    have last := lastWrite_of_mem stored.places (written (.inr h8))
    have first := (agree.stored _ _ last).1 _ hf ⟨by rw [aimed], Nat.le_refl _, by simp⟩
    rw [relocated_one rfl bytes] at first
    simp only [Nat.sub_self, List.getElem?_cons_zero, Option.some.injEq] at first
    have value := congrArg UInt8.toNat first
    rw [sum, UInt8.toNat_ofNat'] at value
    have small := a.toNat_lt
    exact ⟨a, ha, by omega⟩
  · intro type astray
    have far : s.shInfo.toNat ≠ e.1.shInfo.toNat := fun same => astray (UInt32.toNat_inj.mp same)
    have zero : ∀ width ∈ absWidth e.2.type, sym.stValue.toNat % 2 ^ (8 * width) = 0 := by
      intro width hwidth
      refine agree.zero_of_unstored apart (mem_fieldsOf.mpr ⟨e, he, own width hwidth⟩)
        fun store hs cov => ?_
      obtain ⟨from_e, place⟩ := stored.own_store count apart he (own width hwidth) hs cov
      obtain ⟨sym', s', found', _, rfl⟩ := mem_storeOf.mp from_e
      cases Option.some.inj (found.symm.trans found')
      exact far (Prod.mk.inj place).1
    refine ⟨zero, storedByte sym s e.2, ?_, ?_⟩
    · have last := lastWrite_of_mem stored.places (written type)
      exact (agree.stored _ _ last).2 (stored.astray e he _
        (mem_storeOf.mpr ⟨sym, s, found, type, rfl⟩) far)
    · obtain ⟨width, hwidth, ofType⟩ := width_of_type type
      have low := zero width hwidth
      rw [sum]
      rcases ofType with ⟨_, rfl⟩ | ⟨_, rfl⟩ <;> omega

end applied

/-- The absolute relocations are applied where no two stores meet and every entry fits, and,
where no two stores meet, only there. -/
theorem correctABSReloc_applied {file : List UInt8} {loaded : Elf32Main} {f : CFile}
    (hload : load file = .ok (loaded, f)) (symTable : List Elf32Sym)
    (fields : FieldsApart { loaded with symTable }) :
    (StoresApart { loaded with symTable } ∧ EntriesFit { loaded with symTable } →
      ∃ elf', correctABSReloc { loaded with symTable } = .ok elf' ∧
        AbsApplied { loaded with symTable } elf') ∧
    (StoresApart { loaded with symTable } →
      (∃ elf', correctABSReloc { loaded with symTable } = .ok elf' ∧
        AbsApplied { loaded with symTable } elf') →
      EntriesFit { loaded with symTable }) := by
  have count : loaded.relTable.length = _ := load_relocCount hload
  have shape : RelocShape { loaded with symTable } :=
    ⟨(load_relocShape hload).nbSections, (load_relocShape hload).tabNb⟩
  constructor
  · rintro ⟨stored, fit⟩
    exact (applied_iff_storesAgree shape).mpr (fit.storesAgree count stored fields)
  · intro stored applied
    exact ((applied_iff_storesAgree shape).mp applied).entriesFit count stored fields

def abs32Sections : List Elf32Shdr :=
  [objectShdr 0 0 0 0 0 0, objectShdr 0 1 52 4 0 0, objectShdr 0 shtRel 56 8 3 1,
    objectShdr 0 shtSymtab 64 16 0 0]

def abs32Symbol : Elf32Sym := ⟨0, 1, 0, 0, 0, 1⟩

/-- An object file with one relocation of type `R_ARM_ABS32`, of a symbol of value 1. -/
def abs32File : List UInt8 :=
  assemble (objectHeader 80 4 0)
    ([0, 0, 0, 0] ++ [0, 0, 0, 0, 0, 0, 0, 2] ++ symBytes abs32Symbol) abs32Sections

def abs32Elf : Elf32Main where
  header := objectHeader 80 4 0
  sectHeader := abs32Sections
  symTable := [abs32Symbol]
  relTable := [[⟨0, 2⟩]]
  sectionContent := [⟨0, []⟩, ⟨4, [0, 0, 0, 0]⟩, ⟨8, [0, 0, 0, 0, 0, 0, 0, 2]⟩,
    ⟨16, symBytes abs32Symbol⟩]
  tabSecRel := ⟨[1], 1⟩
  nbSymboles := 1

theorem load_abs32File : load abs32File = .ok (abs32Elf, ⟨abs32File, 80⟩) := by
  decide +kernel

/-- An object file whose symbol's section has its own number as `sh_info`, with a relocation of
type `R_ARM_ABS8` and one of type `R_ARM_ABS16` that come out right. -/
def fittingFile : List UInt8 :=
  assemble (objectHeader 88 4 0)
    ([0, 0, 1, 7] ++ [0, 0, 0, 0, 0, 0, 0, 8, 0, 0, 0, 2, 0, 0, 0, 5] ++
      symBytes { abs32Symbol with stValue := 256 })
    [objectShdr 0 0 0 0 0 0, objectShdr 0 1 52 4 0 1, objectShdr 0 shtRel 56 16 3 1,
      objectShdr 0 shtSymtab 72 16 0 0]

def fittingElf : Elf32Main where
  header := objectHeader 88 4 0
  sectHeader := [objectShdr 0 0 0 0 0 0, objectShdr 0 1 52 4 0 1, objectShdr 0 shtRel 56 16 3 1,
    objectShdr 0 shtSymtab 72 16 0 0]
  symTable := [{ abs32Symbol with stValue := 256 }]
  relTable := [[⟨0, 8⟩, ⟨2, 5⟩]]
  sectionContent := [⟨0, []⟩, ⟨4, [0, 0, 1, 7]⟩,
    ⟨16, [0, 0, 0, 0, 0, 0, 0, 8, 0, 0, 0, 2, 0, 0, 0, 5]⟩,
    ⟨16, symBytes { abs32Symbol with stValue := 256 }⟩]
  tabSecRel := ⟨[2], 1⟩
  nbSymboles := 1

theorem load_fittingFile : load fittingFile = .ok (fittingElf, ⟨fittingFile, 88⟩) := by
  decide +kernel

theorem fittingElf_storesApart : StoresApart fittingElf :=
  ⟨by decide, by decide⟩

theorem fittingElf_entriesFit : EntriesFit fittingElf := by
  have entries : entriesOf fittingElf =
      [(objectShdr 0 shtRel 56 16 3 1, ⟨0, 8⟩), (objectShdr 0 shtRel 56 16 3 1, ⟨2, 5⟩)] := by
    decide
  intro e he
  rw [entries] at he
  rcases List.mem_pair.mp he with rfl | rfl
  · refine ⟨_, _, rfl, by decide, by decide, by decide, ?_,
      by decide⟩
    exact fun _ _ => ⟨0, by decide, by decide⟩
  · refine ⟨_, _, rfl, by decide, by decide, ?_, by decide,
      by decide⟩
    exact fun _ _ => ⟨by decide, 1, by decide, by decide⟩

theorem correctABSReloc_applied_fittingFile :
    ∃ elf', correctABSReloc fittingElf = .ok elf' ∧ AbsApplied fittingElf elf' :=
  (correctABSReloc_applied load_fittingFile fittingElf.symTable
    ⟨by decide, by decide⟩).1 ⟨fittingElf_storesApart, fittingElf_entriesFit⟩

/-- The field that should hold 1 holds 0 after the pass. -/
theorem correctABSReloc_abs32 :
    ∃ elf f, load abs32File = .ok (elf, f) ∧ FieldsApart elf ∧
      ¬∃ elf', correctABSReloc elf = .ok elf' ∧ AbsApplied elf elf' := by
  refine ⟨abs32Elf, _, load_abs32File, ⟨by decide, by decide⟩, ?_⟩
  rintro ⟨elf', run, applied⟩
  have unchanged : correctABSReloc abs32Elf = .ok abs32Elf := by decide
  rw [unchanged] at run
  cases run
  have field : (⟨1, 0, 4, 1⟩ : Field) ∈ fieldsOf abs32Elf := by decide
  exact absurd (applied.fields _ field) (by decide)

end ArmRunner
