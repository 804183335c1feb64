import ArmRunner.Correct
import ArmRunner.Loaded

namespace ArmRunner

open CRun WriteLog

theorem signExtend16_eq (p : UInt16) : signExtend16 p = p.toUInt32 := by
  unfold signExtend16
  split <;> simp

theorem signExtend8_eq (p : UInt8) : signExtend8 p = p.toUInt32 := by
  unfold signExtend8
  split <;> simp

/-- The byte stored for an entry: of `S`, of the address of the symbol's section and of the
offset of the entry, nothing but the lowest byte of the sum. -/
def storedByte (sym : Elf32Sym) (s : Elf32Shdr) (rel : Elf32Rel) : UInt8 :=
  (sym.stValue + (s.shAddr + rel.rOffset)).toUInt8

theorem storedByte_abs16 (sym : Elf32Sym) (s : Elf32Shdr) (rel : Elf32Rel) :
    (sym.stValue + signExtend16 (s.shAddr + rel.rOffset).toUInt16).toUInt8 =
      storedByte sym s rel := by
  rw [signExtend16_eq, storedByte]
  apply UInt8.toNat_inj.mp
  simp only [UInt32.toNat_toUInt8, UInt32.toNat_add, UInt16.toNat_toUInt32, UInt32.toNat_toUInt16]
  omega

theorem storedByte_abs8 (sym : Elf32Sym) (s : Elf32Shdr) (rel : Elf32Rel) :
    (sym.stValue + signExtend8 (s.shAddr + rel.rOffset).toUInt8).toUInt8 =
      storedByte sym s rel := by
  rw [signExtend8_eq, storedByte]
  apply UInt8.toNat_inj.mp
  simp only [UInt32.toNat_toUInt8, UInt32.toNat_add, UInt8.toNat_toUInt32]
  omega

/-- The byte at an offset of a section's buffer. -/
def byteOf (content : List SectionContent) (place : Nat × Nat) : Option UInt8 :=
  content[place.1]?.bind fun c => c.sectionBytes[place.2]?

theorem byteOf_isSome {content : List SectionContent} {place : Nat × Nat} :
    (byteOf content place).isSome ↔
      ∃ c, content[place.1]? = some c ∧ place.2 < c.sectionBytes.length := by
  unfold byteOf
  cases hc : content[place.1]? with
  | none => simp
  | some c => simp

theorem storeByte_eq_ok {content content' : List SectionContent} {place : Nat × Nat} {x : UInt8} :
    storeByte content place x = .ok content' ↔
      ∃ c, content[place.1]? = some c ∧ place.2 < c.sectionBytes.length ∧
        content' = content.set place.1 { c with sectionBytes := c.sectionBytes.set place.2 x } := by
  constructor
  · intro h
    obtain ⟨c, hc, h⟩ := bind_eq_ok.mp h
    obtain ⟨bytes, hb, h⟩ := bind_eq_ok.mp h
    have hc' := fetch_eq_ok.mp hc
    obtain ⟨inside, rfl⟩ := assign_eq_ok.mp hb
    exact ⟨c, hc', inside, (assign_eq_ok.mp h).2⟩
  · rintro ⟨c, hc, hlt, rfl⟩
    have there := (List.getElem?_eq_some_iff.mp hc).1
    rw [storeByte, fetch_eq_ok.mpr hc, ok_bind, assign_of_lt x hlt, ok_bind, assign_of_lt _ there]

theorem byteOf_set {content : List SectionContent} {place q : Nat × Nat} {c : SectionContent}
    {x : UInt8} (hc : content[place.1]? = some c) (hlt : place.2 < c.sectionBytes.length) :
    byteOf (content.set place.1 { c with sectionBytes := c.sectionBytes.set place.2 x }) q =
      if q = place then some x else byteOf content q := by
  have there := (List.getElem?_eq_some_iff.mp hc).1
  unfold byteOf
  by_cases hsec : q.1 = place.1
  · rw [hsec, List.getElem?_set_self there, hc, Option.bind_some, Option.bind_some]
    by_cases hoff : q.2 = place.2
    · rw [if_pos (Prod.ext hsec hoff), hoff, List.getElem?_set_self hlt]
    · have hne : q ≠ place := fun h => hoff (by rw [h])
      rw [if_neg hne, List.getElem?_set_ne (Ne.symm hoff)]
  · have hne : q ≠ place := fun h => hsec (by rw [h])
    rw [if_neg hne, List.getElem?_set_ne (Ne.symm hsec)]

/-- The section contents as a memory of bytes. -/
def contentMemory : Memory (List SectionContent) (Nat × Nat) UInt8 (List Int) where
  read := byteOf
  write := storeByte
  shape := List.map SectionContent.size
  write_mapped b h := by
    obtain ⟨c, hc, hlt⟩ := byteOf_isSome.mp h
    exact ⟨_, storeByte_eq_ok.mpr ⟨c, hc, hlt, rfl⟩⟩
  write_isSome h := by
    obtain ⟨c, hc, hlt, _⟩ := storeByte_eq_ok.mp h
    exact byteOf_isSome.mpr ⟨c, hc, hlt⟩
  read_write h q := by
    obtain ⟨c, hc, hlt, rfl⟩ := storeByte_eq_ok.mp h
    exact byteOf_set hc hlt
  shape_write h := by
    obtain ⟨c, hc, _, rfl⟩ := storeByte_eq_ok.mp h
    rw [List.map_set]
    apply List.ext_getElem?
    intro k
    rw [List.getElem?_set]
    split
    next hk =>
      split
      next => rw [← hk, List.getElem?_map, hc]; rfl
      next hlt => rw [List.getElem?_eq_none (by omega)]
    next => rfl
  ext := by
    intro content content' hshape hread
    apply List.ext_getElem?
    intro t
    have sizes := congrArg (·[t]?) hshape
    simp only [List.getElem?_map] at sizes
    cases hc : content[t]? with
    | none =>
      rw [hc] at sizes
      cases hc' : content'[t]? with
      | none => rfl
      | some c' =>
        rw [hc'] at sizes
        cases sizes
    | some c =>
      rw [hc] at sizes
      cases hc' : content'[t]? with
      | none =>
        rw [hc'] at sizes
        cases sizes
      | some c' =>
        rw [hc'] at sizes
        have bytes : c.sectionBytes = c'.sectionBytes := by
          apply List.ext_getElem?
          intro k
          have := hread (t, k)
          simpa [byteOf, hc, hc'] using this
        have size : c.size = c'.size := Option.some.inj sizes
        obtain ⟨size1, bytes1⟩ := c
        obtain ⟨size2, bytes2⟩ := c'
        simp only at bytes size
        rw [bytes, size]

/-- The symbol of an entry and the header of that symbol's section. -/
def target (elf : Elf32Main) (rel : Elf32Rel) : Option (Elf32Sym × Elf32Shdr) := do
  let sym ← elf.symTable[rel.sym]?
  let s ← elf.sectHeader[sym.stShndx.toNat]?
  some (sym, s)

/-- The lookups for an entry of any type stay inside the tables. -/
def EntryInRange (elf : Elf32Main) (rel : Elf32Rel) : Prop :=
  ∃ sym s, target elf rel = some (sym, s) ∧ s.shInfo.toNat < elf.sectionContent.length

/-- The one byte that an entry of type `R_ARM_ABS16` or `R_ARM_ABS8` stores, and its place. -/
def storeOf (elf : Elf32Main) (rel : Elf32Rel) : List ((Nat × Nat) × UInt8) :=
  match target elf rel with
  | some (sym, s) =>
    if rel.type = rArmAbs16 ∨ rel.type = rArmAbs8 then
      [((s.shInfo.toNat, rel.rOffset.toNat), storedByte sym s rel)]
    else []
  | none => []

section entry

variable {elf elf' : Elf32Main} {rel : Elf32Rel}

theorem target_eq_some {sym : Elf32Sym} {s : Elf32Shdr} :
    target elf rel = some (sym, s) ↔
      elf.symTable[rel.sym]? = some sym ∧ elf.sectHeader[sym.stShndx.toNat]? = some s := by
  unfold target
  cases hsym : elf.symTable[rel.sym]? with
  | none => simp
  | some sym' =>
    cases hs : elf.sectHeader[sym'.stShndx.toNat]? with
    | none =>
      simp only [Option.bind_eq_bind, Option.bind_some, hs, Option.bind_none, reduceCtorEq,
        Option.some.injEq, false_iff]
      rintro ⟨rfl, h⟩
      rw [hs] at h
      cases h
    | some s' =>
      simp only [Option.bind_eq_bind, Option.bind_some, hs, Option.some.injEq, Prod.mk.injEq]
      constructor
      · rintro ⟨rfl, rfl⟩
        exact ⟨rfl, hs⟩
      · rintro ⟨rfl, h⟩
        exact ⟨rfl, Option.some.inj (hs.symm.trans h)⟩

theorem replay_singleton {content content' : List SectionContent} {place : Nat × Nat} {x : UInt8} :
    replay contentMemory [(place, x)] content = .ok content' ↔
      storeByte content place x = .ok content' := by
  constructor
  · intro h
    obtain ⟨c, hw, h⟩ := bind_eq_ok.mp h
    cases h
    exact hw
  · intro h
    exact bind_eq_ok.mpr ⟨content', h, rfl⟩

/-- One entry returns exactly when its lookups and its store do, and changes the contents only. -/
theorem correctEntry_eq_ok : correctEntry rel elf = .ok elf' ↔
    EntryInRange elf rel ∧ ∃ content,
      replay contentMemory (storeOf elf rel) elf.sectionContent = .ok content ∧
      elf' = { elf with sectionContent := content } := by
  constructor
  · intro h
    obtain ⟨sym, hsym, h⟩ := bind_eq_ok.mp h
    obtain ⟨s, hs, h⟩ := bind_eq_ok.mp h
    obtain ⟨c, hc, h⟩ := bind_eq_ok.mp h
    have found := target_eq_some.mpr ⟨fetch_eq_ok.mp hsym, fetch_eq_ok.mp hs⟩
    have inside := (List.getElem?_eq_some_iff.mp (fetch_eq_ok.mp hc)).1
    refine ⟨⟨sym, s, found, inside⟩, ?_⟩
    simp only [storeOf, found]
    split at h
    next h16 =>
      obtain ⟨content, hw, h⟩ := bind_eq_ok.mp h
      cases h
      rw [storedByte_abs16] at hw
      rw [if_pos (Or.inl h16)]
      exact ⟨content, replay_singleton.mpr hw, rfl⟩
    next h16 =>
      split at h
      next h8 =>
        obtain ⟨content, hw, h⟩ := bind_eq_ok.mp h
        cases h
        rw [storedByte_abs8] at hw
        rw [if_pos (Or.inr h8)]
        exact ⟨content, replay_singleton.mpr hw, rfl⟩
      next h8 =>
        cases h
        rw [if_neg (not_or.mpr ⟨h16, h8⟩)]
        exact ⟨_, rfl, rfl⟩
  · rintro ⟨⟨sym, s, found, inside⟩, content, hr, rfl⟩
    obtain ⟨hsym, hs⟩ := target_eq_some.mp found
    simp only [storeOf, found] at hr
    rw [correctEntry, fetch_eq_ok.mpr hsym, ok_bind, fetch_eq_ok.mpr hs, ok_bind,
      fetch_of_lt inside, ok_bind]
    dsimp only
    rw [storedByte_abs16, storedByte_abs8]
    by_cases h16 : rel.type = rArmAbs16
    · rw [if_pos (Or.inl h16)] at hr
      rw [if_pos h16, replay_singleton.mp hr, ok_bind]
    · rw [if_neg h16]
      by_cases h8 : rel.type = rArmAbs8
      · rw [if_pos (Or.inr h8)] at hr
        rw [if_pos h8, replay_singleton.mp hr, ok_bind]
      · rw [if_neg (not_or.mpr ⟨h16, h8⟩)] at hr
        cases hr
        rw [if_neg h8]

theorem replay_length {log : List ((Nat × Nat) × UInt8)} {content content' : List SectionContent}
    (h : replay contentMemory log content = .ok content') : content'.length = content.length := by
  simpa [contentMemory] using congrArg List.length (replay_shape h)

/-- A run over entries is the replay of the stores that its start state gives. -/
theorem correctEntries_eq_ok {rels : List Elf32Rel} :
    rels.foldlM (fun e r => correctEntry r e) elf = .ok elf' ↔
      (∀ r ∈ rels, EntryInRange elf r) ∧ ∃ content,
        replay contentMemory (rels.flatMap (storeOf elf)) elf.sectionContent = .ok content ∧
        elf' = { elf with sectionContent := content } := by
  induction rels generalizing elf with
  | nil => simp [replay, eq_comm]
  | cons r rels ih =>
    rw [List.foldlM_cons, List.flatMap_cons, replay_append]
    constructor
    · intro h
      obtain ⟨next, hr, h⟩ := bind_eq_ok.mp h
      obtain ⟨head, content, hc, rfl⟩ := correctEntry_eq_ok.mp hr
      obtain ⟨rest, content', hc', rfl⟩ := ih.mp h
      refine ⟨?_, content', ?_, rfl⟩
      · intro t ht
        rcases List.mem_cons.mp ht with rfl | ht
        · exact head
        · obtain ⟨sym, s, found, inside⟩ := rest t ht
          exact ⟨sym, s, found, replay_length hc ▸ inside⟩
      · rw [hc, ok_bind]
        exact hc'
    · rintro ⟨all, content', hc', rfl⟩
      obtain ⟨content, hc, hrest⟩ := bind_eq_ok.mp hc'
      have head := correctEntry_eq_ok.mpr ⟨all r List.mem_cons_self, content, hc, rfl⟩
      apply bind_eq_ok.mpr
      refine ⟨_, head, ih.mpr ⟨?_, content', hrest, rfl⟩⟩
      intro t ht
      obtain ⟨sym, s, found, inside⟩ := all t (List.mem_cons_of_mem _ ht)
      exact ⟨sym, s, found, by rw [replay_length hc]; exact inside⟩

end entry

/-- The counts kept beside the relocation tables are those of the tables. -/
structure RelocShape (elf : Elf32Main) : Prop where
  nbSections : elf.tabSecRel.nbSections = elf.relTable.length
  tabNb : elf.tabSecRel.tabNb = elf.relTable.map List.length

section relocation

variable {elf elf' : Elf32Main}

/-- What the relocation of one table leaves alone. -/
def SameTables (elf elf' : Elf32Main) : Prop :=
  elf'.tabSecRel = elf.tabSecRel ∧ elf'.relTable = elf.relTable

theorem correctEntry_sameTables {base : Elf32Main} {rel : Elf32Rel} (h : SameTables base elf)
    (run : correctEntry rel elf = .ok elf') : SameTables base elf' := by
  obtain ⟨_, content, _, rfl⟩ := correctEntry_eq_ok.mp run
  exact h

theorem RelocShape.count_at (shape : RelocShape elf) {i : Nat} {table : List Elf32Rel}
    (ht : elf.relTable[i]? = some table) : elf.tabSecRel.tabNb[i]? = some table.length := by
  rw [shape.tabNb, List.getElem?_map, ht]
  rfl

theorem correctTable_eq {base : Elf32Main} (shape : RelocShape base) (same : SameTables base elf)
    {i : Nat} {table : List Elf32Rel} (ht : base.relTable[i]? = some table) :
    correctTable i elf = table.foldlM (fun e r => correctEntry r e) elf := by
  have count : elf.tabSecRel.tabNb[i]? = some table.length := same.1 ▸ shape.count_at ht
  rw [correctTable, fetch_eq_ok.mpr count, ok_bind]
  apply forLoop_foldlM (I := SameTables base) same
  · intro k rel e hk he
    rw [Nat.zero_add, he.2, fetch_eq_ok.mpr ht, ok_bind, fetch_eq_ok.mpr hk, ok_bind]
  · intro rel e e' he run
    exact correctEntry_sameTables he run

theorem correctEntries_sameTables {base : Elf32Main} {rels : List Elf32Rel}
    (h : SameTables base elf)
    (run : rels.foldlM (fun e r => correctEntry r e) elf = .ok elf') : SameTables base elf' := by
  obtain ⟨_, content, _, rfl⟩ := correctEntries_eq_ok.mp run
  exact h

/-- The nested loops go through the entries of all the tables in order. -/
theorem correctABSReloc_foldlM (shape : RelocShape elf) :
    correctABSReloc elf = elf.relTable.flatten.foldlM (fun e r => correctEntry r e) elf := by
  rw [correctABSReloc, shape.nbSections, foldlM_flatten]
  apply forLoop_foldlM (I := SameTables elf) ⟨rfl, rfl⟩
  · intro k table e hk he
    rw [Nat.zero_add]
    exact correctTable_eq shape he hk
  · intro table e e' he run
    exact correctEntries_sameTables he run

/-- All the stores of a pass over the relocation tables. -/
def stores (elf : Elf32Main) : List ((Nat × Nat) × UInt8) :=
  elf.relTable.flatten.flatMap (storeOf elf)

/-- A pass returns exactly when the lookups of every entry are in range and its stores can be
replayed, and it changes the contents only. -/
theorem correctABSReloc_eq_ok (shape : RelocShape elf) : correctABSReloc elf = .ok elf' ↔
    (∀ r ∈ elf.relTable.flatten, EntryInRange elf r) ∧ ∃ content,
      replay contentMemory (stores elf) elf.sectionContent = .ok content ∧
      elf' = { elf with sectionContent := content } := by
  rw [correctABSReloc_foldlM shape, correctEntries_eq_ok, stores]

/-- Whether a pass returns is decided by its lookups and by the places of its stores. -/
theorem correctABSReloc_returns_iff (shape : RelocShape elf) :
    (∃ elf', correctABSReloc elf = .ok elf') ↔
      (∀ rel ∈ elf.relTable.flatten, EntryInRange elf rel) ∧
        ∀ s ∈ stores elf, (byteOf elf.sectionContent s.1).isSome := by
  constructor
  · rintro ⟨elf', run⟩
    obtain ⟨inRange, content, replayed, _⟩ := (correctABSReloc_eq_ok shape).mp run
    exact ⟨inRange, replay_returns_iff.mp ⟨content, replayed⟩⟩
  · rintro ⟨inRange, placed⟩
    obtain ⟨content, replayed⟩ := (replay_returns_iff (M := contentMemory)).mpr placed
    exact ⟨_, (correctABSReloc_eq_ok shape).mpr ⟨inRange, content, replayed, rfl⟩⟩

theorem readRelocTable_shape {f : CFile} {header : Elf32Ehdr} {sectHeader : List Elf32Shdr}
    {r : RelocLoad} (h : readRelocTable f header sectHeader ⟨[], 0⟩ = .ok r) :
    r.tabSecRel.nbSections = r.tables.length ∧ r.tabSecRel.tabNb = r.tables.map List.length := by
  apply forLoop_partial (I := fun _ (r : RelocLoad) =>
    r.tabSecRel.nbSections = r.tables.length ∧ r.tabSecRel.tabNb = r.tables.map List.length) h
  · exact ⟨rfl, rfl⟩
  · intro k r r' _ _ hr run
    obtain ⟨s, _, run⟩ := bind_eq_ok.mp run
    split at run
    next =>
      dsimp only at run
      split at run
      next => cases run
      next =>
        obtain ⟨⟨entries, g⟩, hc, run⟩ := bind_eq_ok.mp run
        cases run
        simp [hr.1, hr.2, collect_length hc]
    next =>
      cases run
      exact hr

/-- A table is read for each section of type `SHT_REL`. -/
theorem readRelocTable_count {f : CFile} {header : Elf32Ehdr} {sectHeader : List Elf32Shdr}
    {r : RelocLoad} (full : sectHeader.length = header.eShnum.toNat)
    (h : readRelocTable f header sectHeader ⟨[], 0⟩ = .ok r) :
    r.tables.length = (sectHeader.filter Elf32Shdr.isRel).length := by
  have all := forLoop_partial (I := fun k (r : RelocLoad) =>
    r.tables.length = ((sectHeader.take k).filter Elf32Shdr.isRel).length) h rfl ?_
  · simpa [← full] using all
  · intro k r r' _ _ hr run
    obtain ⟨s, hs, run⟩ := bind_eq_ok.mp run
    rw [List.take_add_one, fetch_eq_ok.mp hs, List.filter_append, List.length_append, ← hr]
    split at run
    next rel =>
      dsimp only at run
      split at run
      next => cases run
      next =>
        obtain ⟨⟨entries, g⟩, hc, run⟩ := bind_eq_ok.mp run
        cases run
        simp [Elf32Shdr.isRel, rel]
    next rel =>
      cases run
      simp [Elf32Shdr.isRel, rel]

theorem load_relocShape {file : List UInt8} {f : CFile} (h : load file = .ok (elf, f)) :
    RelocShape elf := by
  obtain ⟨_, _, _, _, _, _, _, _, _, hreloc, _⟩ := load_eq_ok h
  obtain ⟨nb, counts⟩ := readRelocTable_shape hreloc
  exact ⟨nb, counts⟩

theorem load_relocCount {file : List UInt8} {f : CFile} (h : load file = .ok (elf, f)) :
    elf.relTable.length = (elf.sectHeader.filter Elf32Shdr.isRel).length := by
  obtain ⟨_, _, _, _, _, _, _, _, _, hreloc, _⟩ := load_eq_ok h
  exact readRelocTable_count (load_loaded h).heads hreloc

end relocation

end ArmRunner
