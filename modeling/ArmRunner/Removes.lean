import ArmRunner.DeleteRel
import ArmRunner.Lib.NewIndex

namespace ArmRunner

open NewIndex

def keep (s : Section) : Bool := s.1.kept

section step

variable {v : View} {i : Nat} {s : Section}

theorem keep_eq_false (hrel : s.1.isRel = true) : keep s = false := by
  simp [keep, Elf32Shdr.kept, hrel]

theorem keep_of_not_rel (hrel : s.1.isRel = false) : keep s = true := by
  simp [keep, Elf32Shdr.kept, hrel]

theorem remove_newIndex (hs : v.sections[i]? = some s) (hrel : s.1.isRel = true) (x : Nat) :
    newIndex keep (v.remove i s.1).sections (if i < x then x - 1 else x) =
      newIndex keep v.sections x := by
  rw [View.remove, newIndex_map]
  exact newIndex_eraseIdx hs (keep_eq_false hrel) x

theorem remove_front {rel : Elf32Shdr} (front : ∀ t ∈ v.sections.take i, keep t = true) :
    ∀ t ∈ (v.remove i rel).sections.take i, keep t = true := by
  intro t ht
  have short : (v.sections.eraseIdx i).take i = v.sections.take i := by
    apply List.ext_getElem?
    intro k
    simp only [List.getElem?_take, List.getElem?_eraseIdx]
    split <;> rfl
  rw [View.remove, ← List.map_take, short] at ht
  obtain ⟨u, hu, rfl⟩ := List.mem_map.mp ht
  exact front u hu

theorem skip_front (hs : v.sections[i]? = some s) (hrel : s.1.isRel = false)
    (front : ∀ t ∈ v.sections.take i, keep t = true) :
    ∀ t ∈ v.sections.take (i + 1), keep t = true := by
  intro t ht
  rw [List.take_add_one, hs] at ht
  rcases List.mem_append.mp ht with ht | ht
  · exact front t ht
  · cases List.mem_singleton.mp ht
    exact keep_of_not_rel hrel

/-- Where a section that is not the removed one is found after the removal. -/
theorem remove_getElem? (rel : Elf32Shdr) {k : Nat} {t : Section} (hk : k ≠ i)
    (ht : v.sections[k]? = some t) :
    (v.remove i rel).sections[if i < k then k - 1 else k]? =
      some (relink i rel t.1, t.2) := by
  simp only [View.remove, List.getElem?_map, List.getElem?_eraseIdx]
  by_cases hik : i < k
  · rw [if_pos hik, if_neg (by omega), Nat.sub_add_cancel (by omega), ht]
    rfl
  · rw [if_neg hik, if_pos (by omega), ht]
    rfl

/-- An index that designates nothing or a section that stays does so after the removal. -/
theorem remove_designates (hs : v.sections[i]? = some s) (rel : Elf32Shdr) {x : Nat} (hne : x ≠ i)
    (designates : ∀ t, v.sections[x]? = some t → keep t = true) :
    ∀ t, (v.remove i rel).sections[if i < x then x - 1 else x]? = some t → keep t = true := by
  intro t ht
  by_cases hlen : x < v.sections.length
  · have here : v.sections[x]? = some v.sections[x] := List.getElem?_eq_getElem hlen
    rw [remove_getElem? _ hne here] at ht
    cases Option.some.inj ht
    have stays := designates _ here
    exact stays
  · have hi := (List.getElem?_eq_some_iff.mp hs).1
    have beyond := (List.getElem?_eq_some_iff.mp ht).1
    rw [if_pos (by omega), View.remove, List.length_map, List.length_eraseIdx_of_lt hi] at beyond
    omega

theorem removed_ne (hs : v.sections[i]? = some s) (hrel : s.1.isRel = true) {x : Nat}
    (designates : ∀ t, v.sections[x]? = some t → keep t = true) : x ≠ i := by
  rintro rfl
  have stays := designates s hs
  rw [keep_eq_false hrel] at stays
  cases stays

end step

/-- What relates an object file without relocation sections to itself, and passes from the file
after one removal to the file before it, relates the two ends of a whole run. -/
theorem removes_relate {R : View → View → Prop} {i : Nat} {v w : View} (h : Removes i v w)
    (front : ∀ s ∈ v.sections.take i, keep s = true)
    (refl : ∀ v : View, (∀ s ∈ v.sections, keep s = true) → R v v)
    (step : ∀ (i : Nat) (v w : View) (s : Section),
      (∀ t ∈ v.sections.take i, keep t = true) → v.sections[i]? = some s → s.1.isRel = true →
      R (v.remove i s.1) w → R v w) : R v w := by
  induction h with
  | done hlen => exact refl _ (by rwa [List.take_of_length_le hlen] at front)
  | skip hs hrel _ ih => exact ih (skip_front hs hrel front)
  | delete hs hrel _ ih => exact step _ _ _ _ front hs hrel (ih (remove_front front))

/-- A section up to the two header fields that a deletion may rewrite. -/
def Section.stable (s : Section) : Section := ({ s.1 with shOffset := 0, shLink := 0 }, s.2)

theorem stable_fields {s s' : Section} (h : s'.stable = s.stable) :
    s'.2 = s.2 ∧ s'.1.shName = s.1.shName ∧ s'.1.shType = s.1.shType ∧
      s'.1.shSize = s.1.shSize ∧ s'.1.shInfo = s.1.shInfo := by
  obtain ⟨heads, content⟩ := Prod.mk.inj h
  simp only [Elf32Shdr.mk.injEq] at heads
  obtain ⟨name, type, _, _, _, size, _, info, _, _⟩ := heads
  exact ⟨content, name, type, size, info⟩

section run

variable {i : Nat} {v w : View}

theorem removes_sections (h : Removes i v w) (front : ∀ s ∈ v.sections.take i, keep s = true) :
    w.sections.map Section.stable = (v.sections.filter keep).map Section.stable := by
  apply removes_relate (R := fun v w =>
    w.sections.map Section.stable = (v.sections.filter keep).map Section.stable) h front
  · intro v all
    rw [List.filter_eq_self.mpr all]
  · intro i v w s _ hs hrel ih
    rw [ih, View.remove, List.filter_map, List.map_map,
      ← filter_eraseIdx hs (keep_eq_false hrel)]
    rfl

theorem removes_kept (h : Removes i v w) (front : ∀ s ∈ v.sections.take i, keep s = true) :
    ∀ s ∈ w.sections, keep s = true := by
  intro s hs
  have hm : s.stable ∈ (v.sections.filter keep).map Section.stable :=
    removes_sections h front ▸ List.mem_map_of_mem hs
  obtain ⟨t, ht, he⟩ := List.mem_map.mp hm
  have same : keep s = keep t := by
    obtain ⟨_, _, type, _⟩ := stable_fields he
    simp [keep, Elf32Shdr.kept, Elf32Shdr.isRel, type]
  rw [same]
  exact (List.mem_filter.mp ht).2

theorem removes_length (h : Removes i v w) (front : ∀ s ∈ v.sections.take i, keep s = true) :
    w.sections.length = (v.sections.filter keep).length := by
  simpa using congrArg List.length (removes_sections h front)

/-- A section that stays keeps its content and every header field but `sh_offset` and `sh_link`. -/
theorem removes_getElem? (h : Removes i v w) (front : ∀ s ∈ v.sections.take i, keep s = true)
    {k : Nat} {s : Section} (hs : v.sections[k]? = some s) (hkeep : keep s = true) :
    ∃ s', w.sections[newIndex keep v.sections k]? = some s' ∧ s'.stable = s.stable := by
  have there := congrArg (·[newIndex keep v.sections k]?) (removes_sections h front)
  simp only [List.getElem?_map, filter_getElem?_newIndex hs hkeep, Option.map_some,
    Option.map_eq_some_iff] at there
  exact there

theorem relink_shLink {i : Nat} {rel s : Elf32Shdr} :
    (relink i rel s).shLink.toNat =
      if linkCondition s.shType then (if i < s.shLink.toNat then s.shLink.toNat - 1
        else s.shLink.toNat) else s.shLink.toNat := by
  have bound := s.shLink.toNat_lt
  simp only [relink]
  by_cases hl : linkCondition s.shType = true
  · by_cases hi : s.shLink.toNat > i
    · simp only [hi, hl, and_self, if_true, UInt32.toNat_sub, UInt32.toNat_one]
      omega
    · simp [hi, hl]
  · simp [hl]

/-- The links that the program corrects follow the sections; the others keep their number. -/
theorem removes_shLink (h : Removes i v w) (front : ∀ s ∈ v.sections.take i, keep s = true)
    {k : Nat} {s s' : Section} (hs : v.sections[k]? = some s) (hkeep : keep s = true)
    (hs' : w.sections[newIndex keep v.sections k]? = some s') :
    s'.1.shLink.toNat = if linkCondition s.1.shType then newIndex keep v.sections s.1.shLink.toNat
      else s.1.shLink.toNat := by
  revert k s
  apply removes_relate (R := fun v w => ∀ {k : Nat} {s : Section}, v.sections[k]? = some s →
    keep s = true → w.sections[newIndex keep v.sections k]? = some s' →
    s'.1.shLink.toNat = if linkCondition s.1.shType then newIndex keep v.sections s.1.shLink.toNat
      else s.1.shLink.toNat) h front
  · intro v all k s hs _ hs'
    rw [newIndex_of_kept all, hs] at hs'
    cases hs'
    rw [newIndex_of_kept all, ite_self]
  · intro i v w rel _ hrel hisRel ih k s hs hkeep hs'
    have hne : k ≠ i := removed_ne hrel hisRel fun t ht => by
      cases Option.some.inj (hs.symm.trans ht)
      exact hkeep
    have moved := ih (remove_getElem? _ hne hs) hkeep
      (by rw [remove_newIndex hrel hisRel]; exact hs')
    rw [moved, relink_shLink]
    by_cases hl : linkCondition s.1.shType = true
    · have hl' : linkCondition (relink i rel.1 s.1).shType = true := hl
      rw [if_pos hl', if_pos hl, if_pos hl, remove_newIndex hrel hisRel]
    · have hl' : ¬linkCondition (relink i rel.1 s.1).shType = true := hl
      rw [if_neg hl', if_neg hl, if_neg hl]

theorem removes_eShstrndx (h : Removes i v w)
    (front : ∀ s ∈ v.sections.take i, keep s = true) :
    w.header.eShstrndx.toNat = newIndex keep v.sections v.header.eShstrndx.toNat := by
  apply removes_relate (R := fun v w =>
    w.header.eShstrndx.toNat = newIndex keep v.sections v.header.eShstrndx.toNat) h front
  · intro v all
    rw [newIndex_of_kept all]
  · intro i v w s _ hs hrel ih
    have bound := v.header.eShstrndx.toNat_lt
    have moved : (v.remove i s.1).header.eShstrndx.toNat =
        if i < v.header.eShstrndx.toNat then v.header.eShstrndx.toNat - 1
          else v.header.eShstrndx.toNat := by
      simp only [View.remove, shrink]
      by_cases hi : v.header.eShstrndx.toNat > i
      · simp only [hi, if_true, UInt16.toNat_sub, UInt16.toNat_one]
        omega
      · simp [hi]
    rw [ih, moved, remove_newIndex hs hrel]

/-- The number of bytes of the relocation sections, as their headers give it. -/
def relBytes (sectHeader : List Elf32Shdr) : Nat :=
  ((sectHeader.filter Elf32Shdr.isRel).map fun s => s.shSize.toNat).sum

theorem relBytes_relink (i : Nat) (rel : Elf32Shdr) (sectHeader : List Elf32Shdr) :
    relBytes (sectHeader.map (relink i rel)) = relBytes sectHeader := by
  rw [relBytes, List.filter_map, List.map_map]
  rfl

theorem relBytes_remove {s : Section} (hs : v.sections[i]? = some s) (hrel : s.1.isRel = true) :
    relBytes (v.sections.map Prod.fst) =
      s.1.shSize.toNat + relBytes ((v.remove i s.1).sections.map Prod.fst) := by
  have heads : (v.remove i s.1).sections.map Prod.fst =
      ((v.sections.eraseIdx i).map Prod.fst).map (relink i s.1) := by
    simp only [View.remove, List.map_map]
    rfl
  have perm := ((eraseIdx_perm hs).map Prod.fst).filter Elf32Shdr.isRel
  rw [List.map_cons, List.filter_cons_of_pos hrel] at perm
  rw [heads, relBytes_relink, relBytes, (perm.map _).sum_nat, List.map_cons, List.sum_cons,
    relBytes]

/-- The section header table moves down by the bytes of the relocation sections, modulo `2 ^ 32`. -/
theorem removes_eShoff (h : Removes i v w) (front : ∀ s ∈ v.sections.take i, keep s = true) :
    w.header.eShoff = v.header.eShoff - UInt32.ofNat (relBytes (v.sections.map Prod.fst)) := by
  apply removes_relate (R := fun v w =>
    w.header.eShoff = v.header.eShoff - UInt32.ofNat (relBytes (v.sections.map Prod.fst))) h front
  · intro v all
    have none : (v.sections.map Prod.fst).filter Elf32Shdr.isRel = [] := by
      apply List.filter_eq_nil_iff.mpr
      intro s hs
      obtain ⟨t, ht, rfl⟩ := List.mem_map.mp hs
      simpa [keep, Elf32Shdr.kept] using all t ht
    simp [relBytes, none]
  · intro i v w s _ hs hrel ih
    have moved : (v.remove i s.1).header.eShoff = v.header.eShoff - s.1.shSize := rfl
    rw [ih, moved, relBytes_remove hs hrel, UInt32.ofNat_add, UInt32.ofNat_toNat]
    grind

/-- The header up to the fields that a deletion rewrites. -/
def Elf32Ehdr.stable (h : Elf32Ehdr) : Elf32Ehdr :=
  { h with eShstrndx := 0, eShoff := 0, eShnum := 0 }

theorem removes_header (h : Removes i v w)
    (front : ∀ s ∈ v.sections.take i, keep s = true) : w.header.stable = v.header.stable := by
  apply removes_relate (R := fun v w => w.header.stable = v.header.stable) h front
  · intro v _
    rfl
  · intro i v w s _ _ _ ih
    exact ih

/-- A symbol up to its section index. -/
def Elf32Sym.stable (sym : Elf32Sym) : Elf32Sym := { sym with stShndx := 0 }

theorem removes_symTable (h : Removes i v w)
    (front : ∀ s ∈ v.sections.take i, keep s = true) :
    w.symTable.map Elf32Sym.stable = v.symTable.map Elf32Sym.stable := by
  apply removes_relate (R := fun v w =>
    w.symTable.map Elf32Sym.stable = v.symTable.map Elf32Sym.stable) h front
  · intro v _
    rfl
  · intro i v w s _ _ _ ih
    rw [ih, View.remove, List.map_map]
    rfl

theorem removes_symTable_length (h : Removes i v w)
    (front : ∀ s ∈ v.sections.take i, keep s = true) :
    w.symTable.length = v.symTable.length := by
  simpa using congrArg List.length (removes_symTable h front)

theorem removes_symbol (h : Removes i v w) (front : ∀ s ∈ v.sections.take i, keep s = true)
    {j : Nat} {sym : Elf32Sym} (hj : v.symTable[j]? = some sym) :
    ∃ sym', w.symTable[j]? = some sym' ∧ sym'.stable = sym.stable := by
  have there := congrArg (·[j]?) (removes_symTable h front)
  simp only [List.getElem?_map, hj, Option.map_some, Option.map_eq_some_iff] at there
  exact there

theorem renumber_toNat {i : Nat} {sym : Elf32Sym} (h : 0 < i ∨ 0 < sym.stShndx.toNat) :
    (renumber i sym).stShndx.toNat =
      if i ≤ sym.stShndx.toNat then sym.stShndx.toNat - 1 else sym.stShndx.toNat := by
  have bound := sym.stShndx.toNat_lt
  simp only [renumber]
  by_cases hi : sym.stShndx.toNat ≥ i
  · simp only [hi, if_true, UInt16.toNat_sub, UInt16.toNat_one]
    omega
  · simp [hi]

theorem remove_symbol {rel : Elf32Shdr} {j : Nat} {sym : Elf32Sym}
    (hj : v.symTable[j]? = some sym) : (v.remove i rel).symTable[j]? = some (renumber i sym) := by
  simp [View.remove, hj]

/-- A symbol whose index is not that of a relocation section follows its section. -/
theorem removes_stShndx (h : Removes i v w) (front : ∀ s ∈ v.sections.take i, keep s = true)
    {j : Nat} {sym sym' : Elf32Sym} (hj : v.symTable[j]? = some sym)
    (hj' : w.symTable[j]? = some sym')
    (designates : ∀ t, v.sections[sym.stShndx.toNat]? = some t → keep t = true) :
    sym'.stShndx.toNat = newIndex keep v.sections sym.stShndx.toNat := by
  revert sym
  apply removes_relate (R := fun v w => w.symTable[j]? = some sym' → ∀ {sym : Elf32Sym},
    v.symTable[j]? = some sym →
    (∀ t, v.sections[sym.stShndx.toNat]? = some t → keep t = true) →
    sym'.stShndx.toNat = newIndex keep v.sections sym.stShndx.toNat) h front
  · intro v all hj' sym hj _
    cases Option.some.inj (hj.symm.trans hj')
    rw [newIndex_of_kept all]
  · intro i v w s _ hs hrel ih hj' sym hj designates
    have hne := removed_ne hs hrel designates
    have moved : (renumber i sym).stShndx.toNat =
        if i < sym.stShndx.toNat then sym.stShndx.toNat - 1 else sym.stShndx.toNat := by
      rw [renumber_toNat (by omega)]
      by_cases hi : i < sym.stShndx.toNat
      · rw [if_pos hi, if_pos (Nat.le_of_lt hi)]
      · rw [if_neg hi, if_neg (by omega)]
    have after := ih hj' (remove_symbol hj)
    rw [moved, remove_newIndex hs hrel] at after
    exact after (remove_designates hs s.1 hne designates)
  · exact hj'

/-- Where the first section stays, no symbol's index grows, and one at or above the index of a
relocation section gets smaller, whatever it stands for. -/
theorem removes_stShndx_lt (h : Removes i v w) (front : ∀ s ∈ v.sections.take i, keep s = true)
    (first : ∀ s, v.sections[0]? = some s → keep s = true) {j : Nat} {sym sym' : Elf32Sym}
    (hj : v.symTable[j]? = some sym) (hj' : w.symTable[j]? = some sym') :
    sym'.stShndx.toNat ≤ sym.stShndx.toNat ∧
      ∀ r t, r ≤ sym.stShndx.toNat → v.sections[r]? = some t → keep t = false →
        sym'.stShndx.toNat < sym.stShndx.toNat := by
  revert sym first
  apply removes_relate (R := fun v w => w.symTable[j]? = some sym' →
    (∀ s, v.sections[0]? = some s → keep s = true) → ∀ {sym : Elf32Sym},
    v.symTable[j]? = some sym → sym'.stShndx.toNat ≤ sym.stShndx.toNat ∧
      ∀ r t, r ≤ sym.stShndx.toNat → v.sections[r]? = some t → keep t = false →
        sym'.stShndx.toNat < sym.stShndx.toNat) h front
  · intro v all hj' _ sym hj
    cases Option.some.inj (hj.symm.trans hj')
    refine ⟨Nat.le_refl _, ?_⟩
    intro r t _ ht hdrop
    rw [all t (List.mem_of_getElem? ht)] at hdrop
    cases hdrop
  · intro i v w s front hs hrel ih hj' first sym hj
    have positive : 0 < i := Nat.pos_of_ne_zero (removed_ne hs hrel first).symm
    have first' := remove_designates hs s.1 positive.ne first
    rw [if_neg (Nat.not_lt_zero i)] at first'
    obtain ⟨le, _⟩ := ih hj' first' (remove_symbol hj)
    rw [renumber_toNat (Or.inl positive)] at le
    by_cases hi : i ≤ sym.stShndx.toNat
    · rw [if_pos hi] at le
      refine ⟨by omega, ?_⟩
      intro r t _ _ _
      omega
    · rw [if_neg hi] at le
      refine ⟨le, ?_⟩
      intro r t hr ht hdrop
      have before : t ∈ v.sections.take i :=
        List.mem_iff_getElem?.mpr ⟨r, by rw [List.getElem?_take_of_lt (by omega), ht]⟩
      rw [front t before] at hdrop
      cases hdrop
  · exact hj'

end run

end ArmRunner
