import ArmRunner.Lib.Tiling
import ArmRunner.Removes
import ArmRunner.WriteFormat

namespace ArmRunner

open CRun NewIndex Slice Tiling

def start (s : Section) : Nat := s.1.shOffset.toNat

def size (v : View) (s : Section) : Nat := (contentOf v s).length

def occupied (v : View) (s : Section) : Bool := 0 < size v s

/-- The contents to write, taken by offset, fill the space between the header and the place of
the section header table, and each relocation section has exactly its own size. -/
structure Layout (v : View) : Prop where
  filled : ∀ s ∈ v.sections, s.2.Filled
  small : v.header.eShoff.toNat < 2 ^ 31
  rels : ∀ s ∈ v.sections, s.1.isRel = true → size v s = s.1.shSize.toNat
  tiled : ∃ order : List Section, order.Perm (v.sections.filter (occupied v)) ∧
    Tiles start (size v) 52 order v.header.eShoff.toNat

theorem flatMap_occupied (v : View) (xs : List Section) :
    xs.flatMap (contentOf v) = (xs.filter (occupied v)).flatMap (contentOf v) := by
  induction xs with
  | nil => rfl
  | cons x xs ih =>
    by_cases hx : occupied v x = true
    · rw [List.filter_cons_of_pos hx, List.flatMap_cons, List.flatMap_cons, ih]
    · have empty : contentOf v x = [] := by
        apply List.length_eq_zero_iff.mp
        have zero : ¬0 < size v x := by simpa [occupied] using hx
        unfold size at zero
        omega
      rw [List.filter_cons_of_neg hx, List.flatMap_cons, empty, List.nil_append, ih]

/-- The bytes written for an object file whose contents are written in this order. -/
def fileOf (v : View) (order : List Section) : List UInt8 :=
  headerBytes v.header ++ order.flatMap (contentOf v) ++ v.sections.flatMap fun s => shdrBytes s.1

section layout

variable {elf : Elf32Main} {v : View}

/-- Any order by increasing offset writes the contents in the order of the tiling. -/
theorem Layout.sorted_unique (h : Layout v) {all : List Section} (perm : all.Perm v.sections)
    (sorted : all.Pairwise fun s t => asInt s.1.shOffset ≤ asInt t.1.shOffset) :
    ∃ order : List Section, order.Perm (v.sections.filter (occupied v)) ∧
      Tiles start (size v) 52 order v.header.eShoff.toNat ∧
      all.flatMap (contentOf v) = order.flatMap (contentOf v) := by
  obtain ⟨order, hperm, tiles⟩ := h.tiled
  have value : ∀ s ∈ all.filter (occupied v), asInt s.1.shOffset = start s := by
    intro s hs
    have hmem : s ∈ order := hperm.mem_iff.mpr ((perm.filter _).mem_iff.mp hs)
    have bounds := tiles_mem tiles hmem
    have small := h.small
    apply asInt_of_lt
    change start s < 2 ^ 31
    omega
  have same : all.filter (occupied v) = order := by
    refine tiles_unique tiles ((perm.filter _).trans hperm.symm) ?_
    refine (sorted.filter _).imp_of_mem ?_
    intro s t hs ht le
    rw [value s hs, value t ht] at le
    omega
  refine ⟨order, hperm, tiles, ?_⟩
  rw [flatMap_occupied, same]

/-- The file written for a state in memory whose sections tile. -/
theorem Layout.write (q : Qsort) (h : Layout v) (represents : Represents elf v)
    (class32 : v.header.eIdent.eiClass = 1) (f : CFile) :
    ∃ order : List Section, order.Perm (v.sections.filter (occupied v)) ∧
      Tiles start (size v) 52 order v.header.eShoff.toNat ∧
      writeElf q elf f = .ok ((f.fseek 0).fwrite (fileOf v order)) := by
  obtain ⟨all, perm, sorted, run⟩ := writeElf_eq q represents class32 h.filled (f := f)
  obtain ⟨order, hperm, tiles, same⟩ := h.sorted_unique perm sorted
  exact ⟨order, hperm, tiles, by rw [fileOf, ← same, run]⟩

end layout

section remove

variable {v : View} {i : Nat} {s : Section}

theorem contentOf_remove (rel : Elf32Shdr) {t : Section} (ht : t.1.shType ≠ shtSymtab) :
    contentOf (v.remove i rel) (relink i rel t.1, t.2) = contentOf v t := by
  have ht' : (relink i rel t.1).shType ≠ shtSymtab := ht
  rw [contentOf, contentOf, if_neg ht, if_neg ht']

theorem size_remove (rel : Elf32Shdr) (t : Section) :
    size (v.remove i rel) (relink i rel t.1, t.2) = size v t := by
  by_cases ht : t.1.shType = shtSymtab
  · have ht' : (relink i rel t.1).shType = shtSymtab := ht
    simp only [size, contentOf, if_pos ht, if_pos ht', flatMap_length_const symBytes_length,
      View.remove, List.length_map]
  · rw [size, contentOf_remove rel ht, size]

theorem occupied_remove (rel : Elf32Shdr) :
    (fun t : Section => occupied (v.remove i rel) (relink i rel t.1, t.2)) = occupied v := by
  funext t
  simp only [occupied, size_remove]

theorem relink_start {rel : Elf32Shdr} (t : Section)
    (room : rel.shOffset.toNat < start t → rel.shSize.toNat ≤ start t) :
    start (relink i rel t.1, t.2) = cut rel.shOffset.toNat rel.shSize.toNat (start t) := by
  have bound := t.1.shOffset.toNat_lt
  have bound' := rel.shSize.toNat_lt
  change (if t.1.shOffset > rel.shOffset then t.1.shOffset - rel.shSize
    else t.1.shOffset).toNat = _
  rw [cut]
  by_cases above : rel.shOffset.toNat < start t
  · have gt : t.1.shOffset > rel.shOffset := UInt32.lt_iff_toNat_lt.mpr above
    have fits : rel.shSize.toNat ≤ t.1.shOffset.toNat := room above
    rw [if_pos gt, if_pos above, UInt32.toNat_sub]
    change _ = t.1.shOffset.toNat - rel.shSize.toNat
    omega
  · have le : ¬t.1.shOffset > rel.shOffset := fun gt => above (UInt32.lt_iff_toNat_lt.mp gt)
    rw [if_neg le, if_neg above]
    rfl

theorem Layout.size_le (h : Layout v) (hs : s ∈ v.sections) :
    size v s ≤ v.header.eShoff.toNat := by
  obtain ⟨order, perm, tiles⟩ := h.tiled
  by_cases hocc : occupied v s = true
  · have hmem : s ∈ order := perm.mem_iff.mpr (List.mem_filter.mpr ⟨hs, hocc⟩)
    have bounds := tiles_mem tiles hmem
    omega
  · have zero : ¬0 < size v s := by simpa [occupied] using hocc
    omega

theorem Layout.remove_eShoff (h : Layout v) (hs : v.sections[i]? = some s)
    (hrel : s.1.isRel = true) :
    (v.remove i s.1).header.eShoff.toNat = v.header.eShoff.toNat - size v s := by
  have hmem := List.mem_of_getElem? hs
  have fits := h.size_le hmem
  have exact_size := h.rels s hmem hrel
  have bound := v.header.eShoff.toNat_lt
  simp only [View.remove, shrink, UInt32.toNat_sub]
  omega

/-- The sections that take bytes, after the removal of section `i`. -/
theorem remove_occupied (rel : Elf32Shdr) :
    (v.remove i rel).sections.filter (occupied (v.remove i rel)) =
      ((v.sections.eraseIdx i).filter (occupied v)).map fun t => (relink i rel t.1, t.2) := by
  have pushed := List.filter_map (p := occupied (v.remove i rel))
    (f := fun t : Section => (relink i rel t.1, t.2)) (l := v.sections.eraseIdx i)
  have same := occupied_remove (v := v) (i := i) rel
  rw [Function.comp_def, same] at pushed
  exact pushed

/-- Taking out a relocation section keeps the layout: the program's correction of the offsets
closes the gap that its bytes leave. -/
theorem Layout.remove (h : Layout v) (hs : v.sections[i]? = some s) (hrel : s.1.isRel = true) :
    Layout (v.remove i s.1) := by
  have hsize := h.rels s (List.mem_of_getElem? hs) hrel
  have shoff := h.remove_eShoff hs hrel
  have small := h.small
  have kept : ∀ t ∈ (v.remove i s.1).sections, ∃ u ∈ v.sections, t = (relink i s.1 u.1, u.2) := by
    intro t ht
    obtain ⟨u, hu, rfl⟩ := List.mem_map.mp ht
    exact ⟨u, List.mem_of_mem_eraseIdx hu, rfl⟩
  refine ⟨?_, by omega, ?_, ?_⟩
  · intro t ht
    obtain ⟨u, hu, rfl⟩ := kept t ht
    exact h.filled u hu
  · intro t ht htrel
    obtain ⟨u, hu, rfl⟩ := kept t ht
    rw [size_remove]
    exact h.rels u hu htrel
  obtain ⟨order, perm, tiles⟩ := h.tiled
  have perm' := perm.trans ((eraseIdx_perm hs).filter (occupied v))
  rw [remove_occupied, shoff]
  by_cases hocc : occupied v s = true
  · rw [List.filter_cons_of_pos hocc] at perm'
    obtain ⟨ps, qs, rfl⟩ := List.append_of_mem (perm'.mem_iff.mpr (List.mem_cons_self ..))
    refine ⟨(ps ++ qs).map fun t => (relink i s.1 t.1, t.2), ?_, ?_⟩
    · exact ((List.perm_middle.symm.trans perm').cons_inv).map _
    · apply tiles_map.mpr
      refine tiles_congr ?_ (fun t _ => (size_remove s.1 t).symm) (tiles_remove tiles)
      intro t ht
      have hmem : t ∈ ps ++ s :: qs := by
        rcases List.mem_append.mp ht with ht | ht
        · exact List.mem_append_left _ ht
        · exact List.mem_append_right _ (List.mem_cons_of_mem _ ht)
      have room : s.1.shOffset.toNat < start t → s.1.shSize.toNat ≤ start t := by
        intro above
        have := tiles_disjoint tiles (List.mem_append_right _ (List.mem_cons_self ..)) hmem above
        omega
      have moved := relink_start (i := i) t room
      simp only [Function.comp, moved, hsize]
      rfl
  · rw [List.filter_cons_of_neg hocc] at perm'
    have zero : size v s = 0 := by simpa [occupied] using hocc
    refine ⟨order.map fun t => (relink i s.1 t.1, t.2), perm'.map _, ?_⟩
    apply tiles_map.mpr
    rw [zero, Nat.sub_zero]
    refine tiles_congr ?_ (fun t _ => (size_remove s.1 t).symm) tiles
    intro t _
    have apart : s.1.shOffset.toNat < start t → s.1.shSize.toNat ≤ start t := by omega
    have moved := relink_start (i := i) t apart
    rw [← hsize, zero, Tiling.cut, Nat.sub_zero, ite_self] at moved
    exact moved.symm

theorem Layout.removes {w : View} (h : Layout v) (removes : Removes i v w) : Layout w := by
  induction removes with
  | done => exact h
  | skip _ _ _ ih => exact ih h
  | delete hs hrel _ ih => exact ih (h.remove hs hrel)

end remove

end ArmRunner
