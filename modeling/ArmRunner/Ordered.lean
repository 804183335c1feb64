import ArmRunner.DeleteLayout
import Mathlib.Data.List.Chain

namespace ArmRunner

open CRun NewIndex Slice Tiling

/-- What holds of a laid out object file before, between and after the removals: its last section
stays and is the last one in offset order, its empty sections lie where others start, and the
sections that stay are in the order of their offsets. -/
structure Ordered (v : View) : Prop where
  layout : Layout v
  measured : ∀ s ∈ v.sections, occupied v s = true ↔ s.1.shSize ≠ 0
  symtab : ∀ s ∈ v.sections, s.1.shType = shtSymtab →
    size v s = s.1.shSize.toNat ∧ s.2.sectionBytes.length = s.1.shSize.toNat
  last : ∃ s, v.sections.getLast? = some s ∧ keep s = true ∧ occupied v s = true ∧
    ∀ t ∈ v.sections, occupied v t = true → start t ≤ start s
  empty : ∀ s ∈ v.sections, occupied v s = false →
    start s = 0 ∨ ∃ t ∈ v.sections, occupied v t = true ∧ start t = start s
  ascending : (v.sections.filter keep).IsChain fun s t =>
    occupied v s = true → start s < start t

section ordered

variable {v : View} {i : Nat} {s t : Section}

theorem Ordered.above (h : Ordered v) (hs : s ∈ v.sections) (hocc : occupied v s = true)
    (ht : t ∈ v.sections) (lt : start s < start t) : start s + size v s ≤ start t := by
  obtain ⟨order, perm, tiles⟩ := h.layout.tiled
  have mem {u : Section} (hu : u ∈ v.sections) (hu' : occupied v u = true) : u ∈ order :=
    perm.mem_iff.mpr (List.mem_filter.mpr ⟨hu, hu'⟩)
  have inTiles := mem hs hocc
  cases htocc : occupied v t with
  | true => exact tiles_disjoint tiles inTiles (mem ht htocc) lt
  | false =>
    rcases h.empty t ht htocc with zero | ⟨u, hu, huocc, same⟩
    · omega
    · rw [← same] at lt ⊢
      exact tiles_disjoint tiles inTiles (mem hu huocc) lt

theorem Ordered.starts_injective (h : Ordered v) (hs : s ∈ v.sections)
    (hocc : occupied v s = true) (ht : t ∈ v.sections) (htocc : occupied v t = true)
    (same : start s = start t) : s = t := by
  obtain ⟨order, perm, tiles⟩ := h.layout.tiled
  exact tiles_start_injective tiles (perm.mem_iff.mpr (List.mem_filter.mpr ⟨hs, hocc⟩))
    (perm.mem_iff.mpr (List.mem_filter.mpr ⟨ht, htocc⟩)) same

/-- A relocation section has nothing behind its start but what starts behind its end. -/
theorem Ordered.room (h : Ordered v) (hs : s ∈ v.sections) (ht : t ∈ v.sections)
    (lt : start s < start t) : start s + size v s ≤ start t := by
  cases hocc : occupied v s with
  | true => exact h.above hs hocc ht lt
  | false =>
    have zero : size v s = 0 := by simpa [occupied] using hocc
    omega

theorem Ordered.start_moved (h : Ordered v) (hs : s ∈ v.sections) (hrel : s.1.isRel = true)
    (ht : t ∈ v.sections) :
    start (relink i s.1 t.1, t.2) = cut (start s) (size v s) (start t) := by
  have sized := h.layout.rels s hs hrel
  rw [sized]
  apply relink_start
  intro lt
  have := h.room hs ht lt
  omega

/-- A section that is removed is not the last one, so that another one starts where it ends. -/
theorem Ordered.successor (h : Ordered v) (hs : s ∈ v.sections) (hrel : s.1.isRel = true)
    (hocc : occupied v s = true) :
    ∃ t ∈ v.sections, occupied v t = true ∧ start t = start s + size v s := by
  obtain ⟨order, perm, tiles⟩ := h.layout.tiled
  have mem : s ∈ order := perm.mem_iff.mpr (List.mem_filter.mpr ⟨hs, hocc⟩)
  rcases tiles_next tiles mem with ⟨t, ht, next⟩ | ends
  · obtain ⟨htm, htocc⟩ := List.mem_filter.mp (perm.mem_iff.mp ht)
    exact ⟨t, htm, htocc, next⟩
  · obtain ⟨l, hlast, stays, locc, top⟩ := h.last
    have hl := List.mem_of_mem_getLast? hlast
    have lmem : l ∈ order := perm.mem_iff.mpr (List.mem_filter.mpr ⟨hl, locc⟩)
    have different : start s ≠ start l := by
      intro same
      rw [← h.starts_injective hs hocc hl locc same, keep_eq_false hrel] at stays
      cases stays
    have below := top s hs hocc
    have apart := tiles_disjoint tiles mem lmem (by omega)
    have := tiles_mem tiles lmem
    omega

end ordered

section remove

variable {v : View} {i : Nat} {s : Section}

theorem mem_remove {rel : Elf32Shdr} {u : Section} (hu : u ∈ (v.remove i rel).sections) :
    ∃ t ∈ v.sections, u = (relink i rel t.1, t.2) := by
  obtain ⟨t, ht, rfl⟩ := List.mem_map.mp hu
  exact ⟨t, List.mem_of_mem_eraseIdx ht, rfl⟩

theorem remove_mem (hs : v.sections[i]? = some s) {t : Section} (ht : t ∈ v.sections)
    (different : t ≠ s) : (relink i s.1 t.1, t.2) ∈ (v.remove i s.1).sections := by
  have there := (eraseIdx_perm hs).mem_iff.mp ht
  exact List.mem_map_of_mem ((List.mem_cons.mp there).resolve_left different)

theorem occupied_moved (rel : Elf32Shdr) (t : Section) :
    occupied (v.remove i rel) (relink i rel t.1, t.2) = occupied v t :=
  congrFun (occupied_remove rel) t

theorem remove_getLast? (rel : Elf32Shdr) {l : Section} (hlast : v.sections.getLast? = some l)
    (hs : v.sections[i]? = some s) (different : l ≠ s) :
    (v.remove i rel).sections.getLast? = some (relink i rel l.1, l.2) := by
  have hi := (List.getElem?_eq_some_iff.mp hs).1
  rw [List.getLast?_eq_getElem?] at hlast
  have inner : i ≠ v.sections.length - 1 := by
    rintro rfl
    exact different (Option.some.inj (hlast.symm.trans hs))
  have moved := remove_getElem? rel (i := i) inner.symm hlast
  rw [if_pos (by omega)] at moved
  rw [List.getLast?_eq_getElem?]
  have length : (v.remove i rel).sections.length = v.sections.length - 1 := by
    rw [View.remove, List.length_map, List.length_eraseIdx_of_lt hi]
  rw [length]
  exact moved

/-- An empty section that lay at the start of the removed section lies at the start of the section
that takes the place of it. -/
theorem Ordered.remove_empty (h : Ordered v) (hs : v.sections[i]? = some s)
    (hrel : s.1.isRel = true) {t : Section} (ht : t ∈ v.sections)
    (hocc : occupied v t = false) :
    cut (start s) (size v s) (start t) = 0 ∨ ∃ u ∈ v.sections, u ≠ s ∧ occupied v u = true ∧
      cut (start s) (size v s) (start u) = cut (start s) (size v s) (start t) := by
  have hm := List.mem_of_getElem? hs
  rcases h.empty t ht hocc with zero | ⟨u, hu, huocc, same⟩
  · exact Or.inl (by simp [cut, zero])
  · by_cases removed : u = s
    · subst removed
      obtain ⟨w, hw, hwocc, next⟩ := h.successor hu hrel huocc
      have positive : 0 < size v u := by simpa [occupied] using huocc
      refine Or.inr ⟨w, hw, ?_, hwocc, ?_⟩
      · rintro rfl
        omega
      · rw [← same, next, cut, if_pos (by omega), cut, if_neg (Nat.lt_irrefl _)]
        omega
    · exact Or.inr ⟨u, hu, removed, huocc, by rw [same]⟩

theorem Ordered.remove_ascending (h : Ordered v) (hs : v.sections[i]? = some s)
    (hrel : s.1.isRel = true) :
    ((v.remove i s.1).sections.filter keep).IsChain fun t u =>
      occupied (v.remove i s.1) t = true → start t < start u := by
  have hm := List.mem_of_getElem? hs
  have kept : (v.remove i s.1).sections.filter keep =
      (v.sections.filter keep).map fun t => (relink i s.1 t.1, t.2) := by
    rw [View.remove, List.filter_map, ← filter_eraseIdx hs (keep_eq_false hrel)]
    rfl
  rw [kept, List.isChain_map]
  refine h.ascending.imp_of_mem_imp ?_
  intro t u ht hu lt hocc
  obtain ⟨ht, tstays⟩ := List.mem_filter.mp ht
  obtain ⟨hu, _⟩ := List.mem_filter.mp hu
  rw [occupied_moved] at hocc
  rw [h.start_moved hm hrel ht, h.start_moved hm hrel hu]
  refine cut_lt_cut (lt hocc) ?_ (h.room hm ht) (h.room hm hu)
  cases hsocc : occupied v s with
  | false => exact Or.inl (by simpa [occupied] using hsocc)
  | true =>
    refine Or.inr ?_
    intro same
    rw [h.starts_injective ht hocc hm hsocc same, keep_eq_false hrel] at tstays
    cases tstays

theorem Ordered.remove (h : Ordered v) (hs : v.sections[i]? = some s)
    (hrel : s.1.isRel = true) : Ordered (v.remove i s.1) := by
  have hm := List.mem_of_getElem? hs
  refine ⟨h.layout.remove hs hrel, ?_, ?_, ?_, ?_, h.remove_ascending hs hrel⟩
  · intro t ht
    obtain ⟨u, hu, rfl⟩ := mem_remove ht
    rw [occupied_moved]
    exact h.measured u hu
  · intro t ht type
    obtain ⟨u, hu, rfl⟩ := mem_remove ht
    rw [size_remove]
    exact h.symtab u hu type
  · obtain ⟨l, hlast, stays, locc, top⟩ := h.last
    have hl := List.mem_of_mem_getLast? hlast
    have different : l ≠ s := by
      rintro rfl
      rw [keep_eq_false hrel] at stays
      cases stays
    refine ⟨_, remove_getLast? s.1 hlast hs different, stays, by rwa [occupied_moved], ?_⟩
    intro t ht hocc
    obtain ⟨u, hu, rfl⟩ := mem_remove ht
    rw [occupied_moved] at hocc
    rw [h.start_moved hm hrel hu, h.start_moved hm hrel hl]
    exact cut_le_cut (top u hu hocc) (h.room hm hl)
  · intro t ht hocc
    obtain ⟨u, hu, rfl⟩ := mem_remove ht
    rw [occupied_moved] at hocc
    rw [h.start_moved hm hrel hu]
    rcases h.remove_empty hs hrel hu hocc with zero | ⟨w, hw, different, hwocc, same⟩
    · exact Or.inl zero
    · refine Or.inr ⟨_, remove_mem hs hw different, by rwa [occupied_moved], ?_⟩
      rw [h.start_moved hm hrel hw, same]

theorem Ordered.removes {w : View} (h : Ordered v) (removes : Removes i v w) : Ordered w := by
  induction removes with
  | done => exact h
  | skip _ _ _ ih => exact ih h
  | delete hs hrel _ ih => exact ih (h.remove hs hrel)

end remove

end ArmRunner
