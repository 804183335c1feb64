import ArmRunner.CopyRoundTrip

namespace ArmRunner

open NewIndex Tiling

/-- The sizes of the relocation sections that start below an offset, added up. -/
def relBelow (sectHeader : List Elf32Shdr) (p : Nat) : Nat :=
  (sectHeader.map fun r =>
    if r.isRel ∧ r.shOffset.toNat < p then r.shSize.toNat else 0).sum

/-- The position is not strictly inside a section that takes bytes. -/
def Outside (v : View) (p : Nat) : Prop :=
  ∀ s ∈ v.sections, p ≤ start s ∨ start s + size v s ≤ p

/-- Entry `k` of the section headers in memory, up to the one left over behind the table. -/
def View.slot (v : View) (k : Nat) : Option Elf32Shdr :=
  (v.sections.map Prod.fst ++ v.behind.toList)[k]?

theorem Represents.slot {elf : Elf32Main} {v : View} (h : Represents elf v) {k : Nat}
    {s : Elf32Shdr} (hs : v.slot k = some s) : elf.sectHeader[k]? = some s := by
  obtain ⟨tail, heads, behind⟩ := h.heads
  rw [View.slot, ← behind] at hs
  rw [heads]
  cases tail with
  | nil => simpa using hs
  | cons t tail =>
    rw [List.head?_cons, Option.toList_some] at hs
    have hk := (List.getElem?_eq_some_iff.mp hs).1
    rw [← List.singleton_append, ← List.append_assoc, List.getElem?_append_left hk]
    exact hs

section step

variable {v : View} {i : Nat} {s : Section}

theorem Layout.start_ne (h : Layout v) (hs : v.sections[i]? = some s) {t : Section}
    (ht : t ∈ v.sections.eraseIdx i) (hocc : occupied v s = true) (hocc' : occupied v t = true) :
    start s + size v s ≤ start t ∨ start t + size v t ≤ start s := by
  obtain ⟨order, perm, tiles⟩ := h.tiled
  have perm' := perm.trans ((eraseIdx_perm hs).filter (occupied v))
  rw [List.filter_cons_of_pos hocc] at perm'
  have apart : order.Pairwise fun x y =>
      start x + size v x ≤ start y ∨ start y + size v y ≤ start x :=
    (tiles_sorted tiles).imp Or.inl
  have apart' := (perm'.pairwise_iff (fun {x y} h => h.symm)).mp apart
  exact (List.pairwise_cons.mp apart').1 t (List.mem_filter.mpr ⟨ht, hocc'⟩)

/-- Two sections, one of them at index `i`, do not overlap. -/
theorem Layout.apart (h : Layout v) (hs : v.sections[i]? = some s) {t : Section}
    (ht : t ∈ v.sections.eraseIdx i) :
    size v s = 0 ∨ size v t = 0 ∨ start s + size v s ≤ start t ∨
      start t + size v t ≤ start s := by
  by_cases hocc : occupied v s = true
  · by_cases hocc' : occupied v t = true
    · exact Or.inr (Or.inr (h.start_ne hs ht hocc hocc'))
    · have zero : ¬0 < size v t := by simpa [occupied] using hocc'
      omega
  · have zero : ¬0 < size v s := by simpa [occupied] using hocc
    omega

/-- The start of a section that takes bytes moves with the cut. -/
theorem Layout.moved_start (h : Layout v) (hs : v.sections[i]? = some s)
    (hrel : s.1.isRel = true) {t : Section} (ht : t ∈ v.sections.eraseIdx i)
    (nonempty : size v t ≠ 0) :
    start (relink i s.1 t.1, t.2) = cut (start s) (size v s) (start t) := by
  have hsize := h.rels s (List.mem_of_getElem? hs) hrel
  have apart := h.apart hs ht
  rw [hsize]
  apply relink_start
  intro above
  change start s < start t at above
  omega

theorem outside_remove (h : Layout v) (hs : v.sections[i]? = some s) (hrel : s.1.isRel = true)
    {p : Nat} (outside : Outside v p) :
    Outside (v.remove i s.1) (cut (start s) (size v s) p) := by
  intro t' ht'
  obtain ⟨t, ht, rfl⟩ := List.mem_map.mp ht'
  rw [size_remove]
  by_cases nonempty : size v t = 0
  · omega
  · rw [h.moved_start hs hrel ht nonempty]
    exact cut_outside (outside s (List.mem_of_getElem? hs))
      (outside t (List.mem_of_mem_eraseIdx ht)) (h.apart hs ht)

/-- What is below a position before a removal is the removed section, if it is below, and what is
below the moved position after it. -/
theorem relBelow_remove (h : Layout v) (hs : v.sections[i]? = some s) (hrel : s.1.isRel = true)
    {p : Nat} (outside : Outside v p) :
    relBelow (v.sections.map Prod.fst) p = (if start s < p then size v s else 0) +
      relBelow ((v.remove i s.1).sections.map Prod.fst) (cut (start s) (size v s) p) := by
  have perm := eraseIdx_perm hs
  have head : (if s.1.isRel ∧ s.1.shOffset.toNat < p then s.1.shSize.toNat else 0) =
      if start s < p then size v s else 0 := by
    rw [h.rels s (List.mem_of_getElem? hs) hrel]
    exact if_congr (and_iff_right hrel) rfl rfl
  have rest : (v.sections.eraseIdx i).map (fun t =>
        if t.1.isRel ∧ t.1.shOffset.toNat < p then t.1.shSize.toNat else 0) =
      (v.sections.eraseIdx i).map (fun t => if (relink i s.1 t.1).isRel ∧
        (relink i s.1 t.1).shOffset.toNat < cut (start s) (size v s) p then
        (relink i s.1 t.1).shSize.toNat else 0) := by
    apply List.map_congr_left
    intro t ht
    have same : (relink i s.1 t.1).isRel = t.1.isRel := rfl
    have sameSize : (relink i s.1 t.1).shSize = t.1.shSize := rfl
    rw [same, sameSize]
    by_cases isRel : t.1.isRel = true
    · have ht' := List.mem_of_mem_eraseIdx ht
      have hsize := h.rels t ht' isRel
      by_cases nonempty : size v t = 0
      · rw [← hsize, nonempty, ite_self, ite_self]
      · have moved := h.moved_start hs hrel ht nonempty
        have below := cut_lt_iff (outside s (List.mem_of_getElem? hs)) (outside t ht')
          (h.apart hs ht) (Nat.pos_of_ne_zero nonempty)
        rw [← moved] at below
        simp only [isRel, true_and]
        exact if_congr below.symm rfl rfl
    · simp [isRel]
  have sums := (perm.map fun t : Section =>
    if t.1.isRel ∧ t.1.shOffset.toNat < p then t.1.shSize.toNat else 0).sum_nat
  rw [List.map_cons, List.sum_cons, head, rest] at sums
  simp only [relBelow, View.remove, List.map_map, Function.comp_def]
  exact sums

/-- The header reached by a reference that is not to the removed section, after the removal. -/
theorem remove_heir (front : ∀ t ∈ v.sections.take i, keep t = true) {x : Nat} (hx : x ≠ i)
    (hlt : x < v.sections.length) :
    heir keep (v.remove i s.1).sections (if i < x then x - 1 else x) =
      (heir keep v.sections x).map fun t => (relink i s.1 t.1, t.2) := by
  have through : keep ∘ (fun t : Section => (relink i s.1 t.1, t.2)) = keep := rfl
  by_cases hix : i < x
  · rw [if_pos hix, View.remove, heir_map, through, heir_eraseIdx hix hlt]
  · have here : v.sections[x]? = some v.sections[x] := List.getElem?_eq_getElem hlt
    have stays : keep v.sections[x] = true := by
      refine front _ (List.mem_iff_getElem?.mpr ⟨x, ?_⟩)
      rw [List.getElem?_take_of_lt (by omega), here]
    have moved := remove_getElem? s.1 hx here
    rw [if_neg hix] at moved ⊢
    rw [heir_of_kept here stays, heir_of_kept moved stays]
    rfl

end step

/-- The header that a reference reaches after the deletions is that of the first section from the
designated one on that stays, or of the last one, with its offset lowered by the sizes of the
relocation sections that start below it. -/
def HeirReached (v w : View) : Prop :=
  ∀ (x : Nat) (y : Section), x < v.sections.length → heir keep v.sections x = some y →
    Outside v (start y) → ∃ t, w.slot (newIndex keep v.sections x) = some t ∧
      t.shOffset.toNat + relBelow (v.sections.map Prod.fst) (start y) = start y

theorem relBelow_of_none {xs : List Elf32Shdr} {p : Nat}
    (h : ∀ r ∈ xs, r.isRel = true → r.shSize ≠ 0 → p ≤ r.shOffset.toNat) : relBelow xs p = 0 := by
  apply List.sum_eq_zero
  intro n hn
  obtain ⟨r, hr, rfl⟩ := List.mem_map.mp hn
  split
  next below =>
    by_contra nonempty
    have := h r hr below.1 fun zero => nonempty (by rw [zero]; rfl)
    omega
  next => rfl

section run

variable {v w : View} {i : Nat} {s : Section}

theorem heirReached_refl (all : ∀ s ∈ v.sections, keep s = true) : HeirReached v v := by
  intro x y hlt hy _
  have here : v.sections[x]? = some v.sections[x] := List.getElem?_eq_getElem hlt
  rw [heir_of_kept here (all _ (List.getElem_mem hlt))] at hy
  cases Option.some.inj hy
  have none : relBelow (v.sections.map Prod.fst) (start v.sections[x]) = 0 := by
    apply relBelow_of_none
    intro r hr isRel
    obtain ⟨t, ht, rfl⟩ := List.mem_map.mp hr
    rw [not_rel_of_keep (all t ht)] at isRel
    cases isRel
  refine ⟨v.sections[x].1, ?_, ?_⟩
  · rw [newIndex_of_kept all, View.slot, List.getElem?_append_left (by simpa using hlt),
      List.getElem?_map, here]
    rfl
  · rw [none]
    rfl

/-- The removal of a section does not change what references to other sections reach. -/
theorem heirReached_other (layout : Layout v) (front : ∀ t ∈ v.sections.take i, keep t = true)
    (hs : v.sections[i]? = some s) (hrel : s.1.isRel = true)
    (ih : HeirReached (v.remove i s.1) w) {x : Nat} {y : Section} (hx : x ≠ i)
    (hlt : x < v.sections.length) (hy : heir keep v.sections x = some y)
    (outside : Outside v (start y)) :
    ∃ t, w.slot (newIndex keep v.sections x) = some t ∧
      t.shOffset.toNat + relBelow (v.sections.map Prod.fst) (start y) = start y := by
  have hi := (List.getElem?_eq_some_iff.mp hs).1
  have hmem := List.mem_of_getElem? hs
  have shorter : (v.remove i s.1).sections.length = v.sections.length - 1 := by
    rw [View.remove, List.length_map, List.length_eraseIdx_of_lt hi]
  have reached := remove_heir (s := s) front hx hlt
  rw [hy, Option.map_some] at reached
  have hsize := layout.rels s hmem hrel
  have moved : start (relink i s.1 y.1, y.2) = cut (start s) (size v s) (start y) := by
    rw [hsize]
    apply relink_start
    intro above
    change start s < start y at above
    have := outside s hmem
    omega
  have outside' := outside_remove layout hs hrel outside
  rw [← moved] at outside'
  obtain ⟨t, slot, offset⟩ := ih _ _ (by split <;> omega) reached outside'
  rw [remove_newIndex hs hrel] at slot
  refine ⟨t, slot, ?_⟩
  rw [relBelow_remove layout hs hrel outside, ← moved]
  rw [moved] at offset ⊢
  have := outside s hmem
  unfold cut at offset ⊢
  split at offset
  next below => rw [if_pos below, if_pos below]; omega
  next below => rw [if_neg below, if_neg below]; omega

/-- The last section, itself removed, is left over behind the table with its own offset. -/
theorem heirReached_last (front : ∀ t ∈ v.sections.take i, keep t = true)
    (hs : v.sections[i]? = some s) (hrel : s.1.isRel = true) (last : ¬i + 1 < v.sections.length)
    {y : Section} (hy : heir keep v.sections i = some y) :
    ∃ t, (v.remove i s.1).slot (newIndex keep v.sections i) = some t ∧
      t.shOffset.toNat + relBelow (v.sections.map Prod.fst) (start y) = start y := by
  have hi := (List.getElem?_eq_some_iff.mp hs).1
  have top : i + 1 = v.sections.length := by omega
  have tail : v.sections.getLast? = some s := by
    rw [List.getLast?_eq_getElem?, ← top, Nat.add_sub_cancel, hs]
  rw [heir_succ hs (keep_eq_false hrel), top, heir_length, tail] at hy
  cases Option.some.inj hy
  have before {k : Nat} {t : Section} (hk : k < i) (ht : v.sections[k]? = some t) :
      keep t = true :=
    front t (List.mem_iff_getElem?.mpr ⟨k, by rw [List.getElem?_take_of_lt hk, ht]⟩)
  have stays : newIndex keep v.sections i = i :=
    newIndex_eq_self_iff.mpr fun k t hk ht => before hk ht
  have none : relBelow (v.sections.map Prod.fst) (start s) = 0 := by
    apply relBelow_of_none
    intro r hr isRel
    obtain ⟨t, ht, rfl⟩ := List.mem_map.mp hr
    obtain ⟨k, hk⟩ := List.mem_iff_getElem?.mp ht
    by_cases hki : k < i
    · rw [not_rel_of_keep (before hki hk)] at isRel
      cases isRel
    · have hkl := (List.getElem?_eq_some_iff.mp hk).1
      have same : k = i := by omega
      rw [same, hs] at hk
      cases hk
      exact fun _ => Nat.le_refl _
  have length : ((v.remove i s.1).sections.map Prod.fst).length = i := by
    rw [List.length_map, View.remove, List.length_map, List.length_eraseIdx_of_lt hi]
    omega
  have behind : (v.remove i s.1).behind = some (relink i s.1 s.1) := by
    rw [View.remove, tail]
    rfl
  refine ⟨relink i s.1 s.1, ?_, ?_⟩
  · rw [stays, View.slot, List.getElem?_append_right (Nat.le_of_eq length), length, Nat.sub_self,
      behind]
    rfl
  · rw [none]
    have own : ¬s.1.shOffset > s.1.shOffset := UInt32.lt_irrefl _
    simp only [relink, if_neg own, Nat.add_zero, start]

theorem removes_heirReached (h : Removes i v w)
    (front : ∀ s ∈ v.sections.take i, keep s = true) (layout : Layout v) : HeirReached v w := by
  have both : ((∀ s ∈ v.sections, keep s = true) → w = v) ∧ (Layout v → HeirReached v w) := by
    apply removes_relate (R := fun v w =>
      ((∀ s ∈ v.sections, keep s = true) → w = v) ∧ (Layout v → HeirReached v w)) h front
    · intro v all
      exact ⟨fun _ => rfl, fun _ => heirReached_refl all⟩
    · intro i v w s front hs hrel ih
      refine ⟨?_, ?_⟩
      · intro all
        have gone := all s (List.mem_of_getElem? hs)
        rw [keep_eq_false hrel] at gone
        cases gone
      · intro layout x y hlt hy outside
        have other {x : Nat} {y : Section} := heirReached_other (x := x) (y := y) layout front hs
          hrel (ih.2 (layout.remove hs hrel))
        by_cases hx : x = i
        · subst x
          have next := heir_succ hs (keep_eq_false hrel)
          by_cases last : i + 1 < v.sections.length
          · have same : newIndex keep v.sections i = newIndex keep v.sections (i + 1) := by
              rw [← remove_newIndex hs hrel i, ← remove_newIndex hs hrel (i + 1)]
              simp
            rw [same]
            exact other (by omega) last (next ▸ hy) outside
          · have kept : ∀ t ∈ (v.remove i s.1).sections.take i, keep t = true := remove_front front
            have all : ∀ t ∈ (v.remove i s.1).sections, keep t = true := by
              have length : (v.remove i s.1).sections.length ≤ i := by
                have hi := (List.getElem?_eq_some_iff.mp hs).1
                rw [View.remove, List.length_map, List.length_eraseIdx_of_lt hi]
                omega
              rwa [List.take_of_length_le length] at kept
            rw [ih.1 all]
            exact heirReached_last front hs hrel last hy
        · exact other hx hlt hy outside
  exact both.2 layout

end run

/-- In a file whose sections tile no section starts strictly inside another. -/
theorem LoadedFrom.outside {file : List UInt8} {elf : Elf32Main} (arranged : Arranged file)
    (h : LoadedFrom file elf) {y : Section} (hy : y ∈ (viewOf elf).sections) :
    Outside (viewOf elf) (start y) := by
  intro s hs
  obtain ⟨head, _⟩ := h.mem hs
  obtain ⟨yhead, _⟩ := h.mem hy
  rw [h.size_eq arranged hs]
  by_cases empty : s.1.shSize = 0
  · rw [if_pos empty]
    omega
  · have above := arranged.above head empty
    have least := (arranged.nextStart_isLeast (s := s.1)).2
    have ends : start s + (nextStart file s.1 - s.1.shOffset.toNat) = nextStart file s.1 :=
      Nat.add_sub_cancel' (Nat.le_of_lt above)
    rw [if_neg empty, ends]
    by_cases behind : start y ≤ start s
    · exact Or.inl behind
    -- an empty section starts at 0 or where a non-empty one does
    · have starts : ∃ t ∈ sectionsOf file, t.shSize ≠ 0 ∧ t.shOffset.toNat = start y := by
        by_cases yempty : y.1.shSize = 0
        · rcases arranged.empty y.1 yhead yempty with zero | ⟨t, ht, hne, same⟩
          · rw [start, zero] at behind
            exact absurd (Nat.zero_le _) behind
          · exact ⟨t, ht, hne, by rw [same, start]⟩
        · exact ⟨y.1, yhead, yempty, rfl⟩
      obtain ⟨t, ht, hne, same⟩ := starts
      exact Or.inr (least (Or.inl ⟨t, ht, hne, same, Nat.lt_of_not_le behind⟩))

end ArmRunner
