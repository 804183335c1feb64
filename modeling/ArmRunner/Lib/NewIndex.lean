import Mathlib.Tactic

namespace NewIndex

variable {α : Type} {p : α → Bool} {xs : List α} {i v : Nat} {x : α}

theorem eq_take_cons_drop (hx : xs[i]? = some x) : xs = xs.take i ++ x :: xs.drop (i + 1) := by
  obtain ⟨hi, hxi⟩ := List.getElem?_eq_some_iff.mp hx
  rw [← hxi, List.getElem_cons_drop, List.take_append_drop]

theorem eraseIdx_perm (hx : xs[i]? = some x) : xs.Perm (x :: xs.eraseIdx i) := by
  obtain ⟨hi, hxi⟩ := List.getElem?_eq_some_iff.mp hx
  exact hxi ▸ (List.getElem_cons_eraseIdx_perm hi).symm

/-- The index an entry moves to when the entries that fail `p` are taken out: one less for each
of those before it. -/
def newIndex (p : α → Bool) (xs : List α) (v : Nat) : Nat :=
  v - (xs.take v).countP fun x => !p x

theorem dropped_le (p : α → Bool) (xs : List α) (v : Nat) :
    ((xs.take v).countP fun x => !p x) ≤ v := by
  have count := List.countP_le_length (p := fun x => !p x) (l := xs.take v)
  have length := List.length_take_le v xs
  omega

theorem newIndex_map {β : Type} {f : β → α} {ys : List β} :
    newIndex p (ys.map f) v = newIndex (p ∘ f) ys v := by
  simp only [newIndex, ← List.map_take, List.countP_map]
  rfl

theorem newIndex_of_kept (h : ∀ x ∈ xs, p x = true) (v : Nat) : newIndex p xs v = v := by
  have none : ((xs.take v).countP fun x => !p x) = 0 := by
    apply List.countP_eq_zero.mpr
    intro x hx
    simp [h x (List.mem_of_mem_take hx)]
  rw [newIndex, none, Nat.sub_zero]

theorem newIndex_eq_self_iff :
    newIndex p xs v = v ↔ ∀ i x, i < v → xs[i]? = some x → p x = true := by
  have bound := dropped_le p xs v
  have zero : newIndex p xs v = v ↔ ((xs.take v).countP fun x => !p x) = 0 := by
    unfold newIndex
    omega
  rw [zero, List.countP_eq_zero]
  constructor
  · intro h i x hi hx
    have hm : x ∈ xs.take v :=
      List.mem_iff_getElem?.mpr ⟨i, by rw [List.getElem?_take_of_lt hi, hx]⟩
    simpa using h x hm
  · intro h x hx
    obtain ⟨i, hi⟩ := List.mem_iff_getElem?.mp hx
    rw [List.getElem?_take] at hi
    split at hi
    · simpa using h i x ‹_› hi
    · cases hi

/-- Taking out one entry that fails `p` does not change where the others end up. -/
theorem newIndex_eraseIdx (hx : xs[i]? = some x) (hp : p x = false) (v : Nat) :
    newIndex p (xs.eraseIdx i) (if i < v then v - 1 else v) = newIndex p xs v := by
  obtain ⟨hi, hxi⟩ := List.getElem?_eq_some_iff.mp hx
  by_cases hv : i < v
  · have erased : (xs.eraseIdx i).take (v - 1) = (xs.take v).eraseIdx i := by
      apply List.ext_getElem?
      intro k
      simp only [List.getElem?_take, List.getElem?_eraseIdx]
      split <;> split <;> split <;> first | rfl | omega
    have there : (xs.take v)[i]? = some x := by rw [List.getElem?_take_of_lt hv, hx]
    have split := eq_take_cons_drop there
    have count : ((xs.take v).countP fun x => !p x) =
        (((xs.take v).eraseIdx i).countP fun x => !p x) + 1 := by
      rw [List.eraseIdx_eq_take_drop_succ]
      conv_lhs => rw [split]
      simp [hp, Nat.add_assoc]
    simp only [newIndex, if_pos hv, erased, count]
    omega
  · have same : (xs.eraseIdx i).take v = xs.take v := by
      rw [List.eraseIdx_eq_take_drop_succ, List.take_append_of_le_length (by simp; omega),
        List.take_take, Nat.min_eq_left (by omega)]
    rw [if_neg hv, newIndex, newIndex, same]

theorem filter_eraseIdx (hx : xs[i]? = some x) (hp : p x = false) :
    (xs.eraseIdx i).filter p = xs.filter p := by
  rw [List.eraseIdx_eq_take_drop_succ]
  conv_rhs => rw [eq_take_cons_drop hx]
  simp [hp]

/-- The kept entry of index `v` is the entry of index `newIndex v` among the kept ones. -/
theorem filter_getElem?_newIndex (hx : xs[v]? = some x) (hp : p x = true) :
    (xs.filter p)[newIndex p xs v]? = some x := by
  induction xs generalizing v with
  | nil => simp at hx
  | cons y ys ih =>
    cases v with
    | zero =>
      cases Option.some.inj hx
      simp [newIndex, hp]
    | succ v =>
      have h := ih (by simpa using hx)
      have bound := dropped_le p ys v
      cases hy : p y with
      | true =>
        have step : newIndex p (y :: ys) (v + 1) = newIndex p ys v + 1 := by
          simp only [newIndex, List.take_succ_cons, List.countP_cons, hy]
          simp
          omega
        rw [step, List.filter_cons_of_pos hy, List.getElem?_cons_succ]
        exact h
      | false =>
        have step : newIndex p (y :: ys) (v + 1) = newIndex p ys v := by
          simp only [newIndex, List.take_succ_cons, List.countP_cons, hy]
          simp
        rw [step, List.filter_cons_of_neg (by simp [hy])]
        exact h

/-- The entry that a reference to `v` reaches at its new index, if the last entry stays behind the
kept ones: the first kept entry from `v` on, or else the last entry. -/
def heir (p : α → Bool) (xs : List α) (v : Nat) : Option α :=
  ((xs.drop v).find? p).or xs.getLast?

theorem heir_mem (h : heir p xs v = some x) : x ∈ xs := by
  unfold heir at h
  cases found : (xs.drop v).find? p with
  | some y =>
    rw [found] at h
    cases Option.some.inj h
    exact List.mem_of_mem_drop (List.mem_of_find?_eq_some found)
  | none =>
    rw [found, Option.none_or] at h
    exact List.mem_of_getLast? h

theorem heir_exists (p : α → Bool) (hx : xs[v]? = some x) : ∃ y, heir p xs v = some y := by
  have nonempty : xs ≠ [] := by
    rintro rfl
    simp at hx
  rw [heir, List.getLast?_eq_some_getLast nonempty]
  cases (xs.drop v).find? p with
  | some y => exact ⟨y, rfl⟩
  | none => exact ⟨_, rfl⟩

theorem heir_map {β : Type} {f : β → α} {ys : List β} :
    heir p (ys.map f) v = (heir (p ∘ f) ys v).map f := by
  rw [heir, heir, ← List.map_drop, List.find?_map, List.getLast?_map, Option.map_or]

theorem heir_of_kept (hx : xs[v]? = some x) (hp : p x = true) : heir p xs v = some x := by
  obtain ⟨hv, hxv⟩ := List.getElem?_eq_some_iff.mp hx
  rw [heir, List.drop_eq_getElem_cons hv, hxv, List.find?_cons_of_pos hp]
  rfl

theorem heir_succ (hx : xs[v]? = some x) (hp : p x = false) : heir p xs v = heir p xs (v + 1) := by
  obtain ⟨hv, hxv⟩ := List.getElem?_eq_some_iff.mp hx
  rw [heir, heir, List.drop_eq_getElem_cons hv, hxv, List.find?_cons_of_neg (by simp [hp])]

theorem heir_length : heir p xs xs.length = xs.getLast? := by
  simp [heir]

/-- Taking out an entry before `v` does not change what `v` reaches. -/
theorem heir_eraseIdx (hiv : i < v) (hv : v < xs.length) :
    heir p (xs.eraseIdx i) (v - 1) = heir p xs v := by
  have rest : (xs.eraseIdx i).drop (v - 1) = xs.drop v := by
    apply List.ext_getElem?
    intro k
    rw [List.getElem?_drop, List.getElem?_drop, List.getElem?_eraseIdx, if_neg (by omega)]
    congr 1
    omega
  have last : (xs.eraseIdx i).getLast? = xs.getLast? := by
    rw [List.getLast?_eq_getElem?, List.getLast?_eq_getElem?,
      List.length_eraseIdx_of_lt (by omega), List.getElem?_eraseIdx, if_neg (by omega)]
    congr 1
    omega
  rw [heir, heir, rest, last]

end NewIndex
