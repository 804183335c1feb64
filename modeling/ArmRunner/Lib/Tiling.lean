import ArmRunner.Lib.Slice
import Mathlib.Data.List.Sort
import Mathlib.Order.Bounds.Basic

namespace Tiling

open Slice

variable {α : Type} {start len : α → Nat} {a b : Nat} {xs ys : List α}

/-- The items, in this order, cover `[a, b)` end to end, and none of them is empty. -/
def Tiles (start len : α → Nat) : Nat → List α → Nat → Prop
  | a, [], b => a = b
  | a, x :: xs, b => start x = a ∧ 0 < len x ∧ Tiles start len (a + len x) xs b

theorem tiles_append :
    Tiles start len a (xs ++ ys) b ↔
      ∃ c, Tiles start len a xs c ∧ Tiles start len c ys b := by
  induction xs generalizing a with
  | nil => simp [Tiles]
  | cons x xs ih =>
    simp only [List.cons_append, Tiles, ih]
    constructor
    · rintro ⟨hs, hl, c, hx, hy⟩
      exact ⟨c, ⟨hs, hl, hx⟩, hy⟩
    · rintro ⟨c, ⟨hs, hl, hx⟩, hy⟩
      exact ⟨hs, hl, c, hx, hy⟩

theorem tiles_le (h : Tiles start len a xs b) : a ≤ b := by
  induction xs generalizing a with
  | nil => exact Nat.le_of_eq h
  | cons x xs ih =>
    have := ih h.2.2
    omega

theorem tiles_mem (h : Tiles start len a xs b) {x : α} (hx : x ∈ xs) :
    a ≤ start x ∧ 0 < len x ∧ start x + len x ≤ b := by
  obtain ⟨ps, qs, rfl⟩ := List.append_of_mem hx
  obtain ⟨c, hp, hs, hl, hq⟩ := tiles_append.mp h
  have low := tiles_le hp
  have high := tiles_le hq
  omega

theorem tiles_sorted (h : Tiles start len a xs b) :
    xs.Pairwise (fun x y => start x + len x ≤ start y) := by
  induction xs generalizing a with
  | nil => exact List.Pairwise.nil
  | cons x xs ih =>
    obtain ⟨hs, hl, ht⟩ := h
    apply List.pairwise_cons.mpr
    refine ⟨?_, ih ht⟩
    intro y hy
    have := (tiles_mem ht hy).1
    omega

theorem tiles_apart (h : Tiles start len a xs b) {x y : α} (hx : x ∈ xs) (hy : y ∈ xs) :
    x = y ∨ start x + len x ≤ start y ∨ start y + len y ≤ start x := by
  obtain ⟨ps, qs, rfl⟩ := List.append_of_mem hx
  obtain ⟨c, hp, hs, hl, hq⟩ := tiles_append.mp h
  rcases List.mem_append.mp hy with hy | hy
  · have := tiles_mem hp hy
    omega
  · rcases List.mem_cons.mp hy with rfl | hy
    · exact Or.inl rfl
    · have := tiles_mem hq hy
      omega

theorem tiles_start_injective (h : Tiles start len a xs b) {x y : α} (hx : x ∈ xs) (hy : y ∈ xs)
    (he : start x = start y) : x = y := by
  have := tiles_mem h hx
  have := tiles_mem h hy
  rcases tiles_apart h hx hy with same | apart
  · exact same
  · omega

theorem tiles_disjoint (h : Tiles start len a xs b) {x y : α} (hx : x ∈ xs) (hy : y ∈ xs)
    (hlt : start x < start y) : start x + len x ≤ start y := by
  have := tiles_mem h hy
  rcases tiles_apart h hx hy with rfl | apart
  · omega
  · omega

/-- An item ends where another one starts, or where the tiling ends. -/
theorem tiles_next (h : Tiles start len a xs b) {x : α} (hx : x ∈ xs) :
    (∃ y ∈ xs, start y = start x + len x) ∨ start x + len x = b := by
  obtain ⟨ps, qs, rfl⟩ := List.append_of_mem hx
  obtain ⟨c, hp, hs, hl, hq⟩ := tiles_append.mp h
  cases qs with
  | nil =>
    have ends : c + len x = b := hq
    exact Or.inr (by omega)
  | cons y ys =>
    have begins := hq.1
    exact Or.inl ⟨y, by simp, by omega⟩

theorem tiles_next_isLeast (h : Tiles start len a xs b) {x : α} (hx : x ∈ xs) :
    IsLeast {p | (∃ y ∈ xs, start y = p ∧ start x < p) ∨ p = b} (start x + len x) := by
  have bounds := tiles_mem h hx
  refine ⟨?_, ?_⟩
  · rcases tiles_next h hx with ⟨y, hy, next⟩ | ends
    · exact Or.inl ⟨y, hy, next, by omega⟩
    · exact Or.inr ends
  · rintro p (⟨y, hy, rfl, above⟩ | rfl)
    · exact tiles_disjoint h hx hy above
    · omega

/-- A tiling is the only way to list its items by increasing start. -/
theorem tiles_unique (h : Tiles start len a xs b) (hp : ys.Perm xs)
    (sorted : ys.Pairwise (fun x y => start x ≤ start y)) : ys = xs := by
  refine List.Perm.eq_of_pairwise ?_ sorted ?_ hp
  · intro x y hx hy hxy hyx
    exact tiles_start_injective h (hp.subset hx) hy (Nat.le_antisymm hxy hyx)
  · exact (tiles_sorted h).imp (fun hxy => Nat.le_trans (Nat.le_add_right _ _) hxy)

theorem tiles_map {β : Type} {f : β → α} {zs : List β} :
    Tiles start len a (zs.map f) b ↔ Tiles (start ∘ f) (len ∘ f) a zs b := by
  induction zs generalizing a with
  | nil => rfl
  | cons z zs ih => simp [Tiles, ih]

theorem tiles_congr {start' len' : α → Nat} (hs : ∀ x ∈ xs, start x = start' x)
    (hl : ∀ x ∈ xs, len x = len' x) (h : Tiles start len a xs b) : Tiles start' len' a xs b := by
  induction xs generalizing a with
  | nil => exact h
  | cons x xs ih =>
    obtain ⟨h1, h2, h3⟩ := h
    have hs' := hs x (by simp)
    have hl' := hl x (by simp)
    refine ⟨by omega, by omega, ?_⟩
    rw [← hl']
    exact ih (fun y hy => hs y (by simp [hy])) (fun y hy => hl y (by simp [hy])) h3

/-- Items that start and end in the same places tile the same space. -/
theorem tiles_forall₂ {β : Type} {start' len' : β → Nat} {zs : List β}
    (same : List.Forall₂ (fun x z => start x = start' z ∧ len x = len' z) xs zs)
    (h : Tiles start len a xs b) : Tiles start' len' a zs b := by
  induction same generalizing a with
  | nil => exact h
  | cons hxz _ ih =>
    obtain ⟨h1, h2, h3⟩ := h
    refine ⟨by omega, by omega, ?_⟩
    rw [← hxz.2]
    exact ih h3

/-- Items with different starts can be listed by increasing start. -/
theorem exists_sorted (start : α → Nat) {xs : List α}
    (apart : xs.Pairwise (fun x y => start x ≠ start y)) :
    ∃ ys : List α, ys.Perm xs ∧ ys.Pairwise (fun x y => start x < start y) := by
  let le : α → α → Bool := fun x y => start x ≤ start y
  have perm := List.mergeSort_perm xs le
  have sorted : (xs.mergeSort le).Pairwise (fun x y => le x y = true) := by
    apply List.pairwise_mergeSort
    · intro x y z hxy hyz
      simp only [le, decide_eq_true_eq] at hxy hyz ⊢
      omega
    · intro x y
      simp only [le, Bool.or_eq_true, decide_eq_true_eq]
      omega
  have apart' := (perm.pairwise_iff (fun {x y} (h : start x ≠ start y) => h.symm)).mpr apart
  refine ⟨xs.mergeSort le, perm, (sorted.and apart').imp ?_⟩
  intro x y hxy
  have hle : start x ≤ start y := by simpa [le] using hxy.1
  exact Nat.lt_of_le_of_ne hle hxy.2

/-- Items listed by increasing start tile `[a, b)` as soon as the first starts at `a` and each
ends where the next start above its own is, or at `b` when there is none. -/
theorem tiles_of_next (sorted : xs.Pairwise (fun x y => start x < start y))
    (first : ∀ x, xs.head? = some x → start x = a) (empty : xs = [] → a = b)
    (next : ∀ x ∈ xs, IsLeast {p | (∃ y ∈ xs, start y = p ∧ start x < p) ∨ p = b}
      (start x + len x)) (below : ∀ x ∈ xs, start x < b) : Tiles start len a xs b := by
  induction xs generalizing a with
  | nil => exact empty rfl
  | cons x xs ih =>
    have hx := first x rfl
    obtain ⟨hmem, hlow⟩ := next x (by simp)
    have hb := below x (by simp)
    have positive : 0 < len x := by
      rcases hmem with ⟨y, _, hy, hlt⟩ | hp <;> omega
    have sorted' := List.pairwise_cons.mp sorted
    refine ⟨hx, positive, ih sorted'.2 ?_ ?_ ?_ (fun y hy => below y (by simp [hy]))⟩
    · intro y hy
      have hy' : y ∈ xs := List.mem_of_mem_head? hy
      have hxy := sorted'.1 y hy'
      have le := hlow (Or.inl ⟨y, by simp [hy'], rfl, hxy⟩)
      -- the least start above `x` is that of the head, which is below the rest
      rcases hmem with ⟨z, hz, hzp, hlt⟩ | hp
      · rcases List.mem_cons.mp hz with rfl | hz
        · omega
        · cases xs with
          | nil => simp at hz
          | cons w ws =>
            cases Option.some.inj hy
            rcases List.mem_cons.mp hz with rfl | hz
            · omega
            · have := (List.pairwise_cons.mp sorted'.2).1 z hz
              omega
      · have := below y (by simp [hy'])
        omega
    · rintro rfl
      rcases hmem with ⟨z, hz, hzp, hlt⟩ | hp
      · have hzx : z = x := by simpa using hz
        subst z
        omega
      · omega
    · intro y hy
      have hxy := sorted'.1 y hy
      obtain ⟨hm, hl⟩ := next y (by simp [hy])
      refine ⟨?_, ?_⟩
      · rcases hm with ⟨z, hz, hzp, hlt⟩ | hp
        · rcases List.mem_cons.mp hz with rfl | hz
          · omega
          · exact Or.inl ⟨z, hz, hzp, hlt⟩
        · exact Or.inr hp
      · rintro p (⟨z, hz, hzp, hlt⟩ | hp)
        · exact hl (Or.inl ⟨z, by simp [hz], hzp, hlt⟩)
        · exact hl (Or.inr hp)

/-- The same for items whose least start is `a`. -/
theorem tiles_of_least (sorted : xs.Pairwise (fun x y => start x < start y))
    (first : ∃ x ∈ xs, start x = a) (least : ∀ x ∈ xs, a ≤ start x)
    (next : ∀ x ∈ xs, IsLeast {p | (∃ y ∈ xs, start y = p ∧ start x < p) ∨ p = b}
      (start x + len x)) (below : ∀ x ∈ xs, start x < b) : Tiles start len a xs b := by
  obtain ⟨x, hx, hxa⟩ := first
  refine tiles_of_next sorted ?_ ?_ next below
  · intro y hy
    cases xs with
    | nil => cases hy
    | cons z zs =>
      cases Option.some.inj hy
      rcases List.mem_cons.mp hx with rfl | hx
      · exact hxa
      · have low := least y List.mem_cons_self
        have := (List.pairwise_cons.mp sorted).1 x hx
        omega
  · rintro rfl
    cases hx

/-- Where a position moves once the `m` bytes from `r` on are cut out. -/
def cut (r m p : Nat) : Nat := if r < p then p - m else p

section cut

variable {r m s l p : Nat}

/-- A position that lies inside neither interval lies, after the cut, not inside the other one. -/
theorem cut_outside (hr : p ≤ r ∨ r + m ≤ p) (hs : p ≤ s ∨ s + l ≤ p)
    (apart : m = 0 ∨ l = 0 ∨ r + m ≤ s ∨ s + l ≤ r) :
    cut r m p ≤ cut r m s ∨ cut r m s + l ≤ cut r m p := by
  unfold cut
  split <;> split <;> omega

theorem cut_lt_iff (hr : p ≤ r ∨ r + m ≤ p) (hs : p ≤ s ∨ s + l ≤ p)
    (apart : m = 0 ∨ l = 0 ∨ r + m ≤ s ∨ s + l ≤ r) (nonempty : 0 < l) :
    cut r m s < cut r m p ↔ s < p := by
  unfold cut
  split <;> split <;> omega

theorem cut_le_cut (le : s ≤ p) (room : r < p → r + m ≤ p) : cut r m s ≤ cut r m p := by
  unfold cut
  split <;> split <;> omega

theorem cut_lt_cut (lt : s < p) (apart : m = 0 ∨ s ≠ r) (below : r < s → r + m ≤ s)
    (room : r < p → r + m ≤ p) : cut r m s < cut r m p := by
  unfold cut
  split <;> split <;> omega

end cut

theorem tiles_shift {d : Nat} (h : Tiles start len (a + d) xs (b + d)) :
    Tiles (fun x => start x - d) len a xs b := by
  induction xs generalizing a with
  | nil => exact Nat.add_right_cancel h
  | cons x xs ih =>
    obtain ⟨hs, hl, ht⟩ := h
    have moved : start x - d = a := by omega
    refine ⟨moved, hl, ih ?_⟩
    rwa [Nat.add_right_comm]

/-- Cutting one item out of a tiling leaves a tiling of the shorter interval. -/
theorem tiles_remove {r : α} {ps qs : List α} (h : Tiles start len a (ps ++ r :: qs) b) :
    Tiles (fun x => cut (start r) (len r) (start x)) len a (ps ++ qs) (b - len r) := by
  obtain ⟨c, hp, hs, hl, hq⟩ := tiles_append.mp h
  have end_le := tiles_le hq
  apply tiles_append.mpr
  refine ⟨c, ?_, ?_⟩
  · refine tiles_congr ?_ (fun _ _ => rfl) hp
    intro x hx
    have := tiles_mem hp hx
    simp [cut, show ¬start r < start x by omega]
  · have moved : Tiles (fun x => start x - len r) len c qs (b - len r) := by
      apply tiles_shift
      rwa [Nat.sub_add_cancel (by omega)]
    refine tiles_congr ?_ (fun _ _ => rfl) moved
    intro x hx
    have := tiles_mem hq hx
    simp [cut, show start r < start x by omega]

section contents

variable {β : Type} {c : α → List β}

theorem tiles_flatMap_length (h : Tiles start len a xs b) (hc : ∀ x ∈ xs, (c x).length = len x) :
    (xs.flatMap c).length = b - a := by
  induction xs generalizing a with
  | nil =>
    have : a = b := h
    simp [this]
  | cons x xs ih =>
    have rest := ih h.2.2 (fun y hy => hc y (by simp [hy]))
    have head := hc x (by simp)
    have := tiles_le h.2.2
    simp only [List.flatMap_cons, List.length_append]
    omega

/-- In the concatenation of the contents, the content of an item lies at its start. -/
theorem tiles_flatMap_slice (h : Tiles start len a xs b) (hc : ∀ x ∈ xs, (c x).length = len x)
    {x : α} (hx : x ∈ xs) :
    slice (xs.flatMap c) (start x - a) (start x - a + len x) = c x := by
  obtain ⟨ps, qs, rfl⟩ := List.append_of_mem hx
  obtain ⟨m, hp, hs, hl, hq⟩ := tiles_append.mp h
  have front := tiles_flatMap_length hp (fun y hy => hc y (by simp [hy]))
  have item := hc x (by simp)
  rw [List.flatMap_append, List.flatMap_cons, ← List.append_assoc, ← item]
  exact slice_middle (by omega)

/-- Items whose content is the part of `file` they cover put that part together again. -/
theorem tiles_flatMap_eq_slice {file : List β} (h : Tiles start len a xs b)
    (hc : ∀ x ∈ xs, c x = slice file (start x) (start x + len x)) :
    xs.flatMap c = slice file a b := by
  induction xs generalizing a with
  | nil =>
    have : a = b := h
    simp [this]
  | cons x xs ih =>
    obtain ⟨hs, hl, ht⟩ := h
    have rest := ih ht (fun y hy => hc y (by simp [hy]))
    have head := hc x (by simp)
    rw [List.flatMap_cons, head, rest, hs]
    exact slice_append_slice file (by omega) (tiles_le ht)

end contents

end Tiling
