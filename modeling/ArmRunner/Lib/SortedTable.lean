import ArmRunner.Lib.CRun
import Mathlib.Data.List.Sort
import Mathlib.Data.List.TakeWhile

namespace SortedTable

open CRun

variable {α : Type} {cmp : α → α → Int}

/-- A three-way comparison that separates what differs. -/
structure Comparison (cmp : α → α → Int) : Prop where
  zero_iff : ∀ x y, cmp x y = 0 ↔ x = y
  swap : ∀ x y, cmp x y < 0 ↔ 0 < cmp y x
  trans : ∀ x y z, cmp x y < 0 → cmp y z < 0 → cmp x z < 0

def NotAfter (cmp : α → α → Int) (x y : α) : Prop := cmp x y ≤ 0

instance (cmp : α → α → Int) : DecidableRel (NotAfter cmp) := fun x y =>
  inferInstanceAs (Decidable (cmp x y ≤ 0))

/-- A table in the order of its comparison, where equal entries may repeat. -/
def Ascending (cmp : α → α → Int) (xs : List α) : Prop := xs.Pairwise (NotAfter cmp)

/-- The number of leading entries that come before `x`. -/
def rank (cmp : α → α → Int) (x : α) (xs : List α) : Nat :=
  (xs.takeWhile fun y => cmp y x < 0).length

/-- The table with `x` in front of the first entry that does not come before it. -/
def place (cmp : α → α → Int) (x : α) (xs : List α) : List α :=
  xs.orderedInsert (NotAfter cmp) x

/-- `while (lo < hi)` halves a closed interval, and a last test looks at an interval of one entry.
The probe tells on which side of an entry the wanted one lies. -/
def bisect (probe : Int → Run Int) (lo hi : Int) : Run Bool :=
  if lo < hi then do
    let middle := (lo + hi) / 2
    let result ← probe middle
    if result < 0 then bisect probe (middle + 1) hi
    else if 0 < result then bisect probe lo (middle - 1)
    else .ok true
  else if lo = hi then do
    let result ← probe lo
    .ok (result == 0)
  else .ok false
termination_by (hi + 1 - lo).toNat

section insertion

variable {x y z : α} {xs ys : List α}

theorem Comparison.notAfter_iff (h : Comparison cmp) : NotAfter cmp x y ↔ ¬cmp y x < 0 := by
  have := h.swap y x
  unfold NotAfter
  omega

theorem Comparison.notAfter_trans (h : Comparison cmp) (hxy : NotAfter cmp x y)
    (hyz : NotAfter cmp y z) : NotAfter cmp x z := by
  rcases lt_or_eq_of_le hxy with lt | eq
  · rcases lt_or_eq_of_le hyz with lt' | eq'
    · exact (h.trans x y z lt lt').le
    · rw [← (h.zero_iff y z).mp eq']
      exact hxy
  · rw [(h.zero_iff x y).mp eq]
    exact hyz

theorem Comparison.notAfter_total (h : Comparison cmp) (x y : α) :
    NotAfter cmp x y ∨ NotAfter cmp y x := by
  have := h.swap x y
  unfold NotAfter
  omega

theorem Comparison.pos_of_notAfter (h : Comparison cmp) (hyz : NotAfter cmp y z)
    (above : 0 < cmp y x) : 0 < cmp z x := by
  by_contra low
  have hzx : NotAfter cmp z x := by
    unfold NotAfter
    omega
  have := h.notAfter_trans hyz hzx
  unfold NotAfter at this
  omega

theorem Comparison.neg_of_notAfter (h : Comparison cmp) (hyz : NotAfter cmp y z)
    (below : cmp z x < 0) : cmp y x < 0 := by
  by_contra high
  have hxy : NotAfter cmp x y := h.notAfter_iff.mpr high
  exact h.notAfter_iff.mp (h.notAfter_trans hxy hyz) below

theorem Ascending.getElem? (h : Comparison cmp) (sorted : Ascending cmp xs) {i j : Nat}
    (hij : i ≤ j) (hy : xs[i]? = some y) (hz : xs[j]? = some z) : NotAfter cmp y z := by
  obtain ⟨hi, rfl⟩ := List.getElem?_eq_some_iff.mp hy
  obtain ⟨hj, rfl⟩ := List.getElem?_eq_some_iff.mp hz
  rcases Nat.lt_or_eq_of_le hij with lt | eq
  · exact List.pairwise_iff_getElem.mp sorted _ _ hi hj lt
  · simp only [eq]
    exact ((h.zero_iff _ _).mpr rfl).le

theorem rank_le (x : α) (xs : List α) : rank cmp x xs ≤ xs.length :=
  (List.takeWhile_sublist _).length_le

theorem place_eq (h : Comparison cmp) (x : α) (xs : List α) :
    place cmp x xs = xs.take (rank cmp x xs) ++ x :: xs.drop (rank cmp x xs) := by
  have before : (fun y => decide ¬NotAfter cmp x y) = fun y => decide (cmp y x < 0) := by
    funext y
    simp only [h.notAfter_iff, not_not]
  rw [place, List.orderedInsert_eq_take_drop, before, rank]
  congr 1
  · exact List.prefix_iff_eq_take.mp (List.takeWhile_prefix _)
  · have parts := List.takeWhile_append_dropWhile (p := fun y => decide (cmp y x < 0)) (l := xs)
    conv_rhs => rw [← parts]
    rw [List.drop_left' (by rw [parts])]

theorem place_perm (x : α) (xs : List α) : (place cmp x xs).Perm (x :: xs) :=
  List.perm_orderedInsert _ x xs

theorem place_length (x : α) (xs : List α) : (place cmp x xs).length = xs.length + 1 :=
  List.orderedInsert_length _ xs x

theorem place_ascending (h : Comparison cmp) (sorted : Ascending cmp xs) (x : α) :
    Ascending cmp (place cmp x xs) := by
  have : Std.Total (NotAfter cmp) := ⟨h.notAfter_total⟩
  have : IsTrans α (NotAfter cmp) := ⟨fun _ _ _ => h.notAfter_trans⟩
  exact List.Pairwise.orderedInsert x xs sorted

theorem rank_eq_length : rank cmp x xs = xs.length ↔ ∀ y ∈ xs, cmp y x < 0 := by
  constructor
  · intro all y hy
    have whole := (List.takeWhile_prefix fun y => decide (cmp y x < 0)).eq_of_length all
    simpa using List.takeWhile_eq_self_iff.mp whole y hy
  · intro all
    rw [rank, List.takeWhile_eq_self_iff.mpr fun y hy => decide_eq_true (all y hy)]

end insertion

section search

variable {probe : Int → Run Int} {sign : Int → Int} {lo hi : Int}

/-- On the interval the probe reads `sign`, which only grows in sign. -/
structure Guides (probe : Int → Run Int) (sign : Int → Int) (lo hi : Int) : Prop where
  reads : ∀ k, lo ≤ k → k ≤ hi → probe k = .ok (sign k)
  up : ∀ j k, lo ≤ j → j ≤ k → k ≤ hi → 0 < sign j → 0 < sign k
  down : ∀ j k, lo ≤ j → j ≤ k → k ≤ hi → sign k < 0 → sign j < 0

theorem Guides.narrow (h : Guides probe sign lo hi) {lo' hi' : Int} (hlo : lo ≤ lo')
    (hhi : hi' ≤ hi) : Guides probe sign lo' hi' := by
  refine ⟨?_, ?_, ?_⟩
  · intro k hk hk'
    exact h.reads k (by omega) (by omega)
  · intro j k hj hjk hk
    exact h.up j k (by omega) hjk (by omega)
  · intro j k hj hjk hk
    exact h.down j k (by omega) hjk (by omega)

/-- What is wanted lies behind an entry that comes before it. -/
theorem Guides.zero_behind (h : Guides probe sign lo hi) {middle : Int} (hlo : lo ≤ middle)
    (hhi : middle ≤ hi) (below : sign middle < 0) :
    (∃ k, middle + 1 ≤ k ∧ k ≤ hi ∧ sign k = 0) ↔ ∃ k, lo ≤ k ∧ k ≤ hi ∧ sign k = 0 := by
  constructor
  · rintro ⟨k, hk, hk', zero⟩
    exact ⟨k, by omega, hk', zero⟩
  · rintro ⟨k, hk, hk', zero⟩
    refine ⟨k, ?_, hk', zero⟩
    by_contra early
    have := h.down k middle hk (by omega) hhi below
    omega

theorem Guides.zero_before (h : Guides probe sign lo hi) {middle : Int} (hlo : lo ≤ middle)
    (hhi : middle ≤ hi) (above : 0 < sign middle) :
    (∃ k, lo ≤ k ∧ k ≤ middle - 1 ∧ sign k = 0) ↔ ∃ k, lo ≤ k ∧ k ≤ hi ∧ sign k = 0 := by
  constructor
  · rintro ⟨k, hk, hk', zero⟩
    exact ⟨k, hk, by omega, zero⟩
  · rintro ⟨k, hk, hk', zero⟩
    refine ⟨k, hk, ?_, zero⟩
    by_contra late
    have := h.up middle k hlo (by omega) hk' above
    omega

/-- The search ends, and finds exactly what is in the interval. -/
theorem bisect_spec (h : Guides probe sign lo hi) :
    ∃ found, bisect probe lo hi = .ok found ∧
      (found = true ↔ ∃ k, lo ≤ k ∧ k ≤ hi ∧ sign k = 0) := by
  induction hn : (hi + 1 - lo).toNat using Nat.strong_induction_on generalizing lo hi with
  | _ n ih =>
    unfold bisect
    by_cases many : lo < hi
    · rw [if_pos many]
      simp only
      have inside : lo ≤ (lo + hi) / 2 ∧ (lo + hi) / 2 < hi := by omega
      generalize (lo + hi) / 2 = middle at inside ⊢
      obtain ⟨hlo, hhi⟩ := inside
      rw [h.reads middle hlo hhi.le, ok_bind]
      rcases lt_trichotomy (sign middle) 0 with below | here | above
      · rw [if_pos below]
        have upper : Guides probe sign (middle + 1) hi := h.narrow (by omega) le_rfl
        obtain ⟨found, run, iff⟩ := ih _ (by omega) upper rfl
        exact ⟨found, run, iff.trans (h.zero_behind hlo hhi.le below)⟩
      · rw [if_neg (by omega), if_neg (by omega)]
        exact ⟨true, rfl, iff_of_true rfl ⟨middle, hlo, hhi.le, here⟩⟩
      · rw [if_neg (by omega), if_pos above]
        have lower : Guides probe sign lo (middle - 1) := h.narrow le_rfl (by omega)
        obtain ⟨found, run, iff⟩ := ih _ (by omega) lower rfl
        exact ⟨found, run, iff.trans (h.zero_before hlo hhi.le above)⟩
    · rw [if_neg many]
      by_cases one : lo = hi
      · subst one
        rw [if_pos rfl, h.reads lo le_rfl le_rfl, ok_bind]
        refine ⟨_, rfl, ?_⟩
        rw [beq_iff_eq]
        constructor
        · intro here
          exact ⟨lo, le_rfl, le_rfl, here⟩
        · rintro ⟨k, hlo, hhi, hk⟩
          rwa [show lo = k by omega]
      · rw [if_neg one]
        refine ⟨false, rfl, ?_⟩
        simp only [Bool.false_eq_true, false_iff]
        rintro ⟨k, hlo, hhi, -⟩
        omega

/-- In an ascending table the comparison with one value grows in sign from entry to entry. -/
theorem guides_table (h : Comparison cmp) {xs : List α} (sorted : Ascending cmp xs) (x : α)
    (reads : ∀ (k : Nat) y, xs[k]? = some y → probe k = .ok (cmp y x)) :
    ∃ sign : Int → Int, Guides probe sign 0 (xs.length - 1) ∧
      ((∃ k, 0 ≤ k ∧ k ≤ (xs.length : Int) - 1 ∧ sign k = 0) ↔ x ∈ xs) := by
  have entry (k : Int) (h0 : 0 ≤ k) (hk : k ≤ (xs.length : Int) - 1) :
      ∃ y, xs[k.toNat]? = some y := ⟨_, List.getElem?_eq_getElem (by omega)⟩
  refine ⟨fun k => (xs[k.toNat]?.map fun y => cmp y x).getD 0, ⟨?_, ?_, ?_⟩, ?_⟩
  · intro k h0 hk
    obtain ⟨y, hy⟩ := entry k h0 hk
    have := reads k.toNat y hy
    rw [Int.toNat_of_nonneg h0] at this
    simp only [this, hy, Option.map_some, Option.getD_some]
  · intro j k h0 hjk hk above
    obtain ⟨y, hy⟩ := entry j h0 (by omega)
    obtain ⟨z, hz⟩ := entry k (by omega) hk
    simp only [hy, hz, Option.map_some, Option.getD_some] at above ⊢
    exact h.pos_of_notAfter (sorted.getElem? h (Int.toNat_le_toNat hjk) hy hz) above
  · intro j k h0 hjk hk below
    obtain ⟨y, hy⟩ := entry j h0 (by omega)
    obtain ⟨z, hz⟩ := entry k (by omega) hk
    simp only [hy, hz, Option.map_some, Option.getD_some] at below ⊢
    exact h.neg_of_notAfter (sorted.getElem? h (Int.toNat_le_toNat hjk) hy hz) below
  · constructor
    · rintro ⟨k, h0, hk, zero⟩
      obtain ⟨y, hy⟩ := entry k h0 hk
      simp only [hy, Option.map_some, Option.getD_some] at zero
      rw [← (h.zero_iff y x).mp zero]
      exact List.mem_of_getElem? hy
    · intro hx
      obtain ⟨k, hk⟩ := List.mem_iff_getElem?.mp hx
      have inside := (List.getElem?_eq_some_iff.mp hk).1
      refine ⟨k, by omega, by omega, ?_⟩
      simp only [Int.toNat_natCast, hk, Option.map_some, Option.getD_some]
      exact (h.zero_iff x x).mpr rfl

end search

end SortedTable
