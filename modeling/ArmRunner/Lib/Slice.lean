import Mathlib.Tactic

namespace Slice

variable {α : Type}

/-- The entries of `xs` at positions `a` up to and excluding `b`. -/
def slice (xs : List α) (a b : Nat) : List α := (xs.drop a).take (b - a)

theorem slice_length {xs : List α} {a b : Nat} (hb : b ≤ xs.length) :
    (slice xs a b).length = b - a := by
  simp only [slice, List.length_take, List.length_drop]
  omega

@[simp] theorem slice_self (xs : List α) (a : Nat) : slice xs a a = [] := by
  simp [slice]

theorem slice_zero (xs : List α) (b : Nat) : slice xs 0 b = xs.take b := by
  simp [slice]

theorem slice_getElem? {xs : List α} {a b i : Nat} (h : i < b - a) :
    (slice xs a b)[i]? = xs[a + i]? := by
  simp [slice, List.getElem?_drop, h]

theorem slice_append_slice (xs : List α) {a b c : Nat} (hab : a ≤ b) (hbc : b ≤ c) :
    slice xs a b ++ slice xs b c = slice xs a c := by
  have cut : xs.drop b = (xs.drop a).drop (b - a) := by
    rw [List.drop_drop, Nat.add_sub_cancel' hab]
  have total : c - a = (b - a) + (c - b) := by omega
  rw [slice, slice, slice, cut, total, ← List.take_add]

theorem slice_append_left {xs ys : List α} {a b : Nat} (h : b ≤ xs.length) :
    slice (xs ++ ys) a b = slice xs a b := by
  unfold slice
  rcases Nat.le_total a xs.length with ha | ha
  · rw [List.drop_append_of_le_length ha, List.take_append_of_le_length (by simp; omega)]
  · simp [show b - a = 0 by omega]

theorem slice_append_right {xs ys : List α} {a b : Nat} (h : xs.length ≤ a) :
    slice (xs ++ ys) a b = slice ys (a - xs.length) (b - xs.length) := by
  unfold slice
  rw [List.drop_append, List.drop_eq_nil_of_le h, List.nil_append]
  congr 1
  omega

theorem slice_middle {xs ys zs : List α} {a : Nat} (h : xs.length = a) :
    slice (xs ++ ys ++ zs) a (a + ys.length) = ys := by
  subst h
  simp [slice]

theorem slice_slice {xs : List α} {a b c d : Nat} (h : a + d ≤ b) :
    slice (slice xs a b) c d = slice xs (a + c) (a + d) := by
  unfold slice
  rw [List.drop_take, List.take_take, List.drop_drop]
  congr 1
  omega

theorem slice_take {xs : List α} {a b n : Nat} (h : a + n ≤ b) :
    (slice xs a b).take n = slice xs a (a + n) := by
  rw [← slice_zero, slice_slice h, Nat.add_zero]

theorem flatMap_length_const {β : Type} {f : β → List α} {w : Nat} (h : ∀ x, (f x).length = w)
    (xs : List β) : (xs.flatMap f).length = w * xs.length := by
  induction xs with
  | nil => rfl
  | cons x xs ih =>
    rw [List.flatMap_cons, List.length_append, ih, h, List.length_cons, Nat.mul_succ, Nat.add_comm]

/-- Consecutive pieces of one width make up the whole. -/
theorem slice_records (xs : List α) (a w n : Nat) :
    ((List.range n).flatMap fun j => slice xs (a + w * j) (a + w * j + w)) =
      slice xs a (a + w * n) := by
  induction n with
  | zero => simp
  | succ n ih =>
    rw [List.range_succ, List.flatMap_append, ih, List.flatMap_singleton,
      slice_append_slice xs (by omega) (by omega), Nat.mul_succ, Nat.add_assoc]

end Slice
