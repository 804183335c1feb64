import Mathlib.Tactic

/-- The values of `errno` that are told apart. -/
inductive Errno
  | EINTR
  | other
  deriving DecidableEq, Repr

/-- The result of a call of `write`: it takes as many bytes as there are, but at most `n`, or it
fails. -/
inductive WriteResult
  | wrote (n : Nat)
  | failed (errno : Errno)
  deriving DecidableEq, Repr

/-- The other end takes something, or a signal interrupts the call. -/
def WriteResult.Willing : WriteResult → Prop
  | .wrote n => 0 < n
  | .failed errno => errno = .EINTR

/-- How much is sure to be taken. -/
def WriteResult.weight : WriteResult → Nat
  | .wrote _ => 1
  | .failed _ => 0

/-- A descriptor to write to: the results of the coming calls, and what has been taken so far. -/
structure Outlet (α : Type) where
  coming : List WriteResult
  errno : Errno
  taken : List α

namespace Outlet

variable {α : Type} {o o' : Outlet α} {bs : List α} {nwritten : Int}

/-- `write`, which does not return when no result is left. A call that succeeds leaves `errno` as
it is. -/
def write (o : Outlet α) (bs : List α) : Option (Int × Outlet α) :=
  match o.coming with
  | [] => none
  | .wrote n :: coming =>
    some ((bs.take n).length, { o with coming := coming, taken := o.taken ++ bs.take n })
  | .failed errno :: coming => some (-1, { o with coming := coming, errno := errno })

def weight (o : Outlet α) : Nat := (o.coming.map WriteResult.weight).sum

def Willing (o : Outlet α) : Prop := ∀ result ∈ o.coming, result.Willing

theorem write_eq_none : o.write bs = none ↔ o.coming = [] := by
  unfold write
  split
  next none => simp [none]
  next some => simp [some]
  next some => simp [some]

theorem write_coming (h : o.write bs = some (nwritten, o')) :
    ∃ result, o.coming = result :: o'.coming := by
  unfold write at h
  split at h
  next => cases h
  next some => cases h; exact ⟨_, some⟩
  next some => cases h; exact ⟨_, some⟩

/-- The bytes that are taken are the first, as many as the result says. -/
theorem write_taken (h : o.write bs = some (nwritten, o')) :
    nwritten ≤ bs.length ∧ o'.taken = o.taken ++ bs.take nwritten.toNat := by
  unfold write at h
  split at h
  next => cases h
  next n coming _ =>
    cases h
    refine ⟨by simp, ?_⟩
    simp only [Int.toNat_natCast, List.length_take]
    rw [← List.take_take, List.take_length]
  next =>
    cases h
    exact ⟨by omega, by simp⟩

/-- A willing end takes something, or leaves `EINTR`. -/
theorem Willing.write (h : o.Willing) (nonempty : bs ≠ [])
    (run : o.write bs = some (nwritten, o')) :
    o'.Willing ∧ (0 < nwritten ∨ o'.errno = .EINTR) ∧ o.weight ≤ o'.weight + nwritten.toNat := by
  have room := List.length_pos_iff.mpr nonempty
  obtain ⟨coming, errno, taken⟩ := o
  cases coming with
  | nil => cases run
  | cons result coming =>
    have willing : result.Willing := h result (by simp)
    have behind : ∀ r ∈ coming, r.Willing := fun r hr => h r (by simp [hr])
    cases result with
    | wrote n =>
      cases run
      rw [WriteResult.Willing] at willing
      refine ⟨behind, Or.inl ?_, ?_⟩
      · simp only [List.length_take]
        omega
      · simp only [weight, List.map_cons, List.sum_cons, WriteResult.weight, List.length_take]
        omega
    | failed errno =>
      cases run
      exact ⟨behind, Or.inr willing, by simp [weight, WriteResult.weight]⟩

end Outlet
