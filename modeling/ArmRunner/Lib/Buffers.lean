import ArmRunner.Lib.CRun

open CRun

namespace Buffers

/-- A pointer in memory: nothing was stored in it yet, or it owns a buffer. -/
inductive Slot
  | unassigned
  | owned (buffer : Nat)
  deriving DecidableEq, Repr

/-- The value of a pointer that was not assigned is not defined. -/
def Slot.use : Slot → Run Nat
  | .unassigned => .error .fault
  | .owned buffer => .ok buffer

def Slot.buffer : Slot → Option Nat
  | .unassigned => none
  | .owned buffer => some buffer

/-- The sizes of the buffers that were ever allocated, numbered in order, and the released ones,
the last first. -/
structure Heap where
  sizes : List Nat
  released : List Nat
  deriving DecidableEq, Repr

namespace Heap

def empty : Heap := ⟨[], []⟩

def malloc (h : Heap) (n : Nat) : Nat × Heap := (h.sizes.length, ⟨h.sizes ++ [n], h.released⟩)

def free (h : Heap) (b : Nat) : Heap := ⟨h.sizes, b :: h.released⟩

/-- The old buffer is released, and the pointer that is returned owns another. -/
def realloc (h : Heap) (b n : Nat) : Nat × Heap := (h.free b).malloc n

end Heap

def owners (slots : List Slot) : List Nat := slots.filterMap Slot.buffer

/-- Every buffer has one owner, or was released once. -/
def Accounted (slots : List Slot) (h : Heap) : Prop :=
  (owners slots ++ h.released).Perm (List.range h.sizes.length)

section slots

variable {slot : Slot} {slots xs ys : List Slot} {h : Heap} {b n : Nat}

theorem use_of_assigned (assigned : slot ≠ .unassigned) :
    ∃ b, slot = .owned b ∧ slot.use = .ok b := by
  cases slot with
  | unassigned => exact absurd rfl assigned
  | owned b => exact ⟨b, rfl, rfl⟩

@[simp] theorem owners_nil : owners [] = [] := rfl

@[simp] theorem owners_append : owners (xs ++ ys) = owners xs ++ owners ys :=
  List.filterMap_append

@[simp] theorem owners_unassigned : owners (.unassigned :: slots) = owners slots := rfl

@[simp] theorem owners_owned : owners (.owned b :: slots) = b :: owners slots := rfl

theorem mem_owners (member : .owned b ∈ slots) : b ∈ owners slots :=
  List.mem_filterMap.mpr ⟨_, member, rfl⟩

theorem accounted_empty : Accounted [] Heap.empty := List.Perm.refl _

/-- A new buffer for a pointer. -/
theorem Accounted.malloc (acc : Accounted (xs ++ ys) h) (n : Nat) :
    Accounted (xs ++ .owned (h.malloc n).1 :: ys) (h.malloc n).2 := by
  rw [Accounted, List.perm_iff_count] at acc ⊢
  intro a
  have before := acc a
  simp only [owners_append, owners_owned, Heap.malloc, List.length_append, List.length_singleton,
    List.range_succ, List.count_append, List.count_cons, List.count_nil] at before ⊢
  omega

/-- A released buffer has lost its owner. -/
theorem Accounted.free (acc : Accounted (xs ++ .owned b :: ys) h) :
    Accounted (xs ++ ys) (h.free b) := by
  rw [Accounted, List.perm_iff_count] at acc ⊢
  intro a
  have before := acc a
  simp only [owners_append, owners_owned, Heap.free, List.count_append,
    List.count_cons] at before ⊢
  omega

theorem Accounted.realloc (acc : Accounted (xs ++ .owned b :: ys) h) (n : Nat) :
    Accounted (xs ++ .owned (h.realloc b n).1 :: ys) (h.realloc b n).2 :=
  acc.free.malloc n

theorem Accounted.nodup (acc : Accounted slots h) : (owners slots ++ h.released).Nodup :=
  acc.nodup_iff.mpr List.nodup_range

theorem Accounted.released_nodup (acc : Accounted slots h) : h.released.Nodup :=
  (List.nodup_append.mp acc.nodup).2.1

/-- The buffer of a pointer was allocated and is still there. -/
theorem Accounted.live (acc : Accounted slots h) (member : .owned b ∈ slots) :
    b < h.sizes.length ∧ b ∉ h.released := by
  have owner := mem_owners member
  have known : b ∈ owners slots ++ h.released := List.mem_append_left _ owner
  refine ⟨List.mem_range.mp (acc.mem_iff.mp known), ?_⟩
  intro gone
  exact (List.nodup_append.mp acc.nodup).2.2 b owner b gone rfl

/-- Without pointers left, every buffer was released, and none twice. -/
theorem Accounted.released_once (acc : Accounted [] h) (known : b < h.sizes.length) :
    h.released.count b = 1 := by
  have same : h.released.count b = (List.range h.sizes.length).count b := acc.count_eq b
  rw [same]
  exact List.count_eq_one_of_mem List.nodup_range (List.mem_range.mpr known)

end slots

end Buffers
