import ArmRunner.Lib.CRun

open CRun

/-- A block of memory. It keeps its last value when it is freed. -/
structure Cell (α : Type) where
  value : α
  live : Bool

/-- The blocks of one kind that have been allocated, with their numbers for the pointers. -/
structure Arena (α : Type) where
  cells : List (Cell α)

namespace Arena

variable {α : Type} {a a' : Arena α} {p q : Nat} {x y : α}

def empty : Arena α := ⟨[]⟩

def malloc (a : Arena α) (x : α) : Nat × Arena α := (a.cells.length, ⟨a.cells ++ [⟨x, true⟩]⟩)

/-- The block is there, with a value. -/
def Holds (a : Arena α) (p : Nat) (x : α) : Prop := a.cells[p]? = some ⟨x, true⟩

def load (a : Arena α) (p : Nat) : Run α :=
  match a.cells[p]? with
  | some ⟨x, true⟩ => .ok x
  | _ => .error .fault

def store (a : Arena α) (p : Nat) (x : α) : Run (Arena α) := do
  let _ ← a.load p
  .ok ⟨a.cells.set p ⟨x, true⟩⟩

def free (a : Arena α) (p : Nat) : Run (Arena α) := do
  let x ← a.load p
  .ok ⟨a.cells.set p ⟨x, false⟩⟩

/-- Only the block `p` may have changed. -/
structure Same (a a' : Arena α) (p : Nat) : Prop where
  length : a'.cells.length = a.cells.length
  others : ∀ q ≠ p, a'.cells[q]? = a.cells[q]?

theorem load_eq_ok : a.load p = .ok x ↔ a.Holds p x := by
  unfold load Holds
  split
  next y found => simp [found]
  next other =>
    refine iff_of_false (by simp) ?_
    intro found
    exact other x found

/-- A load that fails faults. -/
theorem load_error {e : Stop} (h : a.load p = .error e) : e = .fault := by
  unfold load at h
  split at h
  next => cases h
  next => exact (Except.error.inj h).symm

theorem load_faults (h : ∀ x, ¬ a.Holds p x) : a.load p = .error .fault := by
  cases run : a.load p with
  | ok x => exact absurd (load_eq_ok.mp run) (h x)
  | error e => rw [load_error run]

theorem Holds.inside (h : a.Holds p x) : p < a.cells.length := (List.getElem?_eq_some_iff.mp h).1

theorem Same.refl (a : Arena α) (p : Nat) : a.Same a p := ⟨rfl, fun _ _ => rfl⟩

theorem Same.trans {a'' : Arena α} (h : a.Same a' p) (h' : a'.Same a'' p) : a.Same a'' p :=
  ⟨h'.length.trans h.length, fun q hq => (h'.others q hq).trans (h.others q hq)⟩

theorem Same.holds (h : a.Same a' p) (other : q ≠ p) (held : a.Holds q x) : a'.Holds q x :=
  (h.others q other).trans held

theorem same_set (a : Arena α) (p : Nat) (c : Cell α) : a.Same ⟨a.cells.set p c⟩ p :=
  ⟨List.length_set, fun _ other => List.getElem?_set_ne other.symm⟩

theorem Holds.store (h : a.Holds p x) (y : α) :
    ∃ a', a.store p y = .ok a' ∧ a'.Holds p y ∧ a.Same a' p := by
  refine ⟨_, ?_, ?_, same_set a p ⟨y, true⟩⟩
  · rw [Arena.store, load_eq_ok.mpr h]
    rfl
  · exact List.getElem?_set_self h.inside

theorem Holds.free (h : a.Holds p x) :
    ∃ a', a.free p = .ok a' ∧ a'.cells[p]? = some ⟨x, false⟩ ∧ a.Same a' p := by
  refine ⟨_, ?_, ?_, same_set a p ⟨x, false⟩⟩
  · rw [Arena.free, load_eq_ok.mpr h]
    rfl
  · exact List.getElem?_set_self h.inside

theorem malloc_holds (a : Arena α) (x : α) : (a.malloc x).2.Holds (a.malloc x).1 x := by
  simp [malloc, Holds]

/-- What is left of a new block. -/
theorem Same.malloc {c : Cell α} (h : (a.malloc x).2.Same a' (a.malloc x).1)
    (held : a'.cells[(a.malloc x).1]? = some c) : a'.cells = a.cells ++ [c] := by
  have length := h.length
  rw [Arena.malloc, List.length_append, List.length_singleton] at length
  apply List.ext_getElem?
  intro q
  rcases Nat.lt_trichotomy q a.cells.length with before | rfl | behind
  · rw [h.others q (Nat.ne_of_lt before), Arena.malloc, List.getElem?_append_left before,
      List.getElem?_append_left before]
  · rw [show a'.cells[a.cells.length]? = some c from held, List.getElem?_concat_length]
  · rw [List.getElem?_eq_none (by omega), List.getElem?_eq_none (by simp; omega)]

/-- Which blocks are there. -/
def lives (a : Arena α) : List Bool := a.cells.map Cell.live

theorem lives_iff : a.lives[p]? = some true ↔ ∃ x, a.Holds p x := by
  rw [lives, List.getElem?_map, Option.map_eq_some_iff]
  constructor
  · rintro ⟨⟨x, live⟩, found, rfl⟩
    exact ⟨x, found⟩
  · rintro ⟨x, found⟩
    exact ⟨_, found, rfl⟩

theorem Same.lives {x : α} (h : a.Same a' p) (before : a.Holds p x) {c : Cell α}
    (after : a'.cells[p]? = some c) : a'.lives = a.lives.set p c.live := by
  have inside := before.inside
  apply List.ext_getElem?
  intro q
  rw [Arena.lives, Arena.lives, List.getElem?_map]
  by_cases same : q = p
  · rw [same, after, List.getElem?_set_self (by simpa using inside)]
    rfl
  · rw [h.others q same, List.getElem?_set_ne (Ne.symm same), List.getElem?_map]

/-- A store leaves the blocks that there are. -/
theorem Same.lives_holds (h : a.Same a' p) (before : a.Holds p x) (after : a'.Holds p y) :
    a'.lives = a.lives := by
  rw [h.lives before after]
  have live := lives_iff.mpr ⟨x, before⟩
  apply List.ext_getElem?
  intro q
  by_cases same : q = p
  · rw [same, List.getElem?_set_self (List.getElem?_eq_some_iff.mp live).1, live]
  · rw [List.getElem?_set_ne (Ne.symm same)]

end Arena
