import ArmRunner.Lib.CRun

namespace CRun

variable {α : Type}

/-- `for (k = 0; k < n; k++) xs[k] = f(xs[k])`. -/
def updateAll (f : α → α) (n : Nat) (xs : List α) : Run (List α) :=
  forLoop (fun k ys => do
    let y ← fetch ys k
    assign ys k (f y)) 0 n xs

/-- `for (j = i + 1; j < n; j++) xs[j - 1] = f(xs[j])`: entry `i` is overwritten and entry
`n - 1` keeps its old value. -/
def shiftDown (f : α → Run α) (i n : Nat) (xs : List α) : Run (List α) :=
  forLoop (fun j ys => do
    let y ← fetch ys j
    let z ← f y
    assign ys (j - 1) z) (i + 1) (n - (i + 1)) xs

/-- `for (j = i + k; j > i; j--) xs[j] = xs[j - 1]`: entry `i` keeps its old value. -/
def shiftUp (i : Nat) : Nat → List α → Run (List α)
  | 0, xs => .ok xs
  | k + 1, xs => do
    let x ← fetch xs (i + k)
    let xs ← assign xs (i + k + 1) x
    shiftUp i k xs

/-- `for (k = 0; k < n; k++) xs[k] = xs[source + k]`. -/
def copyDown (source n : Nat) (xs : List α) : Run (List α) :=
  forLoop (fun k ys => do
    let y ← fetch ys (source + k)
    assign ys k y) 0 n xs

/-- The entries from `i` on are overwritten by those of `ys`. -/
def assignAll (xs : List α) (i : Nat) (ys : List α) : Run (List α) :=
  if i + ys.length ≤ xs.length then .ok (xs.take i ++ ys ++ xs.drop (i + ys.length))
  else .error .fault

theorem fetch_append_cons (done rest : List α) (x : α) :
    fetch (done ++ x :: rest) done.length = .ok x :=
  fetch_eq_ok.mpr (by simp)

theorem assign_append_cons (done rest : List α) (x y : α) :
    assign (done ++ x :: rest) done.length y = .ok (done ++ y :: rest) := by
  rw [assign_of_lt y (by simp)]
  simp

/-- A store that keeps what `g` sees of an entry keeps what it sees of the array. -/
theorem map_set_of_same {β : Type} {g : α → β} {xs : List α} {k : Nat} {x y : α}
    (hx : xs[k]? = some x) (same : g y = g x) : (xs.set k y).map g = xs.map g := by
  obtain ⟨inside, rfl⟩ := List.getElem?_eq_some_iff.mp hx
  have inside' : k < (xs.map g).length := by rwa [List.length_map]
  have here : g xs[k] = (xs.map g)[k] := (List.getElem_map g).symm
  rw [List.map_set, same, here, List.set_getElem_self inside']

theorem updateAll_from (f : α → α) (done todo tail : List α) :
    forLoop (fun k ys => do
      let y ← fetch ys k
      assign ys k (f y)) done.length todo.length (done ++ (todo ++ tail)) =
      .ok (done ++ (todo.map f ++ tail)) := by
  induction todo generalizing done with
  | nil => rfl
  | cons x rest ih =>
    rw [List.length_cons, forLoop_succ, List.cons_append, fetch_append_cons, ok_bind,
      assign_append_cons, ok_bind]
    have h := ih (done ++ [f x])
    simpa using h

theorem updateAll_append (f : α → α) (xs tail : List α) :
    updateAll f xs.length (xs ++ tail) = .ok (xs.map f ++ tail) := by
  simpa [updateAll] using updateAll_from f [] xs tail

theorem updateAll_length (f : α → α) (xs : List α) :
    updateAll f xs.length xs = .ok (xs.map f) := by
  simpa using updateAll_append f xs []

/-- The slot just written is the one before the read; it still holds `x` when the pass starts. -/
theorem shiftDown_from {f : α → Run α} {g : α → α} (done : List α) {todo : List α} (tail : List α)
    (x : α) (hf : ∀ y ∈ todo, f y = .ok (g y)) :
    forLoop (fun j ys => do
      let y ← fetch ys j
      let z ← f y
      assign ys (j - 1) z) (done.length + 1) todo.length (done ++ x :: (todo ++ tail)) =
      .ok (done ++ (todo.map g ++ (x :: todo).getLast (by simp) :: tail)) := by
  induction todo generalizing done x with
  | nil => rfl
  | cons y rest ih =>
    have read : fetch (done ++ x :: (y :: rest ++ tail)) (done.length + 1) = .ok y :=
      fetch_eq_ok.mpr (by simp)
    rw [List.length_cons, forLoop_succ, read, ok_bind, hf y (by simp), ok_bind,
      Nat.add_sub_cancel, assign_append_cons, ok_bind]
    have h := ih (done ++ [g y]) y (fun z hz => hf z (by simp [hz]))
    simpa using h

theorem shiftDown_append {f : α → Run α} {g : α → α} (done : List α) {todo : List α}
    (tail : List α) (x : α) (hf : ∀ y ∈ todo, f y = .ok (g y)) :
    shiftDown f done.length (done ++ x :: todo).length (done ++ x :: todo ++ tail) =
      .ok (done ++ (todo.map g ++ (x :: todo).getLast (by simp) :: tail)) := by
  have count : (done ++ x :: todo).length - (done.length + 1) = todo.length := by simp; omega
  rw [shiftDown, count, List.append_assoc]
  exact shiftDown_from done tail x hf

/-- A shift that returns has applied `f` to every entry it moved. -/
theorem shiftDown_moved {f : α → Run α} (done : List α) {todo tail : List α} {x : α}
    {ys : List α} (h : shiftDown f done.length (done ++ x :: todo).length
      (done ++ x :: todo ++ tail) = .ok ys) : ∀ y ∈ todo, ∃ z, f y = .ok z := by
  have count : (done ++ x :: todo).length - (done.length + 1) = todo.length := by simp; omega
  rw [shiftDown, count, List.append_assoc] at h
  clear count
  induction todo generalizing done x with
  | nil => simp
  | cons y rest ih =>
    have read : fetch (done ++ x :: (y :: rest ++ tail)) (done.length + 1) = .ok y :=
      fetch_eq_ok.mpr (by simp)
    simp only [List.length_cons, forLoop_succ, List.cons_append] at h read
    rw [read, ok_bind] at h
    obtain ⟨zs, hturn, h⟩ := bind_eq_ok.mp h
    obtain ⟨z, hz, hzs⟩ := bind_eq_ok.mp hturn
    rw [Nat.add_sub_cancel, assign_append_cons] at hzs
    cases hzs
    intro w hw
    rcases List.mem_cons.mp hw with rfl | hw
    · exact ⟨z, hz⟩
    · exact ih (done ++ [z]) (by simpa using h) w hw

/-- The entry behind the last one that is moved is overwritten. -/
theorem shiftUp_append (done todo tail : List α) (x y : α) :
    shiftUp done.length (todo.length + 1) (done ++ x :: todo ++ y :: tail) =
      .ok (done ++ x :: x :: todo ++ tail) := by
  induction todo using List.reverseRecOn generalizing y tail with
  | nil =>
    have read : fetch (done ++ x :: ([] ++ y :: tail)) done.length = .ok x :=
      fetch_append_cons _ _ _
    have stored := assign_append_cons (done ++ [x]) tail y x
    simp only [List.append_assoc, List.singleton_append, List.length_append,
      List.length_singleton] at stored
    simp only [List.length_nil, List.append_assoc, List.cons_append, shiftUp,
      Nat.add_zero] at read ⊢
    rw [read, ok_bind, List.nil_append, stored, ok_bind, List.nil_append]
  | append_singleton todo z ih =>
    have shape : done ++ x :: (todo ++ [z]) ++ y :: tail =
        (done ++ x :: todo) ++ z :: y :: tail := by simp
    have at_z : (done ++ x :: todo).length = done.length + (todo.length + 1) := by simp
    have read := fetch_append_cons (done ++ x :: todo) (y :: tail) z
    have stored := assign_append_cons (done ++ x :: todo ++ [z]) tail y z
    rw [List.append_assoc, List.singleton_append, List.length_append, List.length_singleton, at_z,
      List.append_assoc _ [z], List.singleton_append] at stored
    rw [at_z] at read
    rw [List.length_append, List.length_singleton, shape, shiftUp, read, ok_bind, stored, ok_bind,
      ih (z :: tail) z]
    simp

/-- A shift that begins at the end of the array stores behind it. -/
theorem shiftUp_full (i k : Nat) {xs : List α} (full : xs.length = i + k + 1) :
    shiftUp i (k + 1) xs = .error .fault := by
  have outside : ∀ x, assign xs (i + k + 1) x = .error .fault := fun x => if_neg (by omega)
  rw [shiftUp, fetch_of_lt (by omega), ok_bind, outside, error_bind]

/-- A copy to the front of the array reads no entry that it has overwritten. -/
theorem copyDown_append (dead text rest : List α) :
    copyDown dead.length text.length (dead ++ text ++ rest) =
      .ok (text ++ (dead ++ text ++ rest).drop text.length) := by
  set xs := dead ++ text ++ rest with hxs
  have long : text.length ≤ xs.length := by simp [hxs]; omega
  have total : ∃ ys, copyDown dead.length text.length xs = .ok ys ∧
      ys = text.take (0 + text.length) ++ xs.drop (0 + text.length) := by
    apply forLoop_total (I := fun k ys => ys = text.take k ++ xs.drop k)
    · simp
    · rintro k ys _ hk rfl
      have inside : k < text.length := by omega
      have front : (text.take k).length = k := by simp; omega
      have read : (text.take k ++ xs.drop k)[dead.length + k]? = some text[k] := by
        rw [List.getElem?_append_right (by omega), front, List.getElem?_drop]
        have there : k + (dead.length + k - k) = dead.length + k := by omega
        rw [there, hxs, List.append_assoc, List.getElem?_append_right (by omega),
          List.getElem?_append_left (by omega), Nat.add_sub_cancel_left,
          List.getElem?_eq_getElem inside]
      refine ⟨_, by rw [fetch_eq_ok.mpr read, ok_bind, assign_of_lt _ (by simp; omega)], ?_⟩
      rw [List.set_append_right _ _ (by omega), front, Nat.sub_self,
        List.drop_eq_getElem_cons (by omega), List.set_cons_zero,
        List.take_succ_eq_append_getElem inside, List.append_assoc]
      rfl
  obtain ⟨ys, run, same⟩ := total
  rw [run, same, Nat.zero_add, List.take_length]

theorem assignAll_append (done old tail : List α) {ys : List α} (same : old.length = ys.length) :
    assignAll (done ++ (old ++ tail)) done.length ys = .ok (done ++ (ys ++ tail)) := by
  have fits : done.length + ys.length ≤ (done ++ (old ++ tail)).length := by simp; omega
  rw [assignAll, if_pos fits, List.take_left, List.drop_append, ← same]
  simp

end CRun
