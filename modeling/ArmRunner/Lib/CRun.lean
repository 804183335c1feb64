import Mathlib.Tactic

namespace CRun

/-- How a run of a C program can end early: the program calls `exit(1)`, or it
touches memory outside an object. -/
inductive Stop
  | exit
  | fault
  deriving DecidableEq, Repr

abbrev Run (α : Type) := Except Stop α

@[simp] theorem ok_bind {α β : Type} (a : α) (f : α → Run β) :
    ((.ok a : Run α) >>= f) = f a := rfl

@[simp] theorem error_bind {α β : Type} (e : Stop) (f : α → Run β) :
    ((.error e : Run α) >>= f) = .error e := rfl

@[simp] theorem pure_eq_ok {α : Type} (a : α) : (pure a : Run α) = .ok a := rfl

theorem bind_eq_ok {α β : Type} {x : Run α} {f : α → Run β} {b : β} :
    (x >>= f) = .ok b ↔ ∃ a, x = .ok a ∧ f a = .ok b := by
  cases x with
  | error e => simp
  | ok a => simp

theorem bind_eq_error {α β : Type} {x : Run α} {f : α → Run β} {e : Stop} :
    (x >>= f) = .error e ↔ x = .error e ∨ ∃ a, x = .ok a ∧ f a = .error e := by
  cases x with
  | error e => simp
  | ok a => simp

/-- What comes behind and always returns makes no difference to whether a run returns. -/
theorem bind_returns {α β : Type} {x : Run α} {f : α → Run β} (behind : ∀ a, ∃ b, f a = .ok b) :
    (∃ b, (x >>= f) = .ok b) ↔ ∃ a, x = .ok a := by
  constructor
  · rintro ⟨b, run⟩
    obtain ⟨a, first, _⟩ := bind_eq_ok.mp run
    exact ⟨a, first⟩
  · rintro ⟨a, first⟩
    rw [first]
    exact behind a

/-- Read entry `i` of an array. -/
def fetch {α : Type} (xs : List α) (i : Nat) : Run α :=
  match xs[i]? with
  | some x => .ok x
  | none => .error .fault

/-- Write entry `i` of an array. -/
def assign {α : Type} (xs : List α) (i : Nat) (x : α) : Run (List α) :=
  if i < xs.length then .ok (xs.set i x) else .error .fault

theorem fetch_eq_ok {α : Type} {xs : List α} {i : Nat} {x : α} :
    fetch xs i = .ok x ↔ xs[i]? = some x := by
  unfold fetch
  split <;> simp_all

theorem fetch_of_lt {α : Type} {xs : List α} {i : Nat} (h : i < xs.length) :
    fetch xs i = .ok xs[i] :=
  fetch_eq_ok.mpr (List.getElem?_eq_getElem h)

theorem fetch_returns {α : Type} {xs : List α} {i : Nat} :
    (∃ x, fetch xs i = .ok x) ↔ i < xs.length := by
  constructor
  · rintro ⟨x, found⟩
    exact (List.getElem?_eq_some_iff.mp (fetch_eq_ok.mp found)).1
  · intro inside
    exact ⟨xs[i], fetch_of_lt inside⟩

/-- Read entry `i` of an array, for an index that may be negative. -/
def fetchInt {α : Type} (xs : List α) (i : Int) : Run α :=
  if 0 ≤ i then fetch xs i.toNat else .error .fault

@[simp] theorem fetchInt_natCast {α : Type} (xs : List α) (i : Nat) :
    fetchInt xs (i : Int) = fetch xs i := if_pos (by omega)

theorem assign_of_lt {α : Type} {xs : List α} {i : Nat} (x : α) (h : i < xs.length) :
    assign xs i x = .ok (xs.set i x) := if_pos h

theorem assign_eq_ok {α : Type} {xs ys : List α} {i : Nat} {x : α} :
    assign xs i x = .ok ys ↔ i < xs.length ∧ ys = xs.set i x := by
  unfold assign
  split
  next inside => simp [inside, eq_comm]
  next outside => simp [outside]

/-- `for (k = i; k < i + n; k++)`: the body sees the counter and the loop's state. -/
def forLoop {σ : Type} (body : Nat → σ → Run σ) : Nat → Nat → σ → Run σ
  | _, 0, s => .ok s
  | i, n + 1, s => body i s >>= forLoop body (i + 1) n

section forLoop

variable {σ : Type} {body : Nat → σ → Run σ}

@[simp] theorem forLoop_zero (i : Nat) (s : σ) : forLoop body i 0 s = .ok s := rfl

theorem forLoop_succ (i n : Nat) (s : σ) :
    forLoop body i (n + 1) s = body i s >>= forLoop body (i + 1) n := rfl

/-- Total correctness: a body that returns and keeps `I` gives a loop that returns with `I`. -/
theorem forLoop_total {I : Nat → σ → Prop} {i n : Nat} {s : σ} (start : I i s)
    (step : ∀ k t, i ≤ k → k < i + n → I k t → ∃ t', body k t = .ok t' ∧ I (k + 1) t') :
    ∃ s', forLoop body i n s = .ok s' ∧ I (i + n) s' := by
  induction n generalizing i s with
  | zero => exact ⟨s, rfl, start⟩
  | succ n ih =>
    obtain ⟨t, ht, hI⟩ := step i s (Nat.le_refl i) (by omega) start
    obtain ⟨s', hs, hI'⟩ := ih hI (fun k u hk hn => step k u (by omega) (by omega))
    refine ⟨s', ?_, by simpa [Nat.add_assoc, Nat.add_comm 1 n] using hI'⟩
    rw [forLoop_succ, ht, ok_bind, hs]

theorem forLoop_returns {i n : Nat} (step : ∀ k t, i ≤ k → k < i + n → ∃ t', body k t = .ok t')
    (s : σ) : ∃ s', forLoop body i n s = .ok s' := by
  have total : ∃ s', forLoop body i n s = .ok s' ∧ True := by
    apply forLoop_total (I := fun _ _ => True) trivial
    intro k t hk hn _
    obtain ⟨t', turn⟩ := step k t hk hn
    exact ⟨t', turn, trivial⟩
  obtain ⟨s', run, _⟩ := total
  exact ⟨s', run⟩

/-- Partial correctness: the invariant holds of the state a returning loop ends in. -/
theorem forLoop_partial {I : Nat → σ → Prop} {i n : Nat} {s s' : σ}
    (h : forLoop body i n s = .ok s') (start : I i s)
    (step : ∀ k t t', i ≤ k → k < i + n → I k t → body k t = .ok t' → I (k + 1) t') :
    I (i + n) s' := by
  induction n generalizing i s with
  | zero => cases h; exact start
  | succ n ih =>
    obtain ⟨t, ht, h⟩ := bind_eq_ok.mp (forLoop_succ i n s ▸ h)
    have hI := step i s t (Nat.le_refl i) (by omega) start ht
    have := ih h hI (fun k u u' hk hn => step k u u' (by omega) (by omega))
    simpa [Nat.add_assoc, Nat.add_comm 1 n] using this

/-- A loop that returns does so with any other body that returns what its body does. -/
theorem forLoop_mono {other : Nat → σ → Run σ} {i n : Nat} {s s' : σ}
    (step : ∀ k t t', body k t = .ok t' → other k t = .ok t')
    (h : forLoop body i n s = .ok s') : forLoop other i n s = .ok s' := by
  induction n generalizing i s with
  | zero => exact h
  | succ n ih =>
    obtain ⟨t, ht, h⟩ := bind_eq_ok.mp (forLoop_succ i n s ▸ h)
    rw [forLoop_succ, step i s t ht, ok_bind, ih h]

/-- Two loops that both return keep what each turn of both keeps. -/
theorem forLoop_related {τ : Type} {other : Nat → τ → Run τ} {R : σ → τ → Prop} {i n : Nat}
    {s s' : σ} {t t' : τ} (start : R s t)
    (step : ∀ k u u' v v', R u v → body k u = .ok u' → other k v = .ok v' → R u' v')
    (h : forLoop body i n s = .ok s') (h' : forLoop other i n t = .ok t') : R s' t' := by
  induction n generalizing i s t with
  | zero =>
    cases h
    cases h'
    exact start
  | succ n ih =>
    obtain ⟨u, hu, h⟩ := bind_eq_ok.mp (forLoop_succ i n s ▸ h)
    obtain ⟨v, hv, h'⟩ := bind_eq_ok.mp (forLoop_succ i n t ▸ h')
    exact ih (step i s u t v start hu hv) h h'

/-- A loop whose turn `k` does the step for entry `k` of an array is a fold over the array. -/
theorem forLoop_foldlM {α : Type} {step : α → σ → Run σ} {I : σ → Prop} {xs : List α} {i : Nat}
    {s : σ} (start : I s)
    (turn : ∀ k x t, xs[k]? = some x → I t → body (i + k) t = step x t)
    (keep : ∀ x t t', I t → step x t = .ok t' → I t') :
    forLoop body i xs.length s = xs.foldlM (fun t x => step x t) s := by
  induction xs generalizing i s with
  | nil => rfl
  | cons x xs ih =>
    rw [List.length_cons, forLoop_succ, List.foldlM_cons, ← turn 0 x s rfl start, Nat.add_zero]
    cases hx : body i s with
    | error e => rfl
    | ok t =>
      have head := turn 0 x s rfl start
      rw [Nat.add_zero, hx] at head
      refine ih (keep x s t start head.symm) ?_
      intro k y u hy hu
      have := turn (k + 1) y u (by simpa using hy) hu
      rwa [show i + 1 + k = i + (k + 1) by omega]

theorem forLoop_entries {α : Type} {step : α → σ → Run σ} {xs : List α} {i : Nat}
    (turn : ∀ k x t, xs[k]? = some x → body (i + k) t = step x t) (s : σ) :
    forLoop body i xs.length s = xs.foldlM (fun t x => step x t) s := by
  apply forLoop_foldlM (I := fun _ => True) trivial
  · intro k x t hx _
    exact turn k x t hx
  · intros
    trivial

/-- A loop returns from any state when each of its turns does, whatever the state. -/
theorem forLoop_returns_iff {P : Nat → Prop} (turn : ∀ k s, (∃ s', body k s = .ok s') ↔ P k)
    (i n : Nat) (s : σ) :
    (∃ s', forLoop body i n s = .ok s') ↔ ∀ k, i ≤ k → k < i + n → P k := by
  induction n generalizing i s with
  | zero =>
    refine iff_of_true ⟨s, rfl⟩ ?_
    omega
  | succ n ih =>
    rw [forLoop_succ]
    constructor
    · rintro ⟨s', run⟩ k low high
      obtain ⟨t, first, rest⟩ := bind_eq_ok.mp run
      by_cases here : k = i
      · rw [here]
        exact (turn i s).mp ⟨t, first⟩
      · exact (ih (i + 1) t).mp ⟨s', rest⟩ k (by omega) (by omega)
    · intro each
      obtain ⟨t, ht⟩ := (turn i s).mpr (each i (Nat.le_refl i) (by omega))
      rw [ht, ok_bind]
      exact (ih (i + 1) t).mpr fun k low high => each k (by omega) (by omega)

theorem foldlM_flatten {α : Type} (step : σ → α → Run σ) (xss : List (List α)) (s : σ) :
    xss.flatten.foldlM step s = xss.foldlM (fun t xs => xs.foldlM step t) s := by
  induction xss generalizing s with
  | nil => rfl
  | cons xs xss ih =>
    rw [List.flatten_cons, List.foldlM_append, List.foldlM_cons]
    exact congrArg (xs.foldlM step s >>= ·) (funext ih)

/-- A fold returns from any state when its step does exactly for the entries with `P`, whatever
the state. -/
theorem foldlM_returns_iff {α : Type} {step : σ → α → Run σ} {P : α → Prop}
    (turn : ∀ x s, (∃ s', step s x = .ok s') ↔ P x) (xs : List α) (s : σ) :
    (∃ s', xs.foldlM step s = .ok s') ↔ ∀ x ∈ xs, P x := by
  induction xs generalizing s with
  | nil => simp
  | cons x xs ih =>
    rw [List.foldlM_cons, List.forall_mem_cons]
    constructor
    · rintro ⟨s', run⟩
      obtain ⟨t, first, rest⟩ := bind_eq_ok.mp run
      exact ⟨(turn x s).mp ⟨t, first⟩, (ih t).mp ⟨s', rest⟩⟩
    · rintro ⟨first, rest⟩
      obtain ⟨t, ht⟩ := (turn x s).mpr first
      rw [ht, ok_bind]
      exact (ih t).mpr rest

end forLoop

/-- `while (guard) body`, with `fuel` tests of the guard: `none` when they are used up. -/
def whileLoop {σ : Type} (guard : σ → Bool) (body : σ → Option σ) : Nat → σ → Option σ
  | 0, _ => none
  | fuel + 1, s => if guard s then body s >>= whileLoop guard body fuel else some s

/-- A loop whose body keeps `I` and lowers a variant ends by its own test, with `I`. -/
theorem whileLoop_total {σ : Type} {guard : σ → Bool} {body : σ → Option σ} {fuel : Nat} {s : σ}
    (I : σ → Prop) (variant : σ → Nat) (start : I s) (enough : variant s < fuel)
    (step : ∀ t, I t → guard t = true → ∃ t', body t = some t' ∧ I t' ∧ variant t' < variant t) :
    ∃ s', whileLoop guard body fuel s = some s' ∧ I s' ∧ guard s' = false := by
  induction fuel generalizing s with
  | zero => omega
  | succ fuel ih =>
    unfold whileLoop
    by_cases hg : guard s = true
    · obtain ⟨t, ht, hI, lower⟩ := step s start hg
      obtain ⟨s', hs', kept⟩ := ih hI (by omega)
      refine ⟨s', ?_, kept⟩
      rw [if_pos hg, ht]
      exact hs'
    · exact ⟨s, if_neg hg, start, by simpa using hg⟩

/-- A loop that follows another turn by turn ends as that one does. -/
theorem whileLoop_simulates {σ τ : Type} {guard : σ → Bool} {guard' : τ → Bool}
    {body : σ → Option σ} {body' : τ → Option τ} (R : σ → τ → Prop)
    (guards : ∀ s t, R s t → guard s = guard' t)
    (step : ∀ s t t', R s t → body' t = some t' → ∃ s', body s = some s' ∧ R s' t') {fuel : Nat}
    {s : σ} {t t' : τ} (start : R s t) (run : whileLoop guard' body' fuel t = some t') :
    ∃ s', whileLoop guard body fuel s = some s' ∧ R s' t' := by
  induction fuel generalizing s t with
  | zero => cases run
  | succ fuel ih =>
    unfold whileLoop at run ⊢
    rw [guards s t start]
    split_ifs at run ⊢ with goes
    · obtain ⟨t1, turn, run⟩ := Option.bind_eq_some_iff.mp run
      obtain ⟨s1, turn', start'⟩ := step s t t1 start turn
      obtain ⟨s', run', related⟩ := ih start' run
      refine ⟨s', ?_, related⟩
      rw [turn']
      exact run'
    · cases run
      exact ⟨s, rfl, start⟩

/-- A loop whose pass `k` produces entry `k` of an array while it moves a state on. -/
def collect {α σ : Type} (read : Nat → σ → Run (α × σ)) : Nat → Nat → σ → Run (List α × σ)
  | _, 0, s => .ok ([], s)
  | i, n + 1, s => do
    let (x, s) ← read i s
    let (xs, s) ← collect read (i + 1) n s
    .ok (x :: xs, s)

section collect

variable {α σ : Type} {read : Nat → σ → Run (α × σ)}

theorem collect_succ_eq_ok {i n : Nat} {s s' : σ} {xs : List α} :
    collect read i (n + 1) s = .ok (xs, s') ↔
      ∃ x t ys, read i s = .ok (x, t) ∧ collect read (i + 1) n t = .ok (ys, s') ∧ xs = x :: ys := by
  constructor
  · intro h
    obtain ⟨⟨x, t⟩, hx, h⟩ := bind_eq_ok.mp h
    obtain ⟨⟨ys, u⟩, hy, h⟩ := bind_eq_ok.mp h
    cases h
    exact ⟨x, t, ys, hx, hy, rfl⟩
  · rintro ⟨x, t, ys, hx, hy, rfl⟩
    simp [collect, hx, hy]

/-- A run whose successive states are known returns the values read on the way. -/
theorem collect_of_states (st : Nat → σ) (val : Nat → α) {i n : Nat}
    (h : ∀ k, i ≤ k → k < i + n → read k (st k) = .ok (val k, st (k + 1))) :
    collect read i n (st i) = .ok ((List.range' i n).map val, st (i + n)) := by
  induction n generalizing i with
  | zero => rfl
  | succ n ih =>
    have rest := ih (i := i + 1) (fun k hk hn => h k (by omega) (by omega))
    rw [show i + (n + 1) = i + 1 + n by omega]
    apply collect_succ_eq_ok.mpr
    exact ⟨val i, st (i + 1), _, h i (Nat.le_refl i) (by omega), rest, by simp [List.range'_succ]⟩

theorem collect_total {I : σ → Prop} {i n : Nat} {s : σ} (start : I s)
    (step : ∀ k t, i ≤ k → k < i + n → I t → ∃ x t', read k t = .ok (x, t') ∧ I t') :
    ∃ xs s', collect read i n s = .ok (xs, s') ∧ I s' := by
  induction n generalizing i s with
  | zero => exact ⟨[], s, rfl, start⟩
  | succ n ih =>
    obtain ⟨x, t, hx, hI⟩ := step i s (Nat.le_refl i) (by omega) start
    obtain ⟨xs, s', hxs, hI'⟩ := ih (i := i + 1) hI
      (fun k u hk hn => step k u (by omega) (by omega))
    exact ⟨x :: xs, s', collect_succ_eq_ok.mpr ⟨x, t, xs, hx, hxs, rfl⟩, hI'⟩

theorem collect_length {i n : Nat} {s s' : σ} {xs : List α}
    (h : collect read i n s = .ok (xs, s')) : xs.length = n := by
  induction n generalizing i s xs with
  | zero => cases h; rfl
  | succ n ih =>
    obtain ⟨x, t, ys, _, hy, rfl⟩ := collect_succ_eq_ok.mp h
    simp [ih hy]

/-- Every entry a returning run produced came from a pass that started in a state with `I`. -/
theorem collect_invariant {I : σ → Prop} {P : Nat → α → Prop} {i n : Nat} {s s' : σ} {xs : List α}
    (h : collect read i n s = .ok (xs, s')) (start : I s)
    (step : ∀ k t x t', i ≤ k → k < i + n → I t → read k t = .ok (x, t') → I t' ∧ P k x) :
    I s' ∧ ∀ k x, xs[k]? = some x → P (i + k) x := by
  induction n generalizing i s xs with
  | zero => cases h; exact ⟨start, by simp⟩
  | succ n ih =>
    obtain ⟨y, t, ys, hy, hys, rfl⟩ := collect_succ_eq_ok.mp h
    obtain ⟨hI, hP⟩ := step i s y t (Nat.le_refl i) (by omega) start hy
    obtain ⟨hI', hPs⟩ := ih hys hI (fun k u x u' hk hn => step k u x u' (by omega) (by omega))
    refine ⟨hI', ?_⟩
    intro k x hx
    cases k with
    | zero =>
      cases Option.some.inj hx
      exact hP
    | succ k =>
      have := hPs k x (by simpa using hx)
      simpa [Nat.add_assoc, Nat.add_comm 1 k] using this

theorem collect_not_error {e : Stop} {i n : Nat} {s : σ}
    (step : ∀ k t, i ≤ k → k < i + n → read k t ≠ .error e) : collect read i n s ≠ .error e := by
  induction n generalizing i s with
  | zero => simp [collect]
  | succ n ih =>
    intro stops
    rcases bind_eq_error.mp stops with first | ⟨⟨x, t⟩, _, rest⟩
    · exact step i s (Nat.le_refl i) (by omega) first
    · rcases bind_eq_error.mp rest with later | ⟨⟨xs, u⟩, _, done⟩
      · exact ih (fun k u hk hn => step k u (by omega) (by omega)) later
      · cases done

end collect

end CRun
