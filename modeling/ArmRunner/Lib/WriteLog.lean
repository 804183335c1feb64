import ArmRunner.Lib.CRun

namespace WriteLog

open CRun

/-- A memory whose cells are read and overwritten one at a time. A write to a cell that is not
there does not return, and the shape of the memory never changes. -/
structure Memory (μ ι β σ : Type) [DecidableEq ι] where
  read : μ → ι → Option β
  write : μ → ι → β → Run μ
  shape : μ → σ
  write_mapped : ∀ {m : μ} {p : ι} (b : β), (read m p).isSome → ∃ m', write m p b = .ok m'
  write_isSome : ∀ {m m' : μ} {p : ι} {b : β}, write m p b = .ok m' → (read m p).isSome
  read_write : ∀ {m m' : μ} {p : ι} {b : β}, write m p b = .ok m' →
    ∀ q, read m' q = if q = p then some b else read m q
  shape_write : ∀ {m m' : μ} {p : ι} {b : β}, write m p b = .ok m' → shape m' = shape m
  ext : ∀ {m m' : μ}, shape m = shape m' → (∀ p, read m p = read m' p) → m = m'

variable {μ ι β σ : Type} [DecidableEq ι] {M : Memory μ ι β σ} {m m' : μ}
  {log log' : List (ι × β)} {p : ι} {b : β}

/-- Carry out the writes of a log in order. -/
def replay (M : Memory μ ι β σ) : List (ι × β) → μ → Run μ
  | [], m => .ok m
  | s :: log, m => M.write m s.1 s.2 >>= replay M log

/-- The last value that a log writes to a cell. -/
def lastWrite : List (ι × β) → ι → Option β
  | [], _ => none
  | s :: log, p => (lastWrite log p).or (if p = s.1 then some s.2 else none)

theorem replay_append : replay M (log ++ log') m = replay M log m >>= replay M log' := by
  induction log generalizing m with
  | nil => rfl
  | cons s log ih =>
    rw [List.cons_append, replay, replay]
    cases M.write m s.1 s.2 with
    | error e => rfl
    | ok m1 => exact ih

theorem replay_shape (h : replay M log m = .ok m') : M.shape m' = M.shape m := by
  induction log generalizing m with
  | nil => cases h; rfl
  | cons s log ih =>
    obtain ⟨m1, hw, h⟩ := bind_eq_ok.mp h
    rw [ih h, M.shape_write hw]

theorem read_replay (h : replay M log m = .ok m') (p : ι) :
    M.read m' p = (lastWrite log p).or (M.read m p) := by
  induction log generalizing m with
  | nil => cases h; rfl
  | cons s log ih =>
    obtain ⟨m1, hw, h⟩ := bind_eq_ok.mp h
    rw [ih h, M.read_write hw, lastWrite]
    cases lastWrite log p with
    | some b => rfl
    | none => by_cases hp : p = s.1 <;> simp [hp]

theorem read_written (h : replay M log m = .ok m') (last : lastWrite log p = some b) :
    M.read m' p = some b := by
  rw [read_replay h, last, Option.some_or]

theorem read_untouched (h : replay M log m = .ok m') (last : lastWrite log p = none) :
    M.read m' p = M.read m p := by
  rw [read_replay h, last, Option.none_or]

theorem lastWrite_isSome_iff : (lastWrite log p).isSome ↔ ∃ s ∈ log, s.1 = p := by
  induction log with
  | nil => simp [lastWrite]
  | cons s log ih =>
    rw [lastWrite, Option.isSome_or, Bool.or_eq_true, ih]
    by_cases hp : p = s.1
    · simp [hp]
    · simp [hp, Ne.symm hp]

theorem lastWrite_eq_none_iff : lastWrite log p = none ↔ ∀ s ∈ log, s.1 ≠ p := by
  rw [← Option.not_isSome_iff_eq_none, lastWrite_isSome_iff]
  push Not
  rfl

theorem mem_of_lastWrite (h : lastWrite log p = some b) : (p, b) ∈ log := by
  induction log with
  | nil => cases h
  | cons s log ih =>
    rw [lastWrite, Option.or_eq_some_iff] at h
    rcases h with later | ⟨_, here⟩
    · exact List.mem_cons_of_mem s (ih later)
    · split at here
      next hp =>
        cases here
        rw [hp]
        exact List.mem_cons_self
      next => cases here

/-- In a log that writes to every cell at most once each write is the last one. -/
theorem lastWrite_of_mem (apart : log.Pairwise fun s t => s.1 ≠ t.1) (h : (p, b) ∈ log) :
    lastWrite log p = some b := by
  induction log with
  | nil => cases h
  | cons s log ih =>
    obtain ⟨head, rest⟩ := List.pairwise_cons.mp apart
    rw [lastWrite]
    rcases List.mem_cons.mp h with rfl | later
    · rw [lastWrite_eq_none_iff.mpr fun t ht => (head t ht).symm, Option.none_or, if_pos rfl]
    · rw [ih rest later, Option.some_or]

/-- A write keeps every cell there. -/
theorem isSome_write (h : M.write m p b = .ok m') (q : ι) :
    (M.read m' q).isSome = (M.read m q).isSome := by
  have there := M.write_isSome h
  rw [M.read_write h]
  by_cases hq : q = p
  · rw [hq, if_pos rfl, there]
    rfl
  · rw [if_neg hq]

theorem isSome_replay (h : replay M log m = .ok m') (q : ι) :
    (M.read m' q).isSome = (M.read m q).isSome := by
  induction log generalizing m with
  | nil => cases h; rfl
  | cons s log ih =>
    obtain ⟨m1, hw, h⟩ := bind_eq_ok.mp h
    rw [ih h, isSome_write hw]

/-- A log can be replayed exactly when all its cells are there. -/
theorem replay_returns_iff :
    (∃ m', replay M log m = .ok m') ↔ ∀ s ∈ log, (M.read m s.1).isSome := by
  induction log generalizing m with
  | nil => simp [replay]
  | cons s log ih =>
    constructor
    · rintro ⟨m', h⟩ t ht
      obtain ⟨m1, hw, h⟩ := bind_eq_ok.mp h
      rcases List.mem_cons.mp ht with rfl | ht
      · exact M.write_isSome hw
      · rw [← isSome_write hw]
        exact ih.mp ⟨m', h⟩ t ht
    · intro h
      obtain ⟨m1, hw⟩ := M.write_mapped s.2 (h s List.mem_cons_self)
      have rest : ∀ t ∈ log, (M.read m1 t.1).isSome := by
        intro t ht
        rw [isSome_write hw]
        exact h t (List.mem_cons_of_mem _ ht)
      obtain ⟨m', hr⟩ := ih.mpr rest
      exact ⟨m', by rw [replay, hw, ok_bind, hr]⟩

/-- A log that writes every cell an earlier one wrote leaves no trace of the earlier one. -/
theorem replay_covered {m1 m2 : μ} (h : replay M log m = .ok m1)
    (covered : ∀ s ∈ log, ∃ t ∈ log', t.1 = s.1) (h' : replay M log' m = .ok m2) :
    replay M log' m1 = .ok m2 := by
  have there : ∀ s ∈ log', (M.read m1 s.1).isSome := by
    intro s hs
    rw [isSome_replay h]
    exact replay_returns_iff.mp ⟨m2, h'⟩ s hs
  obtain ⟨m3, h3⟩ := replay_returns_iff.mpr there
  have same : m3 = m2 := by
    apply M.ext
    · rw [replay_shape h3, replay_shape h, replay_shape h']
    · intro p
      cases hl : lastWrite log' p with
      | some b => rw [read_written h3 hl, read_written h' hl]
      | none =>
        have untouched : lastWrite log p = none := by
          apply lastWrite_eq_none_iff.mpr
          intro s hs hp
          obtain ⟨t, ht, he⟩ := covered s hs
          exact lastWrite_eq_none_iff.mp hl t ht (he.trans hp)
        rw [read_untouched h3 hl, read_untouched h' hl, read_untouched h untouched]
  rw [h3, same]

end WriteLog
