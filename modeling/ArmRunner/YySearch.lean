import ArmRunner.YyRefill

namespace ArmRunner

open CRun Slice

/-- The states in which the scanner wants more of the text: none of them but the one behind a NUL
ends it. -/
def yySearching : List Nat := [1, 4, 6, 9, 10, 11]

/-- The states whose text is only the beginning of a packet. -/
def yyBackingUp : List Nat := [9, 10, 11]

section tables

variable {c : UInt8} {state next : Nat}

theorem yyClass_of_ne (hc : c ≠ 0) : yyEc.getD c.toNat 0 = yyClass c := by
  rw [yyClass, if_pos hc]

/-- A byte of the text leads on, to the end of the text, or to a jam. -/
theorem yyTransition_searching (h : state ∈ yySearching) (c : UInt8) :
    ∃ next, yyTransition state (yyClass c) = some next ∧
      ((state = 1 ∧ next = 6 ∨ state ≠ 1 ∧ state ≠ 4 ∧ next ∈ yyBackingUp) ∨
        next ∈ [4, 5, 7, 8, 12] ∨ next = 13 ∧ state ≠ 1) := by
  have all : ∀ state ∈ yySearching, ∀ k ∈ [1, 2, 3, 4, 5, 6, 7],
      ∃ next ∈ [4, 5, 6, 7, 8, 9, 10, 11, 12, 13], yyTransition state k = some next ∧
        ((state = 1 ∧ next = 6 ∨ state ≠ 1 ∧ state ≠ 4 ∧ next ∈ yyBackingUp) ∨
          next ∈ [4, 5, 7, 8, 12] ∨ next = 13 ∧ state ≠ 1) := by
    decide
  obtain ⟨next, -, found⟩ := all state h _ (yyClass_mem c)
  exact ⟨next, found⟩

/-- A NUL that the scanner takes for a byte of the text ends it only behind nothing. -/
theorem yyTransition_nul (h : state ∈ yySearching) :
    ∃ next, yyTransition state 1 = some next ∧ next ≠ 0 ∧
      (state ≠ 1 ∧ state ≠ 4 ∧ next ∈ yyBackingUp ∨ state = 1 ∧ next = 4 ∨
        next = 13 ∧ state ≠ 1) := by
  have all : ∀ state ∈ yySearching, ∃ next ∈ [4, 9, 10, 11, 13], yyTransition state 1 = some next ∧
      next ≠ 0 ∧ (state ≠ 1 ∧ state ≠ 4 ∧ next ∈ yyBackingUp ∨ state = 1 ∧ next = 4 ∨
        next = 13 ∧ state ≠ 1) := by
    decide
  obtain ⟨next, -, found⟩ := all state h
  exact ⟨next, found⟩

/-- The mark leads to the state that ends the buffer, and that one jams. -/
theorem yyTransition_mark (h : state ∈ yySearching) : yyTransition state 0 = some 3 := by
  have all : ∀ state ∈ yySearching, yyTransition state 0 = some 3 := by decide
  exact all state h

theorem yyTransition_marked (c : UInt8) : yyTransition 3 (yyEc.getD c.toNat 0) = some 13 := by
  have all : ∀ k ∈ [0, 1, 2, 3, 4, 5, 6, 7], yyTransition 3 k = some 13 := by decide
  apply all
  by_cases zero : c = 0
  · subst zero
    decide
  · rw [yyClass_of_ne zero]
    exact List.mem_cons_of_mem _ (yyClass_mem c)

theorem yyBackingUp_searching (h : state ∈ yyBackingUp) : state ∈ yySearching := by
  have all : ∀ state ∈ yyBackingUp, state ∈ yySearching := by decide
  exact all state h

/-- No `$` goes on in a packet. -/
theorem yyBackingUp_dollar (h : state ∈ yySearching)
    (step : yyTransition state (yyClass 0x24) = some next) : next ∉ yyBackingUp := by
  have all : ∀ state ∈ yySearching, ∃ next ∈ [6, 13], yyTransition state (yyClass 0x24) = some next ∧
      next ∉ yyBackingUp := by
    decide
  obtain ⟨next', -, step', other⟩ := all state h
  rwa [Option.some.inj (step.symm.trans step')]

theorem yyBackingUp_base (h : state ∈ yyBackingUp) : yyBase.getD state 0 ≠ 14 := by
  have all : ∀ state ∈ yyBackingUp, yyBase.getD state 0 ≠ 14 := by decide
  exact all state h

theorem yyBackingUp_accept (h : state ∈ yyBackingUp) : yyAccept.getD state 0 = 0 := by
  have all : ∀ state ∈ yyBackingUp, yyAccept.getD state 0 = 0 := by decide
  exact all state h

/-- Where the text is a token as it stands, that is one byte. -/
theorem yySearching_accept (h : state ∈ yySearching) (first : state ≠ 1) :
    yyAccept.getD state 0 = 4 ∨ state ∈ yyBackingUp := by
  have all : ∀ state ∈ yySearching, state ≠ 1 →
      yyAccept.getD state 0 = 4 ∨ state ∈ yyBackingUp := by
    decide
  exact all state h first

theorem yyFinal_base (h : next ∈ [4, 5, 7, 8, 12]) : yyBase.getD next 0 = 14 := by
  have all : ∀ next ∈ [4, 5, 7, 8, 12], yyBase.getD next 0 = 14 := by decide
  exact all next h

theorem yyFinal_accept (h : next ∈ [4, 5, 7, 8, 12]) : yyAccept.getD next 0 ≠ 0 ∧
    yyAccept.getD next 0 ≠ yyEndOfBuffer ∧ ∃ rule, yyRule (yyAccept.getD next 0) = some rule := by
  have all : ∀ next ∈ [4, 5, 7, 8, 12], yyAccept.getD next 0 ≠ 0 ∧
      yyAccept.getD next 0 ≠ yyEndOfBuffer ∧ yyRule (yyAccept.getD next 0) ≠ none := by
    decide
  obtain ⟨accepts, other, rule⟩ := all next h
  exact ⟨accepts, other, Option.ne_none_iff_exists'.mp rule⟩

end tables

/-- The last state that accepted a part of the text is behind its `$`. -/
def Located (textPtr state : Nat) (last : Nat × Nat) : Prop :=
  state ∈ yyBackingUp → last = (6, textPtr + 1)

/-- The scanner is in `state` behind the text `w`, and what it finds does not depend on how it
got there. -/
structure Follows (w : List UInt8) (state : Nat) (last : Nat × Nat) : Prop where
  searching : state ∈ yySearching
  located : Located 0 state last
  first : state = 1 ↔ w = []
  dollar : state = 6 → w.length = 1
  plain : 0x24 ∉ w.tail
  rest : ∀ r, yyMatch (w ++ r) 1 0 (0, 0) = yyMatch r state w.length last
  again : ∀ textPtr last, ∃ last', yyGetPreviousState w 1 textPtr last = .ok (state, last') ∧
    Located textPtr state last'

section follows

variable {w : List UInt8} {c : UInt8} {state next textPtr : Nat} {last last' : Nat × Nat}

theorem follows_nil : Follows [] 1 (0, 0) where
  searching := by decide
  located := by
    intro h
    exact absurd h (by decide)
  first := by simp
  dollar := by decide
  plain := by simp
  rest := fun r => rfl
  again := by
    intro textPtr last
    exact ⟨last, rfl, fun h => absurd h (by decide)⟩

/-- One byte more: the last accepting state is that behind the `$`, if there is none later. -/
theorem Located.step (h : Located textPtr state last)
    (on : state = 1 ∧ next = 6 ∨ state ≠ 1 ∧ state ≠ 4 ∧ next ∈ yyBackingUp)
    (searching : state ∈ yySearching) {n : Nat} (dollar : state = 6 → n = 1) :
    Located textPtr next (if yyAccept.getD state 0 ≠ 0 then (state, textPtr + n) else last) := by
  intro backing
  rcases on with ⟨-, rfl⟩ | ⟨first, nul, -⟩
  · exact absurd backing (by decide)
  · by_cases six : state = 6
    · rw [dollar six, six]
      rfl
    · have accepts : state ∈ yyBackingUp := by
        have all : ∀ state ∈ yySearching, state ≠ 1 → state ≠ 4 → state ≠ 6 →
            state ∈ yyBackingUp := by decide
        exact all state searching first nul six
      rw [if_neg (not_not.mpr (yyBackingUp_accept accepts))]
      exact h accepts

theorem yyGetPreviousState_concat (w : List UInt8) (c : UInt8) (state cp : Nat)
    (last : Nat × Nat) : yyGetPreviousState (w ++ [c]) state cp last = (do
      let (state, last) ← yyGetPreviousState w state cp last
      yyGetPreviousState [c] state (cp + w.length) last) := by
  induction w generalizing state cp last with
  | nil => rfl
  | cons d w ih =>
    rw [List.cons_append, yyGetPreviousState, yyGetPreviousState]
    dsimp only
    split
    · rfl
    · rw [ih, List.length_cons, Nat.add_assoc, Nat.add_comm 1]

theorem yyGetPreviousState_single (step : yyTransition state (yyClass c) = some next) (cp : Nat) :
    yyGetPreviousState [c] state cp last =
      .ok (next, if yyAccept.getD state 0 ≠ 0 then (state, cp) else last) := by
  rw [yyGetPreviousState]
  simp only [step]
  rfl

theorem Follows.step (h : Follows w state last)
    (step : yyTransition state (yyClass c) = some next)
    (on : state = 1 ∧ next = 6 ∨ state ≠ 1 ∧ state ≠ 4 ∧ next ∈ yyBackingUp) :
    Follows (w ++ [c]) next
      (if yyAccept.getD state 0 ≠ 0 then (state, w.length) else last) where
  searching := by
    rcases on with ⟨-, rfl⟩ | ⟨-, -, backing⟩
    · decide
    · exact yyBackingUp_searching backing
  located := by
    have located := h.located.step on h.searching h.dollar
    rwa [Nat.zero_add] at located
  first := by
    refine iff_of_false ?_ (by simp)
    rcases on with ⟨-, rfl⟩ | ⟨-, -, backing⟩
    · decide
    · rintro rfl
      exact absurd backing (by decide)
  dollar := by
    rintro rfl
    rcases on with ⟨first, -⟩ | ⟨-, -, backing⟩
    · simp [h.first.mp first]
    · exact absurd backing (by decide)
  plain := by
    rcases on with ⟨first, -⟩ | ⟨first, -, backing⟩
    · simp [h.first.mp first]
    · rw [List.tail_append_of_ne_nil fun none => first (h.first.mpr none), List.mem_append,
        List.mem_singleton]
      rintro (before | rfl)
      · exact h.plain before
      · exact yyBackingUp_dollar h.searching step backing
  rest := by
    intro r
    have base : yyBase.getD next 0 ≠ 14 := by
      rcases on with ⟨-, rfl⟩ | ⟨-, -, backing⟩
      · decide
      · exact yyBackingUp_base backing
    rw [List.append_assoc, h.rest, List.singleton_append, yyMatch_cons step, List.length_append]
    exact if_pos base
  again := by
    intro textPtr last0
    obtain ⟨last1, run, located⟩ := h.again textPtr last0
    refine ⟨_, ?_, located.step on h.searching h.dollar⟩
    rw [yyGetPreviousState_concat, run, ok_bind]
    exact yyGetPreviousState_single step _

/-- A NUL at the beginning ends its text, and what comes behind it jams. -/
theorem follows_nul : Follows [0] 4 (0, 0) where
  searching := by decide
  located := by
    intro h
    exact absurd h (by decide)
  first := by decide
  dollar := by decide
  plain := by simp
  rest := by
    intro r
    have jams (c : UInt8) : yyTransition 4 (yyClass c) = some 13 := by
      have all : ∀ k ∈ [1, 2, 3, 4, 5, 6, 7], yyTransition 4 k = some 13 := by decide
      exact all _ (yyClass_mem c)
    have ends : yyMatch ([0] ++ r) 1 0 (0, 0) = some (4, 1) := by
      rw [List.singleton_append, yyMatch_cons (show yyTransition 1 (yyClass 0) = some 4 by decide)]
      rfl
    rw [ends]
    cases r with
    | nil => rfl
    | cons c r =>
      rw [yyMatch_cons (jams c)]
      rfl
  again := by
    intro textPtr last
    refine ⟨last, ?_, fun h => absurd h (by decide)⟩
    exact yyGetPreviousState_single (show yyTransition 1 (yyClass 0) = some 4 by decide) textPtr

/-- What the scanner finds when the text ends here: never more than one byte. -/
theorem Follows.ends (h : Follows w state last) (nonempty : w ≠ []) :
    ∃ n, 0 < n ∧ n ≤ w.length ∧ yyFindAction state w.length last = (4, n) ∧
      ∀ textPtr last', Located textPtr state last' →
        yyFindAction state (textPtr + w.length) last' = (4, textPtr + n) := by
  have positive := List.length_pos_of_ne_nil nonempty
  have first : state ≠ 1 := fun one => nonempty (h.first.mp one)
  by_cases accepts : yyAccept.getD state 0 = 0
  · have backing := (yySearching_accept h.searching first).resolve_left (by omega)
    refine ⟨1, Nat.one_pos, positive, ?_, ?_⟩
    · rw [yyFindAction, if_pos accepts, h.located backing]
      rfl
    · intro textPtr last' located
      rw [yyFindAction, if_pos accepts, located backing]
      rfl
  · have four : yyAccept.getD state 0 = 4 := by
      rcases yySearching_accept h.searching first with four | backing
      · exact four
      · exact absurd (yyBackingUp_accept backing) accepts
    exact ⟨w.length, positive, le_rfl, by rw [yyFindAction, if_neg accepts, four],
      fun textPtr last' _ => by rw [yyFindAction, if_neg accepts, four]⟩

/-- A state that jams backs up to the one before it. -/
theorem yyFindAction_jammed (state cp : Nat) (last : Nat × Nat) :
    yyFindAction 13 (cp + 1) (if yyAccept.getD state 0 ≠ 0 then (state, cp) else last) =
      yyFindAction state cp last := by
  by_cases accepts : yyAccept.getD state 0 = 0
  · rw [if_neg (not_not.mpr accepts), yyFindAction, yyFindAction, if_pos accepts]
    rfl
  · rw [if_pos accepts, yyFindAction, yyFindAction, if_neg accepts]
    rfl

theorem Follows.jammed (h : Follows w state last)
    (step : yyTransition state (yyClass c) = some 13) (r : List UInt8) :
    yyMatch (w ++ c :: r) 1 0 (0, 0) = some (yyFindAction state w.length last) := by
  rw [h.rest, yyMatch_cons step, ← yyFindAction_jammed]
  exact if_neg (by decide)

/-- What the scanner finds when a byte ends the text. -/
theorem Follows.final (h : Follows w state last)
    (step : yyTransition state (yyClass c) = some next)
    (final : next ∈ [4, 5, 7, 8, 12] ∨ next = 13 ∧ state ≠ 1) :
    ∃ act rule n, 0 < n ∧ n ≤ w.length + 1 ∧ act ≠ yyEndOfBuffer ∧ yyRule act = some rule ∧
      (∀ r, yyMatch (w ++ c :: r) 1 0 (0, 0) = some (act, n)) ∧
      ∀ textPtr last', Located textPtr state last' →
        yyFindAction next (textPtr + w.length + 1)
          (if yyAccept.getD state 0 ≠ 0 then (state, textPtr + w.length) else last') =
          (act, textPtr + n) := by
  rcases final with final | ⟨rfl, first⟩
  · obtain ⟨accepts, other, rule, hrule⟩ := yyFinal_accept final
    refine ⟨_, rule, w.length + 1, Nat.succ_pos _, le_rfl, other, hrule, ?_, ?_⟩
    · intro r
      rw [h.rest, yyMatch_cons step]
      dsimp only
      rw [if_neg (not_not.mpr (yyFinal_base final)), yyFindAction, if_neg accepts]
    · intro textPtr last' _
      rw [yyFindAction, if_neg accepts, Nat.add_assoc]
  · have nonempty : w ≠ [] := fun none => first (h.first.mpr none)
    obtain ⟨n, positive, short, here, there⟩ := h.ends nonempty
    refine ⟨4, .character, n, positive, by omega, by decide, rfl, ?_, ?_⟩
    · intro r
      rw [h.jammed step, here]
    · intro textPtr last' located
      rw [yyFindAction_jammed, there textPtr last' located]

end follows

end ArmRunner
