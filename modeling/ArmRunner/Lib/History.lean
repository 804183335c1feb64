import Mathlib.Tactic

namespace History

variable {ε : Type} {P : List ε → ε → Prop} {h : List ε} {e : ε}

/-- Every event of a history is as `P` says of the events before it. -/
def Each (P : List ε → ε → Prop) (h : List ε) : Prop :=
  ∀ before e after, h = before ++ e :: after → P before e

theorem each_nil : Each P [] := by
  intro before e after h
  simp at h

theorem each_concat (he : Each P h) (new : P h e) : Each P (h ++ [e]) := by
  intro before d after split
  rcases List.eq_nil_or_concat after with rfl | ⟨rest, last, rfl⟩
  · obtain ⟨rfl, hd⟩ := List.append_inj' split rfl
    obtain rfl : e = d := by simpa using hd
    exact new
  · have ends : h ++ [e] = (before ++ d :: rest) ++ [last] := by
      rw [split, List.concat_eq_append, List.append_assoc, List.cons_append]
    exact he before d rest (List.append_inj' ends rfl).1

end History
