import Mathlib.Tactic

/-- What a connection still delivers. The bytes come in pieces, and it is closed behind the last
one. -/
structure Connection where
  pieces : List (List UInt8)
  nonempty : ∀ p ∈ pieces, p ≠ []

namespace Connection

def bytes (c : Connection) : List UInt8 := c.pieces.flatten

/-- `read` of at most `n` bytes: a part of the first piece, or nothing at the end. -/
def read (c : Connection) (n : Nat) : List UInt8 × Connection :=
  match h : c.pieces with
  | [] => ([], c)
  | p :: ps =>
    have behind : ∀ q ∈ ps, q ≠ [] := fun q hq => c.nonempty q (by simp [h, hq])
    if longer : n < p.length then
      (p.take n, ⟨p.drop n :: ps, by
        intro q hq
        rcases List.mem_cons.mp hq with rfl | hq
        · simp [longer]
        · exact behind q hq⟩)
    else (p, ⟨ps, behind⟩)

variable {c : Connection} {n : Nat}

theorem read_nil (h : c.pieces = []) : c.read n = ([], c) := by
  unfold read
  split
  next => rfl
  next p ps cons => simp [h] at cons

theorem read_cons {p : List UInt8} {ps : List (List UInt8)} (h : c.pieces = p :: ps) :
    (c.read n).1 = p.take n ∧
      (c.read n).2.pieces = if n < p.length then p.drop n :: ps else ps := by
  unfold read
  split
  next none => simp [h] at none
  next q qs cons =>
    obtain ⟨rfl, rfl⟩ := List.cons.inj (h.symm.trans cons)
    split_ifs with longer
    · exact ⟨rfl, rfl⟩
    · exact ⟨(List.take_of_length_le (Nat.le_of_not_lt longer)).symm, rfl⟩

/-- The bytes that are read are the first of those that are left. -/
theorem read_bytes (c : Connection) (n : Nat) : (c.read n).1 ++ (c.read n).2.bytes = c.bytes := by
  unfold bytes
  cases h : c.pieces with
  | nil => simp [read_nil h, h]
  | cons p ps =>
    obtain ⟨first, rest⟩ := read_cons (n := n) h
    rw [first, rest]
    split_ifs with longer
    · rw [List.flatten_cons, List.flatten_cons, ← List.append_assoc, List.take_append_drop]
    · rw [List.take_of_length_le (by omega), List.flatten_cons]

theorem read_length (c : Connection) (n : Nat) : (c.read n).1.length ≤ n := by
  cases h : c.pieces with
  | nil => simp [read_nil h]
  | cons p ps =>
    rw [(read_cons (n := n) h).1]
    exact List.length_take_le n p

/-- Nothing is read only when nothing is left. -/
theorem read_eq_nil (room : 0 < n) (h : (c.read n).1 = []) : c.bytes = [] ∧ (c.read n).2 = c := by
  cases hp : c.pieces with
  | nil => exact ⟨by simp [bytes, hp], by rw [read_nil hp]⟩
  | cons p ps =>
    have nonempty := c.nonempty p (by simp [hp])
    rw [(read_cons (n := n) hp).1, List.take_eq_nil_iff] at h
    rcases h with none | empty
    · omega
    · exact absurd empty nonempty

end Connection
