import ArmRunner.Lib.CFile

open CRun

namespace CFile

/-- The number of bytes from the position to the end of the file. -/
def left (f : CFile) : Nat := f.bytes.length - f.pos

def skip (f : CFile) (n : Nat) : CFile := ⟨f.bytes, f.pos + n⟩

theorem skip_left (f : CFile) (n : Nat) : (f.skip n).left = f.left - n := Nat.sub_sub _ _ _ |>.symm

theorem skip_skip (f : CFile) (m n : Nat) : (f.skip m).skip n = f.skip (m + n) := by
  simp [skip, Nat.add_assoc]

/-- `fread(p + off, n, 1, f)` for a block of `size` bytes at `p`. The bytes that are left are
stored even when they are fewer than asked for. -/
def freadInto (size off : Nat) (f : CFile) (n : Nat) : Run (Option (List UInt8 × CFile)) :=
  if size < off + min n f.left then .error .fault else .ok (f.fread n)

end CFile

/-- A reader that takes `w` bytes, or ends the program when they are not there. -/
structure Reads {α : Type} (w : Nat) (read : CFile → Run (α × CFile)) : Prop where
  full : ∀ f : CFile, w ≤ f.left → ∃ x, read f = .ok (x, f.skip w)
  short : ∀ f : CFile, f.left < w → read f = .error .exit

section reads

variable {α β : Type} {v w : Nat}

theorem reads_ok (x : α) : Reads 0 (fun f => .ok (x, f)) := by
  refine ⟨fun f _ => ⟨x, rfl⟩, ?_⟩
  intro f short
  omega

theorem Reads.bind {p : CFile → Run (α × CFile)} {q : α → CFile → Run (β × CFile)}
    (first : Reads v p) (second : ∀ x, Reads w (q x)) :
    Reads (v + w) (fun f => p f >>= fun r => q r.1 r.2) := by
  refine ⟨?_, ?_⟩
  · intro f enough
    obtain ⟨x, hx⟩ := first.full f (by omega)
    obtain ⟨y, hy⟩ := (second x).full (f.skip v) (by rw [CFile.skip_left]; omega)
    exact ⟨y, by rw [hx, ok_bind, hy, CFile.skip_skip]⟩
  · intro f short
    by_cases early : f.left < v
    · rw [first.short f early, error_bind]
    · obtain ⟨x, hx⟩ := first.full f (by omega)
      rw [hx, ok_bind]
      exact (second x).short (f.skip v) (by rw [CFile.skip_left]; omega)

theorem Reads.map {p : CFile → Run (α × CFile)} (h : Reads w p) (g : α → β) :
    Reads w (fun f => p f >>= fun r => .ok (g r.1, r.2)) :=
  h.bind fun x => reads_ok (g x)

theorem Reads.collect {p : CFile → Run (α × CFile)} (h : Reads w p) (k n : Nat) :
    Reads (w * n) (collect (fun _ => p) k n) := by
  induction n generalizing k with
  | zero => exact reads_ok []
  | succ n ih =>
    rw [Nat.mul_succ, Nat.add_comm]
    exact h.bind fun x => (ih (k + 1)).map (x :: ·)

theorem Reads.not_fault {p : CFile → Run (α × CFile)} (h : Reads w p) (f : CFile) :
    p f ≠ .error .fault := by
  intro fault
  by_cases short : f.left < w
  · rw [h.short f short] at fault
    cases fault
  · obtain ⟨x, hx⟩ := h.full f (by omega)
    rw [hx] at fault
    cases fault

theorem Reads.bytes {p : CFile → Run (α × CFile)} (h : Reads w p) {f f' : CFile} {x : α}
    (run : p f = .ok (x, f')) : f'.bytes = f.bytes := by
  by_cases short : f.left < w
  · rw [h.short f short] at run
    cases run
  · obtain ⟨y, hy⟩ := h.full f (by omega)
    rw [hy] at run
    cases run
    rfl

end reads

/-- A reader that stores `w` bytes one behind the other into a block, from offset `off` on, and
the same reader without the block. -/
structure Fills {α : Type} (size off w : Nat) (into plain : CFile → Run (α × CFile)) : Prop where
  reads : Reads w plain
  into_eq : off ≤ size → ∀ f : CFile,
    into f = if size < off + min w f.left then .error .fault else plain f

section fills

variable {α β : Type} {size off v w : Nat}

theorem fills_ok (x : α) : Fills size off 0 (fun f => .ok (x, f)) (fun f => .ok (x, f)) := by
  refine ⟨reads_ok x, ?_⟩
  intro room f
  rw [if_neg (by omega)]

/-- One reader after another fill the block up to the sum of their widths. -/
theorem Fills.bind {i p : CFile → Run (α × CFile)} {j q : α → CFile → Run (β × CFile)}
    (first : Fills size off v i p) (second : ∀ x, Fills size (off + v) w (j x) (q x)) :
    Fills size off (v + w) (fun f => i f >>= fun r => j r.1 r.2)
      (fun f => p f >>= fun r => q r.1 r.2) := by
  refine ⟨first.reads.bind fun x => (second x).reads, ?_⟩
  intro room f
  rw [first.into_eq room]
  by_cases beyond : size < off + min v f.left
  · rw [if_pos beyond, if_pos (by omega), error_bind]
  · rw [if_neg beyond]
    by_cases early : f.left < v
    · rw [first.reads.short f early, error_bind, if_neg (by omega), error_bind]
    · obtain ⟨x, hx⟩ := first.reads.full f (by omega)
      have rest := (second x).into_eq (by omega) (f.skip v)
      rw [CFile.skip_left] at rest
      rw [hx, ok_bind, ok_bind, rest]
      by_cases behind : size < off + v + min w (f.left - v)
      · rw [if_pos behind, if_pos (by omega)]
      · rw [if_neg behind, if_neg (by omega)]

theorem Fills.map {i p : CFile → Run (α × CFile)} (h : Fills size off w i p) (g : α → β) :
    Fills size off w (fun f => i f >>= fun r => .ok (g r.1, r.2))
      (fun f => p f >>= fun r => .ok (g r.1, r.2)) :=
  h.bind fun x => fills_ok (g x)

/-- Records of one width fill the block one behind the other. -/
theorem Fills.collect {i : Nat → CFile → Run (α × CFile)} {p : CFile → Run (α × CFile)}
    (record : ∀ k, Fills size (w * k) w (i k) p) (k n : Nat) :
    Fills size (w * k) (w * n) (collect i k n) (collect (fun _ => p) k n) := by
  induction n generalizing k with
  | zero => exact fills_ok []
  | succ n ih =>
    rw [Nat.mul_succ w n, Nat.add_comm]
    exact (record k).bind fun x => (ih (k + 1)).map (x :: ·)

theorem Fills.run {i p : CFile → Run (α × CFile)} (h : Fills size 0 w i p) (f : CFile) :
    i f = if size < min w f.left then .error .fault else p f := by
  rw [h.into_eq (Nat.zero_le _), Nat.zero_add]

/-- A block with room for what is read makes no difference. -/
theorem Fills.run_of_le {i p : CFile → Run (α × CFile)} (h : Fills size 0 w i p) (room : w ≤ size)
    (f : CFile) : i f = p f := by
  rw [h.run, if_neg (by omega)]

end fills
