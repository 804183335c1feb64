import ArmRunner.Lib.CRun
import ArmRunner.Lib.Slice

open CRun Slice

/-- A stdio stream: the bytes of the file and the position of the next transfer. -/
structure CFile where
  bytes : List UInt8
  pos : Nat
  deriving DecidableEq, Repr

namespace CFile

/-- The stream that `fopen` returns on a file with these bytes. -/
def openRead (bytes : List UInt8) : CFile := ⟨bytes, 0⟩

/-- `fopen(_, "w")`: the file is created or truncated. -/
def openWrite : CFile := ⟨[], 0⟩

/-- `fseek(f, offset, SEEK_SET)`. A negative offset is refused and the position stays. -/
def fseek (f : CFile) (offset : Int) : CFile :=
  if 0 ≤ offset then { f with pos := offset.toNat } else f

/-- `fread(p, n, 1, f)`: `some` when the call returns 1, which it never does for `n = 0`. -/
def fread (f : CFile) (n : Nat) : Option (List UInt8 × CFile) :=
  if n ≠ 0 ∧ f.pos + n ≤ f.bytes.length then
    some (slice f.bytes f.pos (f.pos + n), { f with pos := f.pos + n })
  else none

/-- `fscanf(f, "%c", &c)`: `none` for `EOF`. -/
def fgetc (f : CFile) : Option UInt8 × CFile :=
  match f.bytes[f.pos]? with
  | some c => (some c, { f with pos := f.pos + 1 })
  | none => (none, f)

/-- `fwrite(p, n, 1, f)` of the bytes `bs`: they replace what is at the position, after zeros
up to the position when it lies behind the end. -/
def fwrite (f : CFile) (bs : List UInt8) : CFile :=
  ⟨(f.bytes ++ List.replicate (f.pos - f.bytes.length) 0).take f.pos ++ bs ++
    f.bytes.drop (f.pos + bs.length), f.pos + bs.length⟩

@[simp] theorem fseek_bytes (f : CFile) (offset : Int) : (f.fseek offset).bytes = f.bytes := by
  unfold fseek
  split <;> rfl

theorem fseek_natCast (f : CFile) (n : Nat) : f.fseek n = ⟨f.bytes, n⟩ := by
  simp [fseek]

theorem fread_of_le {f : CFile} {n : Nat} (hn : n ≠ 0) (h : f.pos + n ≤ f.bytes.length) :
    f.fread n = some (slice f.bytes f.pos (f.pos + n), ⟨f.bytes, f.pos + n⟩) :=
  if_pos ⟨hn, h⟩

theorem fread_eq_some {f f' : CFile} {n : Nat} {bs : List UInt8} :
    f.fread n = some (bs, f') ↔ n ≠ 0 ∧ f.pos + n ≤ f.bytes.length ∧
      bs = slice f.bytes f.pos (f.pos + n) ∧ f' = ⟨f.bytes, f.pos + n⟩ := by
  unfold fread
  split
  next h => simp [h.1, h.2, eq_comm]
  next h =>
    simp only [reduceCtorEq, false_iff]
    rintro ⟨hn, hl, -⟩
    exact h ⟨hn, hl⟩

theorem fread_length {f f' : CFile} {n : Nat} {bs : List UInt8} (h : f.fread n = some (bs, f')) :
    bs.length = n := by
  obtain ⟨_, hl, rfl, _⟩ := fread_eq_some.mp h
  rw [slice_length hl]
  omega

theorem fwrite_fwrite (f : CFile) (xs ys : List UInt8) :
    (f.fwrite xs).fwrite ys = f.fwrite (xs ++ ys) := by
  have front : ((f.bytes ++ List.replicate (f.pos - f.bytes.length) 0).take f.pos).length =
      f.pos := by
    simp only [List.length_take, List.length_append, List.length_replicate]
    omega
  unfold fwrite
  set P := (f.bytes ++ List.replicate (f.pos - f.bytes.length) 0).take f.pos with hP
  have short : f.pos + xs.length - (P ++ xs ++ f.bytes.drop (f.pos + xs.length)).length = 0 := by
    simp only [List.length_append, front]
    omega
  have kept : (P ++ xs ++ f.bytes.drop (f.pos + xs.length)).take (f.pos + xs.length) = P ++ xs := by
    rw [List.take_append_of_le_length (by simp [front]), List.take_of_length_le (by simp [front])]
  have rest : (P ++ xs ++ f.bytes.drop (f.pos + xs.length)).drop (f.pos + xs.length + ys.length) =
      f.bytes.drop (f.pos + (xs ++ ys).length) := by
    rw [List.drop_append, List.drop_eq_nil_of_le (by simp [front]), List.nil_append,
      List.drop_drop]
    congr 1
    simp only [List.length_append, front]
    omega
  rw [short, List.replicate_zero, List.append_nil, kept, rest]
  simp only [List.append_assoc, List.length_append, Nat.add_assoc]

theorem fwrite_nil {f : CFile} (h : f.pos ≤ f.bytes.length) : f.fwrite [] = f := by
  have fits : f.pos - f.bytes.length = 0 := by omega
  simp [fwrite, fits]

theorem fwrite_pos_le (f : CFile) (bs : List UInt8) :
    (f.fwrite bs).pos ≤ (f.fwrite bs).bytes.length := by
  simp only [fwrite, List.length_append, List.length_take, List.length_replicate]
  omega

/-- A loop each of whose turns writes the bytes of one entry writes them all, in order. -/
theorem forLoop_fwrite_from {α : Type} {body : Nat → CFile → Run CFile} {out : α → List UInt8}
    {xs : List α} {i : Nat} {f : CFile} (fits : f.pos ≤ f.bytes.length)
    (turn : ∀ k x (f : CFile), xs[k]? = some x → f.pos ≤ f.bytes.length →
      body (i + k) f = .ok (f.fwrite (out x))) :
    forLoop body i xs.length f = .ok (f.fwrite (xs.flatMap out)) := by
  induction xs generalizing i f with
  | nil => simp [fwrite_nil fits]
  | cons x xs ih =>
    have head : body i f = .ok (f.fwrite (out x)) := by simpa using turn 0 x f rfl fits
    have rest := ih (i := i + 1) (f := f.fwrite (out x)) (fwrite_pos_le f (out x)) (by
      intro k y g hy hg
      have := turn (k + 1) y g (by simpa using hy) hg
      rwa [show i + 1 + k = i + (k + 1) by omega])
    rw [List.length_cons, forLoop_succ, head, ok_bind, rest, fwrite_fwrite, List.flatMap_cons]

theorem forLoop_fwrite {α : Type} {body : Nat → CFile → Run CFile} {out : α → List UInt8}
    {xs : List α} {f : CFile} (fits : f.pos ≤ f.bytes.length)
    (turn : ∀ k x (f : CFile), xs[k]? = some x → f.pos ≤ f.bytes.length →
      body k f = .ok (f.fwrite (out x))) :
    forLoop body 0 xs.length f = .ok (f.fwrite (xs.flatMap out)) :=
  forLoop_fwrite_from fits (by simpa using turn)

theorem fwrite_openWrite (bs : List UInt8) : openWrite.fwrite bs = ⟨bs, bs.length⟩ := by
  simp [openWrite, fwrite]

end CFile
