import Mathlib.Tactic

namespace Wire

/-- The lower-case hexadecimal digit for a value below 16. -/
def hexDigit (v : Nat) : UInt8 := if v < 10 then UInt8.ofNat (0x30 + v) else UInt8.ofNat (0x57 + v)

/-- `sprintf` of a number below `16 ^ w` with the format `%0wx`. -/
def hexDigits : Nat → Nat → List UInt8
  | 0, _ => []
  | w + 1, n => hexDigit (n / 16 ^ w % 16) :: hexDigits w n

def hexValue (c : UInt8) : Option Nat :=
  if 0x30 ≤ c ∧ c ≤ 0x39 then some (c.toNat - 0x30)
  else if 0x61 ≤ c ∧ c ≤ 0x66 then some (c.toNat - 0x57)
  else none

/-- Read `w` hexadecimal digits behind those that made up `acc`. -/
def readHex : Nat → Nat → List UInt8 → Option (Nat × List UInt8)
  | 0, acc, cs => some (acc, cs)
  | _ + 1, _, [] => none
  | w + 1, acc, c :: cs => (hexValue c).bind fun v => readHex w (16 * acc + v) cs

@[simp] theorem hexDigits_length (w n : Nat) : (hexDigits w n).length = w := by
  induction w with
  | zero => rfl
  | succ w ih => rw [hexDigits, List.length_cons, ih]

theorem hexValue_hexDigit {v : Nat} (h : v < 16) : hexValue (hexDigit v) = some v := by
  have all : ∀ v < 16, hexValue (hexDigit v) = some v := by decide
  exact all v h

theorem readHex_hexDigits (w n acc : Nat) (cs : List UInt8) :
    readHex w acc (hexDigits w n ++ cs) = some (acc * 16 ^ w + n % 16 ^ w, cs) := by
  induction w generalizing acc with
  | zero => simp [readHex, hexDigits, Nat.mod_one]
  | succ w ih =>
    rw [hexDigits, List.cons_append, readHex, hexValue_hexDigit (Nat.mod_lt _ (by omega)),
      Option.bind_some, ih, Nat.mod_pow_succ, Nat.pow_succ]
    congr 2
    ring

/-- Read one given character. -/
def expect (c : UInt8) : List UInt8 → Option (List UInt8)
  | [] => none
  | d :: cs => if d = c then some cs else none

@[simp] theorem expect_cons (c : UInt8) (cs : List UInt8) : expect c (c :: cs) = some cs :=
  if_pos rfl

section stuffing

variable {special : UInt8 → Bool} {esc mask : UInt8}

/-- A special byte is sent as the escape byte and the byte with some bits inverted. -/
def escapeByte (special : UInt8 → Bool) (esc mask c : UInt8) : List UInt8 :=
  if special c then [esc, c ^^^ mask] else [c]

def escape (special : UInt8 → Bool) (esc mask : UInt8) (bs : List UInt8) : List UInt8 :=
  bs.flatMap (escapeByte special esc mask)

/-- Undo the escapes: `none` when an escape byte has no byte behind it. -/
def unescape (esc mask : UInt8) : List UInt8 → Option (List UInt8)
  | [] => some []
  | [c] => if c = esc then none else some [c]
  | c :: d :: cs =>
    if c = esc then (unescape esc mask cs).map ((d ^^^ mask) :: ·)
    else (unescape esc mask (d :: cs)).map (c :: ·)

theorem unescape_cons {c : UInt8} (h : c ≠ esc) (cs : List UInt8) :
    unescape esc mask (c :: cs) = (unescape esc mask cs).map (c :: ·) := by
  cases cs with
  | nil => simp [unescape, h]
  | cons d cs => simp [unescape, h]

theorem unescape_escape (hesc : special esc = true) (bs : List UInt8) :
    unescape esc mask (escape special esc mask bs) = some bs := by
  induction bs with
  | nil => rfl
  | cons c bs ih =>
    rw [escape] at ih
    rw [escape, List.flatMap_cons, escapeByte]
    by_cases hc : special c = true
    · rw [if_pos hc, List.cons_append, List.singleton_append, unescape, if_pos rfl, ih,
        Option.map_some, UInt8.xor_assoc, UInt8.xor_self, UInt8.xor_zero]
    · have hne : c ≠ esc := by
        rintro rfl
        exact hc hesc
      rw [if_neg hc, List.singleton_append, unescape_cons hne, ih, Option.map_some]

theorem escape_append (xs ys : List UInt8) :
    escape special esc mask (xs ++ ys) = escape special esc mask xs ++ escape special esc mask ys :=
  List.flatMap_append

/-- Each special byte takes one byte more. -/
theorem escape_length (bs : List UInt8) :
    (escape special esc mask bs).length = bs.length + bs.countP special := by
  induction bs with
  | nil => rfl
  | cons c bs ih =>
    rw [escape] at ih
    rw [escape, List.flatMap_cons, List.length_append, ih, List.length_cons, List.countP_cons,
      escapeByte]
    split
    · simp only [List.length_cons, List.length_nil]
      omega
    · simp only [List.length_cons, List.length_nil]
      omega

end stuffing

end Wire
