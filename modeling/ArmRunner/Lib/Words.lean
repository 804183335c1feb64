import Mathlib.Tactic

namespace Words

/-- The number a little-endian byte string denotes. -/
def leNat : List UInt8 → Nat
  | [] => 0
  | b :: bs => b.toNat + 256 * leNat bs

/-- The low `w` bytes of a number, least significant first. -/
def leBytes : Nat → Nat → List UInt8
  | 0, _ => []
  | w + 1, n => UInt8.ofNat n :: leBytes w (n / 256)

def beNat (bs : List UInt8) : Nat := leNat bs.reverse

def beBytes (w n : Nat) : List UInt8 := (leBytes w n).reverse

@[simp] theorem leBytes_length (w n : Nat) : (leBytes w n).length = w := by
  induction w generalizing n with
  | zero => rfl
  | succ w ih => simp [leBytes, ih]

@[simp] theorem beBytes_length (w n : Nat) : (beBytes w n).length = w := by
  simp [beBytes]

theorem leNat_lt (bs : List UInt8) : leNat bs < 256 ^ bs.length := by
  induction bs with
  | nil => simp [leNat]
  | cons b bs ih =>
    have hb := b.toNat_lt
    simp only [leNat, List.length_cons, pow_succ]
    omega

theorem beNat_lt (bs : List UInt8) : beNat bs < 256 ^ bs.length := by
  simpa [beNat] using leNat_lt bs.reverse

theorem leBytes_leNat (bs : List UInt8) : leBytes bs.length (leNat bs) = bs := by
  induction bs with
  | nil => rfl
  | cons b bs ih =>
    have hb := b.toNat_lt
    have high : (b.toNat + 256 * leNat bs) / 256 = leNat bs := by omega
    have low : UInt8.ofNat (b.toNat + 256 * leNat bs) = b := by
      apply UInt8.toNat_inj.mp
      simp only [UInt8.toNat_ofNat']
      omega
    simp only [List.length_cons, leBytes, leNat, high, low, ih]

theorem leNat_leBytes (w n : Nat) : leNat (leBytes w n) = n % 256 ^ w := by
  induction w generalizing n with
  | zero => simp [leBytes, leNat, Nat.mod_one]
  | succ w ih =>
    have low : (UInt8.ofNat n).toNat = n % 256 := UInt8.toNat_ofNat'
    rw [leBytes, leNat, ih, low, Nat.pow_succ, Nat.mul_comm (256 ^ w) 256, Nat.mod_mul]

theorem beBytes_beNat {bs : List UInt8} {w : Nat} (h : bs.length = w) :
    beBytes w (beNat bs) = bs := by
  subst h
  have := leBytes_leNat bs.reverse
  rw [List.length_reverse] at this
  rw [beBytes, beNat, this, List.reverse_reverse]

theorem beNat_beBytes (w n : Nat) : beNat (beBytes w n) = n % 256 ^ w := by
  simp [beNat, beBytes, leNat_leBytes]

/-- `bswap_16`, `bswap_32`: the bytes of the word in the opposite order. -/
def bswap16 (x : UInt16) : UInt16 := UInt16.ofNat (leNat (leBytes 2 x.toNat).reverse)

def bswap32 (x : UInt32) : UInt32 := UInt32.ofNat (leNat (leBytes 4 x.toNat).reverse)

def bswap64 (x : UInt64) : UInt64 := UInt64.ofNat (leNat (leBytes 8 x.toNat).reverse)

/-- The word that a little-endian host holds after its bytes were filled with `bs`. -/
def hostWord16 (bs : List UInt8) : UInt16 := UInt16.ofNat (leNat bs)

def hostWord32 (bs : List UInt8) : UInt32 := UInt32.ofNat (leNat bs)

theorem bswap16_hostWord {bs : List UInt8} (h : bs.length = 2) :
    bswap16 (hostWord16 bs) = UInt16.ofNat (beNat bs) := by
  have small := leNat_lt bs
  rw [h] at small
  have value : (hostWord16 bs).toNat = leNat bs := by
    simp only [hostWord16, UInt16.toNat_ofNat']
    exact Nat.mod_eq_of_lt small
  rw [bswap16, value, ← h, leBytes_leNat, beNat]

theorem bswap32_hostWord {bs : List UInt8} (h : bs.length = 4) :
    bswap32 (hostWord32 bs) = UInt32.ofNat (beNat bs) := by
  have small := leNat_lt bs
  rw [h] at small
  have value : (hostWord32 bs).toNat = leNat bs := by
    simp only [hostWord32, UInt32.toNat_ofNat']
    exact Nat.mod_eq_of_lt small
  rw [bswap32, value, ← h, leBytes_leNat, beNat]

/-- Swapping a word and storing it on a little-endian host lays it out big-endian. -/
theorem leBytes_bswap16 (x : UInt16) : leBytes 2 (bswap16 x).toNat = beBytes 2 x.toNat := by
  have small := leNat_lt (leBytes 2 x.toNat).reverse
  simp only [List.length_reverse, leBytes_length] at small
  have value : (bswap16 x).toNat = leNat (leBytes 2 x.toNat).reverse := by
    simp only [bswap16, UInt16.toNat_ofNat']
    exact Nat.mod_eq_of_lt small
  have back := leBytes_leNat (leBytes 2 x.toNat).reverse
  rw [List.length_reverse, leBytes_length] at back
  rw [value, back, beBytes]

theorem leBytes_bswap32 (x : UInt32) : leBytes 4 (bswap32 x).toNat = beBytes 4 x.toNat := by
  have small := leNat_lt (leBytes 4 x.toNat).reverse
  simp only [List.length_reverse, leBytes_length] at small
  have value : (bswap32 x).toNat = leNat (leBytes 4 x.toNat).reverse := by
    simp only [bswap32, UInt32.toNat_ofNat']
    exact Nat.mod_eq_of_lt small
  have back := leBytes_leNat (leBytes 4 x.toNat).reverse
  rw [List.length_reverse, leBytes_length] at back
  rw [value, back, beBytes]

/-- Reading a big-endian field into a word and writing the word back is the identity. -/
theorem beBytes_word16 {bs : List UInt8} (h : bs.length = 2) :
    beBytes 2 (UInt16.ofNat (beNat bs)).toNat = bs := by
  have small : beNat bs < 2 ^ 16 := by simpa [h] using beNat_lt bs
  rw [UInt16.toNat_ofNat', Nat.mod_eq_of_lt small, beBytes_beNat h]

theorem beBytes_word32 {bs : List UInt8} (h : bs.length = 4) :
    beBytes 4 (UInt32.ofNat (beNat bs)).toNat = bs := by
  have small : beNat bs < 2 ^ 32 := by simpa [h] using beNat_lt bs
  rw [UInt32.toNat_ofNat', Nat.mod_eq_of_lt small, beBytes_beNat h]

theorem word16_beBytes (x : UInt16) : UInt16.ofNat (beNat (beBytes 2 x.toNat)) = x := by
  have hx := x.toNat_lt
  rw [beNat_beBytes, Nat.mod_eq_of_lt (by simpa using hx), UInt16.ofNat_toNat]

theorem word32_beBytes (x : UInt32) : UInt32.ofNat (beNat (beBytes 4 x.toNat)) = x := by
  have hx := x.toNat_lt
  rw [beNat_beBytes, Nat.mod_eq_of_lt (by simpa using hx), UInt32.ofNat_toNat]

theorem leNat_append (xs ys : List UInt8) :
    leNat (xs ++ ys) = leNat xs + 256 ^ xs.length * leNat ys := by
  induction xs with
  | nil => simp [leNat]
  | cons x xs ih =>
    simp only [List.cons_append, leNat, List.length_cons, ih, pow_succ]
    ring

theorem leBytes_add (v w n : Nat) : leBytes (v + w) n = leBytes v n ++ leBytes w (n / 256 ^ v) := by
  induction v generalizing n with
  | zero => simp [leBytes]
  | succ v ih =>
    rw [Nat.succ_add, leBytes, ih, leBytes, List.cons_append, Nat.div_div_eq_div_mul, pow_succ,
      Nat.mul_comm 256]

/-- Swapping a word that was widened to 64 bits leaves nothing in the low half. -/
theorem bswap64_widened (x : UInt32) : (bswap64 x.toUInt64).toUInt32 = 0 := by
  have bound := x.toNat_lt
  have value : x.toUInt64.toNat = x.toNat := UInt32.toNat_toUInt64 x
  have high : x.toNat / 256 ^ 4 = 0 := by omega
  have swapped : leNat (leBytes 8 x.toNat).reverse =
      256 ^ 4 * leNat (leBytes 4 x.toNat).reverse := by
    rw [show 8 = 4 + 4 by rfl, leBytes_add, high, List.reverse_append, leNat_append]
    simp [leBytes, leNat]
  apply UInt32.toNat_inj.mp
  rw [UInt64.toNat_toUInt32, bswap64, UInt64.toNat_ofNat', value, swapped]
  simp only [UInt32.toNat_zero]
  omega

end Words
