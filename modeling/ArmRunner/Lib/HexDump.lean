import ArmRunner.Lib.Wire

namespace HexDump

open Wire

/-- Two digits for each byte, with what `sep` says in front of it. -/
def dump (sep : Nat → List UInt8) : Nat → List UInt8 → List UInt8
  | _, [] => []
  | j, b :: bs => sep j ++ hexDigits 2 b.toNat ++ dump sep (j + 1) bs

/-- Spaces and newlines stand between the digits. -/
def Separates (sep : Nat → List UInt8) : Prop := ∀ j, sep j = [] ∨ sep j = [0x0a] ∨ sep j = [0x20]

/-- The bytes of a dump that an empty line ends, and what is behind it. -/
def readDump : List UInt8 → Option (List UInt8 × List UInt8)
  | c :: d :: cs =>
    if c = 0x0a ∧ d = 0x0a then some ([], cs)
    else if c = 0x0a ∨ c = 0x20 then readDump (d :: cs)
    else do
      let high ← hexValue c
      let low ← hexValue d
      let (bytes, rest) ← readDump cs
      some (UInt8.ofNat (16 * high + low) :: bytes, rest)
  | _ => none

/-- A dump behind a line with its title. -/
def readBlock (text : List UInt8) : Option (List UInt8 × List UInt8) :=
  readDump ((text.dropWhile (· != 0x0a)).drop 1)

/-- At most `n` dumps one behind the other. -/
def readBlocks : Nat → List UInt8 → Option (List (List UInt8))
  | _, [] => some []
  | 0, _ :: _ => none
  | n + 1, c :: cs => do
    let (bytes, rest) ← readBlock (c :: cs)
    let more ← readBlocks n rest
    some (bytes :: more)

variable {sep : Nat → List UInt8}

theorem dump_append (j : Nat) (xs ys : List UInt8) :
    dump sep j (xs ++ ys) = dump sep j xs ++ dump sep (j + xs.length) ys := by
  induction xs generalizing j with
  | nil => rfl
  | cons x xs ih =>
    rw [List.cons_append, dump, dump, ih, List.length_cons, ← List.append_assoc,
      Nat.add_right_comm, Nat.add_assoc j]

theorem hexDigit_ne {v : Nat} (h : v < 16) : hexDigit v ≠ 0x0a ∧ hexDigit v ≠ 0x20 := by
  have all : ∀ v < 16, hexDigit v ≠ 0x0a ∧ hexDigit v ≠ 0x20 := by decide
  exact all v h

theorem readDump_digits (b : UInt8) (text : List UInt8) :
    readDump (hexDigits 2 b.toNat ++ text) =
      (readDump text).map fun r => (b :: r.1, r.2) := by
  have small := b.toNat_lt
  obtain ⟨newline, space⟩ := hexDigit_ne (Nat.mod_lt (b.toNat / 16 ^ 1) (by omega : 0 < 16))
  have value : UInt8.ofNat (16 * (b.toNat / 16 ^ 1 % 16) + b.toNat / 16 ^ 0 % 16) = b := by
    rw [show 16 * (b.toNat / 16 ^ 1 % 16) + b.toNat / 16 ^ 0 % 16 = b.toNat by omega]
    exact UInt8.ofNat_toNat
  rw [hexDigits, hexDigits, hexDigits, List.cons_append, List.cons_append, List.nil_append,
    readDump, if_neg (fun h => newline h.1), if_neg (not_or.mpr ⟨newline, space⟩),
    hexValue_hexDigit (Nat.mod_lt _ (by omega)), hexValue_hexDigit (Nat.mod_lt _ (by omega))]
  simp only [Option.bind_eq_bind, Option.bind_some, value]
  cases readDump text <;> rfl

theorem readDump_newline {d : UInt8} (h : d ≠ 0x0a) (cs : List UInt8) :
    readDump (0x0a :: d :: cs) = readDump (d :: cs) :=
  (if_neg fun empty => h empty.2).trans (if_pos (Or.inl rfl))

theorem readDump_space (d : UInt8) (cs : List UInt8) :
    readDump (0x20 :: d :: cs) = readDump (d :: cs) :=
  (if_neg fun empty => absurd empty.1 (by decide)).trans (if_pos (Or.inr rfl))

theorem readDump_separator (h : Separates sep) (j : Nat) (b : UInt8) (text : List UInt8) :
    readDump (sep j ++ hexDigits 2 b.toNat ++ text) = readDump (hexDigits 2 b.toNat ++ text) := by
  obtain ⟨newline, -⟩ := hexDigit_ne (Nat.mod_lt (b.toNat / 16 ^ 1) (by omega : 0 < 16))
  rcases h j with none | line | space
  · rw [none, List.nil_append]
  · rw [line]
    exact readDump_newline newline _
  · rw [space]
    exact readDump_space _ _

theorem readDump_dump (h : Separates sep) (j : Nat) (bytes rest : List UInt8) :
    readDump (dump sep j bytes ++ 0x0a :: 0x0a :: rest) = some (bytes, rest) := by
  induction bytes generalizing j with
  | nil => exact if_pos ⟨rfl, rfl⟩
  | cons b bs ih =>
    rw [dump, List.append_assoc, readDump_separator h, readDump_digits, ih]
    rfl

theorem readBlock_block (h : Separates sep) {title : List UInt8} (line : 0x0a ∉ title)
    (bytes rest : List UInt8) :
    readBlock (title ++ 0x0a :: (dump sep 0 bytes ++ 0x0a :: 0x0a :: rest)) =
      some (bytes, rest) := by
  have behind : (title ++ 0x0a :: (dump sep 0 bytes ++ 0x0a :: 0x0a :: rest)).dropWhile
      (· != 0x0a) = 0x0a :: (dump sep 0 bytes ++ 0x0a :: 0x0a :: rest) := by
    rw [List.dropWhile_append_of_pos]
    · simp
    · intro c hc
      simpa using fun same : c = 0x0a => line (same ▸ hc)
  rw [readBlock, behind, List.drop_one, List.tail_cons, readDump_dump h]

/-- Dumps with titles are read back. -/
theorem readBlocks_blocks (h : Separates sep) {blocks : List (List UInt8 × List UInt8)}
    (titles : ∀ b ∈ blocks, 0x0a ∉ b.1) {n : Nat} (enough : blocks.length ≤ n) :
    readBlocks n (blocks.flatMap fun b => b.1 ++ 0x0a :: (dump sep 0 b.2 ++ [0x0a, 0x0a])) =
      some (blocks.map Prod.snd) := by
  induction blocks generalizing n with
  | nil => cases n <;> rfl
  | cons b bs ih =>
    obtain ⟨n, rfl⟩ : ∃ m, n = m + 1 := ⟨n - 1, by simp at enough; omega⟩
    have rest := ih (fun b hb => titles b (by simp [hb])) (n := n) (by simpa using enough)
    set text := bs.flatMap fun b => b.1 ++ 0x0a :: (dump sep 0 b.2 ++ [0x0a, 0x0a])
    have first := readBlock_block h (titles b (by simp)) b.2 text
    have whole : ((b :: bs).flatMap fun b => b.1 ++ 0x0a :: (dump sep 0 b.2 ++ [0x0a, 0x0a])) =
        b.1 ++ 0x0a :: (dump sep 0 b.2 ++ 0x0a :: 0x0a :: text) := by
      simp [text]
    rw [whole]
    cases some : b.1 ++ 0x0a :: (dump sep 0 b.2 ++ 0x0a :: 0x0a :: text) with
    | nil => simp at some
    | cons c cs =>
      rw [some] at first
      rw [readBlocks, first]
      simp [rest]

theorem length_le_blocks (blocks : List (List UInt8 × List UInt8)) : blocks.length ≤
    (blocks.flatMap fun b => b.1 ++ 0x0a :: (dump sep 0 b.2 ++ [0x0a, 0x0a])).length := by
  induction blocks with
  | nil => exact Nat.le_refl 0
  | cons b bs ih =>
    rw [List.flatMap_cons, List.length_append, List.length_append, List.length_cons,
      List.length_cons]
    omega

end HexDump
