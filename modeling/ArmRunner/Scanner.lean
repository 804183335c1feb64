import ArmRunner.Lib.Lexer
import Mathlib.Data.UInt

namespace ArmRunner

open Lexer RegularExpression

def bytes : List UInt8 := (List.range 256).map UInt8.ofNat

/-- The rules of `scanner.l` in their order: `echo` is the default rule, which prints a byte that
no other rule matches. -/
inductive ScanRule
  | ack
  | retransmission
  | packet
  | character
  | echo
  deriving DecidableEq, Repr

def isHex (c : UInt8) : Bool :=
  (0x30 ≤ c && c ≤ 0x39) || (0x61 ≤ c && c ≤ 0x66) || (0x41 ≤ c && c ≤ 0x46)

/-- The bytes that frame a packet, `$` and `#`. -/
def isFraming (c : UInt8) : Bool := c == 0x24 || c == 0x23

def HEX : RegularExpression UInt8 := oneOf (bytes.filter isHex)

def packetPattern : RegularExpression UInt8 :=
  char 0x24 * ((oneOf (bytes.filter fun c => !isFraming c)).star * (char 0x23 * (HEX * HEX)))

def scannerRules : List (Rule UInt8 ScanRule) :=
  [⟨.ack, char 0x2b⟩,
    ⟨.retransmission, char 0x2d⟩,
    ⟨.packet, packetPattern⟩,
    ⟨.character, oneOf (bytes.filter (· ≠ 0x0a))⟩,
    ⟨.echo, oneOf bytes⟩]

abbrev ScanToken := Token UInt8 ScanRule

def scan (s : List UInt8) : List ScanToken := tokens scannerRules s

/-- The bytes of a packet as it arrives: the two digits need not be the sum of the payload. -/
def packetText (p : List UInt8) (h1 h2 : UInt8) : List UInt8 :=
  [0x24] ++ p ++ [0x23, h1, h2]

/-- The rule for a byte that starts no packet. -/
def byteRule (c : UInt8) : ScanRule :=
  if c = 0x2b then .ack
  else if c = 0x2d then .retransmission
  else if c = 0x0a then .echo
  else .character

section patterns

variable {w p r : List UInt8} {c h1 h2 : UInt8} {q : UInt8 → Bool}

theorem mem_bytes (c : UInt8) : c ∈ bytes := by
  rw [bytes, List.mem_map]
  exact ⟨c.toNat, List.mem_range.mpr c.toNat_lt, UInt8.ofNat_toNat⟩

theorem mem_filter_bytes : c ∈ bytes.filter q ↔ q c = true := by
  simp [mem_bytes]

theorem rmatch_byteClass :
    (oneOf (bytes.filter q)).rmatch w = true ↔ ∃ c, q c = true ∧ w = [c] := by
  rw [rmatch_oneOf]
  simp only [mem_filter_bytes]

/-- `w` has the form of a packet. -/
def IsPacket (w : List UInt8) : Prop :=
  ∃ p h1 h2, (∀ c ∈ p, isFraming c = false) ∧ isHex h1 = true ∧ isHex h2 = true ∧
    w = packetText p h1 h2

theorem rmatch_packet : packetPattern.rmatch w = true ↔ IsPacket w := by
  constructor
  · intro h
    obtain ⟨t, u, rfl, ht, hu⟩ := (mul_rmatch_iff _ _ _).mp h
    obtain ⟨p, v, rfl, hp, hv⟩ := (mul_rmatch_iff _ _ _).mp hu
    obtain ⟨t', v', rfl, ht', hv'⟩ := (mul_rmatch_iff _ _ _).mp hv
    obtain ⟨d1, d2, rfl, hd1, hd2⟩ := (mul_rmatch_iff _ _ _).mp hv'
    obtain ⟨h1, hh1, rfl⟩ := rmatch_byteClass.mp hd1
    obtain ⟨h2, hh2, rfl⟩ := rmatch_byteClass.mp hd2
    obtain rfl := (char_rmatch_iff _ _).mp ht
    obtain rfl := (char_rmatch_iff _ _).mp ht'
    refine ⟨p, h1, h2, ?_, hh1, hh2, by simp [packetText]⟩
    intro c hc
    simpa using mem_filter_bytes.mp (rmatch_star_oneOf.mp hp c hc)
  · rintro ⟨p, h1, h2, hp, hh1, hh2, rfl⟩
    have payload : (oneOf (bytes.filter fun c => !isFraming c)).star.rmatch p = true :=
      rmatch_star_oneOf.mpr fun c hc => mem_filter_bytes.mpr (by simp [hp c hc])
    have digits : (HEX * HEX).rmatch [h1, h2] = true := (mul_rmatch_iff _ _ _).mpr
      ⟨[h1], [h2], rfl, rmatch_byteClass.mpr ⟨h1, hh1, rfl⟩, rmatch_byteClass.mpr ⟨h2, hh2, rfl⟩⟩
    have closing : (char 0x23 * (HEX * HEX)).rmatch [0x23, h1, h2] = true :=
      (mul_rmatch_iff _ _ _).mpr
        ⟨[0x23], [h1, h2], rfl, (char_rmatch_iff _ _).mpr rfl, digits⟩
    exact (mul_rmatch_iff _ _ _).mpr ⟨[0x24], p ++ [0x23, h1, h2], by simp [packetText],
      (char_rmatch_iff _ _).mpr rfl, (mul_rmatch_iff _ _ _).mpr
        ⟨p, [0x23, h1, h2], rfl, payload, closing⟩⟩

theorem packetText_length : (packetText p h1 h2).length = p.length + 4 := by
  simp [packetText]

theorem IsPacket.length_ge (h : IsPacket w) : 4 ≤ w.length := by
  obtain ⟨p, h1, h2, -, -, -, rfl⟩ := h
  rw [packetText_length]
  omega

theorem not_isPacket_singleton : ¬ IsPacket [c] := by
  intro h
  have := h.length_ge
  simp at this

theorem firstMatch_packet (h : IsPacket w) : firstMatch scannerRules w = some .packet := by
  have long := h.length_ge
  have ack : ¬ (char 0x2b).rmatch w = true := by
    rw [char_rmatch_iff]
    rintro rfl
    simp at long
  have retransmission : ¬ (char 0x2d).rmatch w = true := by
    rw [char_rmatch_iff]
    rintro rfl
    simp at long
  rw [scannerRules, firstMatch_cons, if_neg ack, firstMatch_cons, if_neg retransmission,
    firstMatch_cons, if_pos (rmatch_packet.mpr h)]

theorem firstMatch_byte (c : UInt8) : firstMatch scannerRules [c] = some (byteRule c) := by
  have packet : ¬ packetPattern.rmatch [c] = true := rmatch_packet.not.mpr not_isPacket_singleton
  have any : (oneOf bytes).rmatch [c] = true := rmatch_oneOf.mpr ⟨c, mem_bytes c, rfl⟩
  have one (q : UInt8 → Bool) : (oneOf (bytes.filter q)).rmatch [c] = true ↔ q c = true := by
    rw [rmatch_byteClass]
    simp
  have this (d : UInt8) : (char d).rmatch [c] = true ↔ c = d := by
    rw [char_rmatch_iff, List.singleton_inj]
  rw [scannerRules, firstMatch_cons, firstMatch_cons, firstMatch_cons, firstMatch_cons,
    firstMatch_cons, byteRule, if_neg packet, if_pos any]
  simp only [this, one]
  split_ifs <;> simp_all

theorem firstMatch_ne_none :
    firstMatch scannerRules w ≠ none ↔ IsPacket w ∨ ∃ c, w = [c] := by
  constructor
  · intro h
    by_contra hw
    rw [not_or, not_exists] at hw
    apply h
    have one (cs : List UInt8) : ¬ (oneOf cs).rmatch w = true := by
      rw [rmatch_oneOf]
      rintro ⟨c, -, hc⟩
      exact hw.2 c hc
    have this (d : UInt8) : ¬ (char d).rmatch w = true := by
      rw [char_rmatch_iff]
      exact hw.2 d
    rw [scannerRules, firstMatch_cons, if_neg (this _), firstMatch_cons, if_neg (this _),
      firstMatch_cons, if_neg (rmatch_packet.not.mpr hw.1), firstMatch_cons, if_neg (one _),
      firstMatch_cons, if_neg (one _)]
    rfl
  · rintro (h | ⟨c, rfl⟩)
    · simp [firstMatch_packet h]
    · simp [firstMatch_byte]

end patterns

section resynchronise

variable {g p q r w : List UInt8} {c h1 h2 : UInt8}

/-- A packet cannot begin inside another text of the scanner. -/
theorem opens_dollar : Opens scannerRules (0x24 : UInt8) := by
  intro w hw
  rcases firstMatch_ne_none.mp hw with ⟨p, h1, h2, hp, hh1, hh2, rfl⟩ | ⟨c, rfl⟩
  · have tail : (packetText p h1 h2).tail = p ++ [0x23, h1, h2] := rfl
    rw [tail, List.mem_append, List.mem_cons, List.mem_cons, List.mem_singleton, not_or, not_or,
      not_or]
    refine ⟨fun hc => absurd (hp _ hc) (by decide), by decide, ?_, ?_⟩
    · rintro rfl
      exact absurd hh1 (by decide)
    · rintro rfl
      exact absurd hh2 (by decide)
  · simp

theorem next_scannerRules (s : List UInt8) (hs : s ≠ []) : next scannerRules s ≠ none := by
  intro h
  obtain ⟨c, s, rfl⟩ := List.exists_cons_of_ne_nil hs
  have := next_eq_none.mp h [c] (by simp) (by simp)
  rw [firstMatch_byte] at this
  cases this

/-- Two packets at the front of one text are the same: their payloads end at the first `#`. -/
theorem packetText_unique (hp : ∀ c ∈ p, isFraming c = false) (hq : ∀ c ∈ q, isFraming c = false)
    {d1 d2 : UInt8} (h : packetText q d1 d2 <+: packetText p h1 h2 ++ r) :
    packetText q d1 d2 = packetText p h1 h2 := by
  induction p generalizing q with
  | nil =>
    cases q with
    | nil => simp_all [packetText]
    | cons c q =>
      have hash : c = 0x23 := by simp_all [packetText]
      exact absurd (hq c (by simp)) (by rw [hash]; decide)
  | cons a p ih =>
    cases q with
    | nil =>
      have hash : 0x23 = a := by simp_all [packetText]
      exact absurd (hp a (by simp)) (by rw [← hash]; decide)
    | cons c q =>
      have tail := @ih q (fun c hc => hp c (by simp [hc])) (fun c hc => hq c (by simp [hc]))
      simp_all [packetText]

theorem longest_packet (hp : ∀ c ∈ p, isFraming c = false) (hh1 : isHex h1 = true)
    (hh2 : isHex h2 = true) (r : List UInt8) :
    Longest scannerRules (packetText p h1 h2 ++ r) ⟨.packet, packetText p h1 h2⟩ := by
  have packet : IsPacket (packetText p h1 h2) := ⟨p, h1, h2, hp, hh1, hh2, rfl⟩
  have long := packet.length_ge
  refine ⟨List.prefix_append _ _, by simp only; omega, firstMatch_packet packet, ?_⟩
  intro w hw hm
  rcases firstMatch_ne_none.mp hm with ⟨q, d1, d2, hq, -, -, rfl⟩ | ⟨c, rfl⟩
  · exact (congrArg List.length (packetText_unique hp hq hw)).le
  · simp only [List.length_singleton]
    omega

/-- A byte at which no packet begins is a text of its own. -/
theorem longest_byte (h : ∀ w, w <+: c :: r → ¬ IsPacket w) :
    Longest scannerRules (c :: r) ⟨byteRule c, [c]⟩ := by
  refine ⟨by simp, by simp, firstMatch_byte c, ?_⟩
  intro w hw hm
  rcases firstMatch_ne_none.mp hm with packet | ⟨d, rfl⟩
  · exact absurd packet (h w hw)
  · simp

theorem scan_packet_cons (hp : ∀ c ∈ p, isFraming c = false) (hh1 : isHex h1 = true)
    (hh2 : isHex h2 = true) (r : List UInt8) : scan (packetText p h1 h2 ++ r) =
      ⟨.packet, packetText p h1 h2⟩ :: scan r :=
  tokens_of_longest (longest_packet hp hh1 hh2 r) rfl

theorem scan_byte_cons {b : UInt8} (other : b ≠ 0x24) (r : List UInt8) :
    scan (b :: r) = ⟨byteRule b, [b]⟩ :: scan r := by
  refine tokens_of_longest (longest_byte ?_) rfl
  rintro w hw ⟨p, h1, h2, -, -, -, rfl⟩
  have head := List.cons_prefix_cons.mp (show 0x24 :: (p ++ [0x23, h1, h2]) <+: b :: r from by
    simpa [packetText] using hw)
  exact other head.1.symm

/-- A complete packet is one token, whatever comes before it and behind it. -/
theorem scan_resynchronises (g p r : List UInt8) (h1 h2 : UInt8)
    (hp : ∀ c ∈ p, c ≠ 0x24 ∧ c ≠ 0x23) (hh1 : isHex h1 = true) (hh2 : isHex h2 = true) :
    scan (g ++ packetText p h1 h2 ++ r) =
      scan g ++ [⟨.packet, packetText p h1 h2⟩] ++ scan r := by
  have plain : ∀ c ∈ p, isFraming c = false := by
    intro c hc
    simp [isFraming, hp c hc]
  have front : packetText p h1 h2 ++ r = 0x24 :: (p ++ [0x23, h1, h2] ++ r) := by
    simp [packetText]
  have split := tokens_append_opens (r := p ++ [0x23, h1, h2] ++ r) next_scannerRules opens_dollar g
  rw [← front] at split
  rw [List.append_assoc, List.append_assoc, List.singleton_append,
    ← scan_packet_cons plain hh1 hh2 r]
  exact split

/-- A packet behind one that breaks off in its digits. -/
theorem scan_resynchronises_broken :
    scan ([0x24, 0x61, 0x23, 0x31] ++ packetText [0x4f, 0x0a] 0x39 0x42 ++ [0x24, 0x2b]) =
      scan [0x24, 0x61, 0x23, 0x31] ++ [⟨.packet, packetText [0x4f, 0x0a] 0x39 0x42⟩] ++
        scan [0x24, 0x2b] :=
  scan_resynchronises _ _ _ _ _ (by decide +kernel) (by decide) (by decide)

end resynchronise

end ArmRunner
