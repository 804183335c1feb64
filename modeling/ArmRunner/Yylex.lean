import ArmRunner.Lib.CRun
import ArmRunner.Scanner

namespace ArmRunner

open CRun Lexer

def yyAccept : List Nat := [0, 0, 0, 6, 4, 5, 4, 1, 2, 0, 0, 0, 3, 0]

def yyEc : List Nat :=
  [0, 1, 1, 1, 1, 1, 1, 1, 1, 1, 2, 1, 1, 1, 1, 1, 1, 1, 1, 1, 1, 1, 1, 1, 1, 1, 1, 1, 1, 1, 1, 1,
    1, 1, 1, 3, 4, 1, 1, 1, 1, 1, 1, 5, 1, 6, 1, 1, 7, 7, 7, 7, 7, 7, 7, 7, 7, 7, 1, 1, 1, 1, 1, 1,
    1, 7, 7, 7, 7, 7, 7, 1, 1, 1, 1, 1, 1, 1, 1, 1, 1, 1, 1, 1, 1, 1, 1, 1, 1, 1, 1, 1, 1, 1, 1, 1,
    1, 7, 7, 7, 7, 7, 7, 1, 1, 1, 1, 1, 1, 1, 1, 1, 1, 1, 1, 1, 1, 1, 1, 1, 1, 1, 1, 1, 1, 1, 1, 1]
    ++ List.replicate 128 1

def yyMeta : List Nat := [0, 1, 1, 1, 2, 1, 1, 1]

def yyBase : List Nat := [0, 0, 0, 13, 14, 14, 9, 14, 14, 8, 3, 2, 14, 14, 7]

def yyDef : List Nat := [0, 13, 1, 13, 13, 13, 14, 13, 13, 14, 13, 13, 13, 0, 13]

def yyNxt : List Nat := [0, 4, 5, 4, 6, 7, 8, 4, 9, 12, 11, 10, 10, 13, 3, 13, 13, 13, 13, 13, 13, 13]

def yyChk : List Nat := [0, 1, 1, 1, 1, 1, 1, 1, 14, 11, 10, 9, 6, 3, 13, 13, 13, 13, 13, 13, 13, 13]

/-- The class of a byte. The scanner marks the end of its buffer with a NUL, which has class 0, and
gives a NUL that it has read class 1. -/
def yyClass (c : UInt8) : Nat := if c ≠ 0 then yyEc.getD c.toNat 0 else 1

/-- The state behind `state` for a class: the loop goes to the default of a state whose entry in
`yy_chk` is not its own. -/
def yyTransition (state yyC : Nat) : Option Nat :=
  (whileLoop (fun s => yyChk.getD (yyBase.getD s.1 0 + s.2) 0 ≠ s.1)
    (fun s =>
      let state := yyDef.getD s.1 0
      some (state, if 14 ≤ state then yyMeta.getD s.2 0 else s.2))
    yyBase.length (state, yyC)).map fun s => yyNxt.getD (yyBase.getD s.1 0 + s.2) 0

/-- `yy_find_action`: the action and the length of its text. A state that accepts nothing backs up
to the last one that did. -/
def yyFindAction (state cp : Nat) (last : Nat × Nat) : Nat × Nat :=
  if yyAccept.getD state 0 = 0 then (yyAccept.getD last.1 0, last.2)
  else (yyAccept.getD state 0, cp)

/-- `yy_match` from the byte `yy_cp` on, with `yy_last_accepting_state` and
`yy_last_accepting_cpos`. At the end of the input the text so far is what there is to match. -/
def yyMatch : List UInt8 → Nat → Nat → Nat × Nat → Option (Nat × Nat)
  | [], state, cp, last => some (yyFindAction state cp last)
  | c :: cs, state, cp, last => do
    let last := if yyAccept.getD state 0 ≠ 0 then (state, cp) else last
    let state ← yyTransition state (yyClass c)
    if yyBase.getD state 0 ≠ 14 then yyMatch cs state (cp + 1) last
    else some (yyFindAction state (cp + 1) last)

/-- The rule that an action number of `yy_accept` stands for. -/
def yyRule : Nat → Option ScanRule
  | 1 => some .ack
  | 2 => some .retransmission
  | 3 => some .packet
  | 4 => some .character
  | 5 => some .echo
  | _ => none

def yyToken (s : List UInt8) : Option ScanToken := do
  let (act, n) ← yyMatch s 1 0 (0, 0)
  let rule ← yyRule act
  some ⟨rule, s.take n⟩

/-- The tokens that the calls of `yylex` find up to the end of the input. -/
def yyScanUpTo : Nat → List UInt8 → Option (List ScanToken)
  | _, [] => some []
  | 0, _ :: _ => none
  | n + 1, c :: cs => do
    let t ← yyToken (c :: cs)
    let ts ← yyScanUpTo n ((c :: cs).drop t.text.length)
    some (t :: ts)

def yyScan (s : List UInt8) : Option (List ScanToken) := yyScanUpTo s.length s

section classes

variable {c : UInt8}

theorem forall_byte {p : UInt8 → Prop} (h : ∀ n < 256, p (UInt8.ofNat n)) (c : UInt8) : p c := by
  have := h c.toNat c.toNat_lt
  rwa [UInt8.ofNat_toNat] at this

/-- The seven classes of `yy_ec`. -/
theorem yyClass_eq (c : UInt8) : yyClass c =
    if c = 0x0a then 2 else if c = 0x23 then 3 else if c = 0x24 then 4 else if c = 0x2b then 5
    else if c = 0x2d then 6 else if isHex c = true then 7 else 1 := by
  revert c
  apply forall_byte
  decide +kernel

/-- From the start state every byte leads to a state that ends its text, but `$` does not. -/
theorem yyTransition_start (hc : c ≠ 0x24) :
    ∃ state, yyTransition 1 (yyClass c) = some state ∧ yyBase.getD state 0 = 14 ∧
      yyRule (yyAccept.getD state 0) = some (byteRule c) := by
  rw [yyClass_eq, byteRule]
  by_cases newline : c = 0x0a
  · subst newline
    exact ⟨5, by decide, by decide, by decide⟩
  by_cases plus : c = 0x2b
  · subst plus
    exact ⟨7, by decide, by decide, by decide⟩
  by_cases minus : c = 0x2d
  · subst minus
    exact ⟨8, by decide, by decide, by decide⟩
  rw [if_neg newline, if_neg hc, if_neg plus, if_neg minus, if_neg plus, if_neg minus,
    if_neg newline]
  refine ⟨4, ?_, by decide, by decide⟩
  split_ifs <;> decide

theorem yyTransition_dollar : yyTransition 1 (yyClass 0x24) = some 6 := by decide

theorem yyClass_mem (c : UInt8) : yyClass c ∈ [1, 2, 3, 4, 5, 6, 7] := by
  rw [yyClass_eq]
  split_ifs <;> decide

theorem yyClass_hash_iff (c : UInt8) : yyClass c = 3 ↔ c = 0x23 := by
  rw [yyClass_eq]
  split_ifs with newline hash
  · subst newline
    decide
  all_goals simp [hash]

theorem yyClass_dollar_iff (c : UInt8) : yyClass c = 4 ↔ c = 0x24 := by
  rw [yyClass_eq]
  split_ifs with newline hash dollar
  · subst newline
    decide
  · subst hash
    decide
  all_goals simp [dollar]

theorem yyClass_hex_iff (c : UInt8) : yyClass c = 7 ↔ isHex c = true := by
  rw [yyClass_eq]
  split_ifs with newline hash dollar plus minus hex
  · subst newline
    decide
  · subst hash
    decide
  · subst dollar
    decide
  · subst plus
    decide
  · subst minus
    decide
  · simp [hex]
  · simp [hex]

/-- Behind `$` and in a payload: `#` ends the payload, `$` breaks it off. -/
theorem yyTransition_payload {state : Nat} (hs : state = 6 ∨ state = 9) (c : UInt8) :
    yyTransition state (yyClass c) =
      some (if c = 0x23 then 10 else if c = 0x24 then 13 else 9) := by
  have byClass : ∀ yyC ∈ [1, 2, 3, 4, 5, 6, 7], yyTransition state yyC =
      some (if yyC = 3 then 10 else if yyC = 4 then 13 else 9) := by
    rcases hs with rfl | rfl
    · decide
    · decide
  rw [byClass _ (yyClass_mem c)]
  simp only [yyClass_hash_iff, yyClass_dollar_iff]

/-- Behind `#` only hexadecimal digits go on. -/
theorem yyTransition_digit {state : Nat} (hs : state = 10 ∨ state = 11) (c : UInt8) :
    yyTransition state (yyClass c) = some (if isHex c = true then state + 1 else 13) := by
  have byClass : ∀ yyC ∈ [1, 2, 3, 4, 5, 6, 7], yyTransition state yyC =
      some (if yyC = 7 then state + 1 else 13) := by
    rcases hs with rfl | rfl
    · decide
    · decide
  rw [byClass _ (yyClass_mem c)]
  simp only [yyClass_hex_iff]

end classes

section matching

variable {s p cs : List UInt8} {c h1 h2 : UInt8} {state cp : Nat} {last : Nat × Nat}

/-- The scanner has read `$` and a part of a payload: it can back up to the `$` alone. -/
def InPayload (state cp : Nat) (last : Nat × Nat) : Prop :=
  state = 6 ∧ cp = 1 ∨ state = 9 ∧ last = (6, 1)

theorem InPayload.states (h : InPayload state cp last) : state = 6 ∨ state = 9 := by
  rcases h with h | h
  · exact Or.inl h.1
  · exact Or.inr h.1

theorem InPayload.findAction (h : InPayload state cp last) :
    yyFindAction state cp last = (4, 1) := by
  rcases h with ⟨rfl, rfl⟩ | ⟨rfl, rfl⟩ <;> rfl

theorem InPayload.backsUp (h : InPayload state cp last) :
    (if yyAccept.getD state 0 ≠ 0 then (state, cp) else last) = (6, 1) := by
  rcases h with ⟨rfl, rfl⟩ | ⟨rfl, rfl⟩ <;> rfl

theorem yyMatch_cons {next : Nat} (step : yyTransition state (yyClass c) = some next) :
    yyMatch (c :: cs) state cp last =
      let last := if yyAccept.getD state 0 ≠ 0 then (state, cp) else last
      if yyBase.getD next 0 ≠ 14 then yyMatch cs next (cp + 1) last
      else some (yyFindAction next (cp + 1) last) := by
  rw [yyMatch, step]
  rfl

/-- One byte in a payload. -/
theorem InPayload.step (h : InPayload state cp last) (c : UInt8) (cs : List UInt8) :
    yyMatch (c :: cs) state cp last =
      if c = 0x23 then yyMatch cs 10 (cp + 1) (6, 1)
      else if c = 0x24 then some (4, 1)
      else yyMatch cs 9 (cp + 1) (6, 1) := by
  rw [yyMatch_cons (yyTransition_payload h.states c)]
  dsimp only
  rw [h.backsUp]
  by_cases hash : c = 0x23
  · rw [if_pos hash, if_pos hash]
    exact if_pos (by decide)
  by_cases dollar : c = 0x24
  · rw [if_neg hash, if_pos dollar, if_neg hash, if_pos dollar]
    exact if_neg (by decide)
  · rw [if_neg hash, if_neg dollar, if_neg hash, if_neg dollar]
    exact if_pos (by decide)

theorem yyMatch_first_digit (c : UInt8) (cs : List UInt8) :
    yyMatch (c :: cs) 10 cp (6, 1) =
      if isHex c = true then yyMatch cs 11 (cp + 1) (6, 1) else some (4, 1) := by
  rw [yyMatch_cons (yyTransition_digit (Or.inl rfl) c)]
  by_cases hex : isHex c = true
  · rw [if_pos hex, if_pos hex]
    exact if_pos (by decide)
  · rw [if_neg hex, if_neg hex]
    exact if_neg (by decide)

theorem yyMatch_second_digit (c : UInt8) (cs : List UInt8) :
    yyMatch (c :: cs) 11 cp (6, 1) = if isHex c = true then some (3, cp + 1) else some (4, 1) := by
  rw [yyMatch_cons (yyTransition_digit (Or.inr rfl) c)]
  by_cases hex : isHex c = true
  · rw [if_pos hex, if_pos hex]
    exact if_neg (by decide)
  · rw [if_neg hex, if_neg hex]
    exact if_neg (by decide)

/-- A payload with its two digits is matched to its end. -/
theorem InPayload.packet (h : InPayload state cp last) (hp : ∀ c ∈ p, isFraming c = false)
    (hh1 : isHex h1 = true) (hh2 : isHex h2 = true) (r : List UInt8) :
    yyMatch (p ++ [0x23, h1, h2] ++ r) state cp last = some (3, cp + p.length + 3) := by
  induction p generalizing state cp last with
  | nil =>
    rw [List.nil_append, List.cons_append, h.step, if_pos rfl, List.cons_append,
      yyMatch_first_digit, if_pos hh1, List.cons_append, yyMatch_second_digit, if_pos hh2]
    rfl
  | cons c p ih =>
    have plain := hp c (by simp)
    simp only [isFraming, Bool.or_eq_false_iff, beq_eq_false_iff_ne] at plain
    have rest := ih (Or.inr ⟨rfl, rfl⟩ : InPayload 9 (cp + 1) (6, 1))
      fun c hc => hp c (by simp [hc])
    rw [List.cons_append, List.cons_append, h.step, if_neg plain.2, if_neg plain.1, rest]
    congr 2
    rw [List.length_cons]
    omega

/-- Where no packet goes on, the scanner backs up to the `$`. -/
theorem InPayload.broken (h : InPayload state cp last)
    (none : ∀ p h1 h2, (∀ c ∈ p, isFraming c = false) → isHex h1 = true → isHex h2 = true →
      ¬ p ++ [0x23, h1, h2] <+: s) : yyMatch s state cp last = some (4, 1) := by
  induction s generalizing state cp last with
  | nil => rw [yyMatch, h.findAction]
  | cons c s ih =>
    rw [h.step]
    split_ifs with hash dollar
    · -- behind `#` one of the two digits is missing
      subst hash
      cases s with
      | nil => rfl
      | cons d1 s =>
        rw [yyMatch_first_digit]
        split_ifs with hd1
        · cases s with
          | nil => rfl
          | cons d2 s =>
            rw [yyMatch_second_digit]
            split_ifs with hd2
            · exact absurd (by simp) (none [] d1 d2 (by simp) hd1 hd2)
            · rfl
        · rfl
    · rfl
    · refine ih (Or.inr ⟨rfl, rfl⟩) ?_
      intro p h1 h2 hp hh1 hh2 hprefix
      refine none (c :: p) h1 h2 ?_ hh1 hh2 (by simpa using hprefix)
      intro d hd
      rcases List.mem_cons.mp hd with rfl | hd
      · simp [isFraming, hash, dollar]
      · exact hp d hd

/-- The tables find the longest match of the rules. -/
theorem yyToken_longest (c : UInt8) (cs : List UInt8) :
    ∃ t, yyToken (c :: cs) = some t ∧ Longest scannerRules (c :: cs) t := by
  by_cases dollar : c = 0x24
  · subst dollar
    have start : InPayload 6 1 (0, 0) := Or.inl ⟨rfl, rfl⟩
    have first : yyMatch (0x24 :: cs) 1 0 (0, 0) = yyMatch cs 6 1 (0, 0) := by
      rw [yyMatch_cons yyTransition_dollar]
      exact if_pos (by decide)
    by_cases packet : ∃ p h1 h2, (∀ c ∈ p, isFraming c = false) ∧ isHex h1 = true ∧
        isHex h2 = true ∧ p ++ [0x23, h1, h2] <+: cs
    · obtain ⟨p, h1, h2, hp, hh1, hh2, r, rfl⟩ := packet
      have whole : (0x24 : UInt8) :: (p ++ [0x23, h1, h2] ++ r) = packetText p h1 h2 ++ r := by
        simp [packetText]
      have text : (packetText p h1 h2 ++ r).take (1 + p.length + 3) = packetText p h1 h2 :=
        List.take_left' (by rw [packetText_length]; omega)
      refine ⟨⟨.packet, packetText p h1 h2⟩, ?_, whole ▸ longest_packet hp hh1 hh2 r⟩
      rw [yyToken, first, start.packet hp hh1 hh2 r]
      simp only [Option.bind_eq_bind, Option.bind_some, yyRule, whole, text]
    · refine ⟨⟨byteRule 0x24, [0x24]⟩, ?_, longest_byte ?_⟩
      · rw [yyToken, first, start.broken fun p h1 h2 hp hh1 hh2 h =>
          packet ⟨p, h1, h2, hp, hh1, hh2, h⟩]
        rfl
      · rintro w hw ⟨p, h1, h2, hp, hh1, hh2, rfl⟩
        exact packet ⟨p, h1, h2, hp, hh1, hh2, by simpa [packetText] using hw⟩
  · obtain ⟨next, step, base, rule⟩ := yyTransition_start dollar
    refine ⟨⟨byteRule c, [c]⟩, ?_, longest_byte ?_⟩
    · have accepts : yyAccept.getD next 0 ≠ 0 := by
        intro h
        rw [h] at rule
        cases rule
      have matched : yyMatch (c :: cs) 1 0 (0, 0) = some (yyAccept.getD next 0, 1) := by
        rw [yyMatch_cons step, base]
        exact congrArg some (if_neg accepts)
      rw [yyToken, matched]
      simp only [Option.bind_eq_bind, Option.bind_some, rule]
      rfl
    · rintro w hw ⟨p, h1, h2, hp, hh1, hh2, rfl⟩
      have head := List.cons_prefix_cons.mp (by simpa [packetText] using hw)
      exact dollar head.1.symm

theorem yyScanUpTo_eq_tokens {n : Nat} (hn : s.length ≤ n) : yyScanUpTo n s = some (scan s) := by
  induction n generalizing s with
  | zero =>
    obtain rfl : s = [] := List.length_eq_zero_iff.mp (by omega)
    rfl
  | succ n ih =>
    cases s with
    | nil => rfl
    | cons c cs =>
      obtain ⟨t, token, longest⟩ := yyToken_longest c cs
      obtain ⟨r, hr⟩ := longest.isPrefix
      have pos := longest.pos
      have lengths := congrArg List.length hr
      rw [List.length_append] at lengths
      have drop : (c :: cs).drop t.text.length = r := by rw [← hr, List.drop_left]
      rw [yyScanUpTo, token, scan, tokens_of_longest longest hr.symm]
      simp only [Option.bind_eq_bind, Option.bind_some, drop, ih (s := r) (by omega)]
      rfl

/-- The generated scanner finds the tokens of its rules. -/
theorem yyScan_eq_scan (s : List UInt8) : yyScan s = some (scan s) := yyScanUpTo_eq_tokens le_rfl

end matching

end ArmRunner
