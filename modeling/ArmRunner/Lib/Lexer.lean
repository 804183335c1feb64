import Mathlib.Computability.RegularExpressions
import Mathlib.Tactic

namespace Lexer

/-- One symbol out of `cs`. -/
def oneOf {α : Type} (cs : List α) : RegularExpression α := cs.foldr (fun c p => .char c + p) 0

variable {α ρ : Type} [DecidableEq α]

/-- A rule of a scanner: what it is called and the pattern its texts match. -/
structure Rule (α ρ : Type) where
  name : ρ
  pattern : RegularExpression α

structure Token (α ρ : Type) where
  rule : ρ
  text : List α
  deriving Repr, DecidableEq

/-- The first rule of the list whose pattern matches the whole of `w`. -/
def firstMatch (rules : List (Rule α ρ)) (w : List α) : Option ρ :=
  (rules.find? fun r => r.pattern.rmatch w).map Rule.name

/-- The longest match at the front of `s` of at most `n` symbols. -/
def longestUpTo (rules : List (Rule α ρ)) (s : List α) : Nat → Option (Token α ρ)
  | 0 => none
  | n + 1 =>
    match firstMatch rules (s.take (n + 1)) with
    | some r => some ⟨r, s.take (n + 1)⟩
    | none => longestUpTo rules s n

def next (rules : List (Rule α ρ)) (s : List α) : Option (Token α ρ) :=
  longestUpTo rules s s.length

def tokensUpTo (rules : List (Rule α ρ)) : Nat → List α → List (Token α ρ)
  | 0, _ => []
  | n + 1, s =>
    match next rules s with
    | some t => t :: tokensUpTo rules n (s.drop t.text.length)
    | none => []

/-- The tokens of `s`, as far as some rule matches. -/
def tokens (rules : List (Rule α ρ)) (s : List α) : List (Token α ρ) :=
  tokensUpTo rules s.length s

/-- What a scanner takes at the front of `s`: the longest match, by its earliest rule. -/
structure Longest (rules : List (Rule α ρ)) (s : List α) (t : Token α ρ) : Prop where
  isPrefix : t.text <+: s
  pos : 0 < t.text.length
  first : firstMatch rules t.text = some t.rule
  greatest : ∀ w, w <+: s → firstMatch rules w ≠ none → w.length ≤ t.text.length

section patterns

variable {cs w : List α}

theorem rmatch_oneOf : (oneOf cs).rmatch w = true ↔ ∃ c ∈ cs, w = [c] := by
  induction cs with
  | nil => simp only [oneOf, List.foldr_nil, RegularExpression.zero_rmatch, List.not_mem_nil,
      Bool.false_eq_true, false_and, exists_false]
  | cons c cs ih =>
    rw [oneOf, List.foldr_cons, RegularExpression.add_rmatch_iff, RegularExpression.char_rmatch_iff]
    rw [oneOf] at ih
    rw [ih, List.exists_mem_cons_iff]

theorem rmatch_star_oneOf : (oneOf cs).star.rmatch w = true ↔ ∀ c ∈ w, c ∈ cs := by
  rw [RegularExpression.star_rmatch_iff]
  constructor
  · rintro ⟨S, rfl, hS⟩ c hc
    obtain ⟨t, ht, hct⟩ := List.mem_flatten.mp hc
    obtain ⟨d, hd, rfl⟩ := rmatch_oneOf.mp (hS t ht).2
    rwa [List.mem_singleton.mp hct]
  · intro h
    refine ⟨w.map fun c => [c], by simp [← List.flatMap_def], ?_⟩
    intro t ht
    obtain ⟨c, hc, rfl⟩ := List.mem_map.mp ht
    exact ⟨by simp, rmatch_oneOf.mpr ⟨c, h c hc, rfl⟩⟩

end patterns

variable {rules : List (Rule α ρ)} {s r : List α} {t t' : Token α ρ}

theorem firstMatch_cons (rule : Rule α ρ) (w : List α) : firstMatch (rule :: rules) w =
    if rule.pattern.rmatch w = true then some rule.name else firstMatch rules w := by
  rw [firstMatch, List.find?_cons]
  split <;> simp_all [firstMatch]

theorem longest_unique (h : Longest rules s t) (h' : Longest rules s t') : t = t' := by
  have hlen : t.text.length = t'.text.length := by
    have h1 := h.greatest t'.text h'.isPrefix (by simp [h'.first])
    have h2 := h'.greatest t.text h.isPrefix (by simp [h.first])
    omega
  have htext : t.text = t'.text := (List.prefix_of_prefix_length_le h.isPrefix h'.isPrefix
    (by omega)).eq_of_length hlen
  have hrule := h.first
  rw [htext, h'.first] at hrule
  cases t
  cases t'
  simp_all

theorem longestUpTo_some {n : Nat} (hn : n ≤ s.length) (h : longestUpTo rules s n = some t) :
    t.text <+: s ∧ 0 < t.text.length ∧ firstMatch rules t.text = some t.rule ∧
      ∀ w, w <+: s → w.length ≤ n → firstMatch rules w ≠ none →
        w.length ≤ t.text.length := by
  induction n with
  | zero => simp [longestUpTo] at h
  | succ n ih =>
    rw [longestUpTo] at h
    split at h
    next r hr =>
      cases h
      refine ⟨List.take_prefix _ _, ?_, hr, ?_⟩
      · rw [List.length_take]
        omega
      · intro w _ hw _
        rw [List.length_take]
        omega
    next hr =>
      obtain ⟨h1, h2, h3, h4⟩ := ih (by omega) h
      refine ⟨h1, h2, h3, fun w hw hwn hm => ?_⟩
      by_cases hlast : w.length = n + 1
      · -- the text of length `n + 1` has just been tried
        rw [List.prefix_iff_eq_take.mp hw, hlast] at hm
        exact absurd hr hm
      · exact h4 w hw (by omega) hm

theorem longestUpTo_none {n : Nat} (h : longestUpTo rules s n = none) :
    ∀ w, w <+: s → 0 < w.length → w.length ≤ n → firstMatch rules w = none := by
  induction n with
  | zero =>
    intro w _ h0 hw
    omega
  | succ n ih =>
    rw [longestUpTo] at h
    split at h
    next => cases h
    next hr =>
      intro w hw h0 hwn
      by_cases hlast : w.length = n + 1
      · rw [List.prefix_iff_eq_take.mp hw, hlast]
        exact hr
      · exact ih h w hw h0 (by omega)

theorem next_eq_some : next rules s = some t ↔ Longest rules s t := by
  constructor
  · intro h
    obtain ⟨h1, h2, h3, h4⟩ := longestUpTo_some le_rfl h
    exact ⟨h1, h2, h3, fun w hw => h4 w hw hw.length_le⟩
  · intro h
    cases hn : next rules s with
    | none =>
      have hfirst := longestUpTo_none hn t.text h.isPrefix h.pos h.isPrefix.length_le
      rw [h.first] at hfirst
      cases hfirst
    | some t' =>
      obtain ⟨h1, h2, h3, h4⟩ := longestUpTo_some le_rfl hn
      exact congrArg some (longest_unique ⟨h1, h2, h3, fun w hw => h4 w hw hw.length_le⟩ h)

theorem next_eq_none :
    next rules s = none ↔ ∀ w, w <+: s → 0 < w.length → firstMatch rules w = none := by
  constructor
  · intro h w hw h0
    exact longestUpTo_none h w hw h0 hw.length_le
  · intro h
    cases hn : next rules s with
    | none => rfl
    | some t =>
      have ht := next_eq_some.mp hn
      have hfirst := h t.text ht.isPrefix ht.pos
      rw [ht.first] at hfirst
      cases hfirst

@[simp] theorem tokens_nil : tokens rules [] = [] := rfl

/-- The number of turns makes no difference once it covers the text. -/
theorem tokensUpTo_eq_tokens {n : Nat} (hn : s.length ≤ n) :
    tokensUpTo rules n s = tokens rules s := by
  have key : ∀ m n (s : List α), s.length ≤ m → s.length ≤ n →
      tokensUpTo rules m s = tokensUpTo rules n s := by
    intro m
    induction m with
    | zero =>
      intro n s hm _
      obtain rfl : s = [] := List.length_eq_zero_iff.mp (by omega)
      cases n with
      | zero => rfl
      | succ n => rfl
    | succ m ih =>
      intro n s hm hn
      cases n with
      | zero =>
        obtain rfl : s = [] := List.length_eq_zero_iff.mp (by omega)
        rfl
      | succ n =>
        rw [tokensUpTo, tokensUpTo]
        cases hx : next rules s with
        | none => rfl
        | some t =>
          have ht := next_eq_some.mp hx
          have hle := ht.isPrefix.length_le
          have hpos := ht.pos
          have hdrop : (s.drop t.text.length).length = s.length - t.text.length :=
            List.length_drop
          exact congrArg (t :: ·) (ih n _ (by omega) (by omega))
  exact key n s.length s hn le_rfl

/-- One turn of the scanner. -/
theorem tokens_of_longest (h : Longest rules s t) (hs : s = t.text ++ r) :
    tokens rules s = t :: tokens rules r := by
  have hpos := h.pos
  have hlen : s.length = t.text.length + r.length := by rw [hs, List.length_append]
  obtain ⟨n, hn⟩ : ∃ n, s.length = n + 1 := ⟨s.length - 1, by omega⟩
  have hdrop : s.drop t.text.length = r := by rw [hs, List.drop_left]
  rw [tokens, hn, tokensUpTo, next_eq_some.mpr h]
  simp only [hdrop]
  rw [tokensUpTo_eq_tokens (by omega)]

theorem tokens_firstMatch (h : t ∈ tokens rules s) : firstMatch rules t.text = some t.rule := by
  have key : ∀ n (s : List α), t ∈ tokensUpTo rules n s →
      firstMatch rules t.text = some t.rule := by
    intro n
    induction n with
    | zero =>
      intro s h
      simp [tokensUpTo] at h
    | succ n ih =>
      intro s h
      rw [tokensUpTo] at h
      split at h
      next t' ht' =>
        rcases List.mem_cons.mp h with rfl | h
        · exact (next_eq_some.mp ht').first
        · exact ih _ h
      next => simp at h
  exact key s.length s h

theorem tokens_infix (h : t ∈ tokens rules s) : t.text <:+: s := by
  have key : ∀ n (s : List α), t ∈ tokensUpTo rules n s → t.text <:+: s := by
    intro n
    induction n with
    | zero =>
      intro s h
      simp [tokensUpTo] at h
    | succ n ih =>
      intro s h
      rw [tokensUpTo] at h
      split at h
      next t' ht' =>
        rcases List.mem_cons.mp h with rfl | h
        · exact (next_eq_some.mp ht').isPrefix.isInfix
        · exact (ih _ h).trans (List.drop_suffix _ _).isInfix
      next => simp at h
  exact key s.length s h

/-- A longest match that ends in a part of the text is the longest match there. -/
theorem Longest.front (h : Longest rules (s ++ r) t) (inside : t.text <+: s) :
    Longest rules s t :=
  ⟨inside, h.pos, h.first, fun w hw => h.greatest w (hw.trans (List.prefix_append s r))⟩

section barrier

/-- `c` can stand only at the front of a text that some rule matches. -/
def Opens (rules : List (Rule α ρ)) (c : α) : Prop :=
  ∀ w, firstMatch rules w ≠ none → c ∉ w.tail

variable {c : α} {g : List α}

/-- A match that begins before an opening symbol ends before it. -/
theorem prefix_of_opens (hc : Opens rules c) (hg : g ≠ []) {w : List α}
    (hw : w <+: g ++ c :: r) (hm : firstMatch rules w ≠ none) : w <+: g := by
  rcases List.prefix_or_prefix_of_prefix hw (List.prefix_append g (c :: r)) with h | h
  · exact h
  · obtain ⟨v, rfl⟩ := h
    cases v with
    | nil => simp
    | cons d v =>
      rw [List.prefix_append_right_inj, List.cons_prefix_cons] at hw
      obtain ⟨rfl, -⟩ := hw
      obtain ⟨a, g, rfl⟩ := List.exists_cons_of_ne_nil hg
      exact absurd (by simp) (hc _ hm)

theorem longest_append_opens (hc : Opens rules c) (hg : g ≠ []) :
    Longest rules (g ++ c :: r) t ↔ Longest rules g t := by
  constructor
  · intro h
    exact ⟨prefix_of_opens hc hg h.isPrefix (by simp [h.first]), h.pos, h.first,
      fun w hw => h.greatest w (hw.trans (List.prefix_append _ _))⟩
  · intro h
    exact ⟨h.isPrefix.trans (List.prefix_append _ _), h.pos, h.first,
      fun w hw hm => h.greatest w (prefix_of_opens hc hg hw hm) hm⟩

/-- A scanner whose rules match at the front of every text and that meets an opening symbol
starts a token there, whatever comes before it. -/
theorem tokens_append_opens (htotal : ∀ s : List α, s ≠ [] → next rules s ≠ none)
    (hc : Opens rules c) (g : List α) :
    tokens rules (g ++ c :: r) = tokens rules g ++ tokens rules (c :: r) := by
  induction hn : g.length using Nat.strong_induction_on generalizing g with
  | _ n ih =>
    by_cases hg : g = []
    · rw [hg, List.nil_append, tokens_nil, List.nil_append]
    · obtain ⟨t, ht⟩ := Option.ne_none_iff_exists'.mp (htotal g hg)
      have hlong := next_eq_some.mp ht
      obtain ⟨g', hg'⟩ := hlong.isPrefix
      have hpos := hlong.pos
      have hlen : g.length = t.text.length + g'.length := by rw [← hg', List.length_append]
      have hwhole := (longest_append_opens (r := r) hc hg).mpr hlong
      rw [tokens_of_longest hlong hg'.symm, List.cons_append, ← ih g'.length (by omega) g' rfl]
      exact tokens_of_longest hwhole (by rw [← List.append_assoc, hg'])

end barrier

end Lexer
