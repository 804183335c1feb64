import ArmRunner.LoadFormat
import ArmRunner.Loaded
import Mathlib.Order.Bounds.Basic

namespace ArmRunner

open CRun Slice

/-- The distance from `a` to `b` in 32-bit arithmetic. -/
def span (a b : Nat) : Nat := if a ≤ b then b - a else b + 2 ^ 32 - a

theorem span_eq (a b : UInt32) : (b - a).toNat = span a.toNat b.toNat := by
  have ha := a.toNat_lt
  have hb := b.toNat_lt
  rw [UInt32.toNat_sub, span]
  split <;> omega

def offsets (sectHeader : List Elf32Shdr) : List Nat :=
  sectHeader.map fun s => s.shOffset.toNat

/-- The offset that ends the extent of a section at offset `o` whose successor in index order
is at offset `next`: the least offset above `o`, if `next` is above `o`. -/
def follower (sectHeader : List Elf32Shdr) (o next : Nat) : Nat :=
  if o < next then (((offsets sectHeader).filter (o < ·)).min?).getD next else next

theorem follower_isLeast {sectHeader : List Elf32Shdr} {o next : Nat} (h : o < next)
    (hnext : next ∈ offsets sectHeader) :
    IsLeast {p | p ∈ offsets sectHeader ∧ o < p} (follower sectHeader o next) := by
  have hmem : next ∈ (offsets sectHeader).filter (o < ·) :=
    List.mem_filter.mpr ⟨hnext, by simpa using h⟩
  rw [follower, if_pos h]
  cases hmin : ((offsets sectHeader).filter (o < ·)).min? with
  | none =>
    rw [List.min?_eq_none_iff.mp hmin] at hmem
    cases hmem
  | some m =>
    obtain ⟨hm, least⟩ := List.min?_eq_some_iff.mp hmin
    obtain ⟨hmo, hom⟩ := List.mem_filter.mp hm
    refine ⟨⟨hmo, by simpa using hom⟩, ?_⟩
    intro p hp
    exact least p (List.mem_filter.mpr ⟨hp.1, by simpa using hp.2⟩)

/-- What holds of the section `sv` that the scan has chosen when it has passed `j` sections. -/
structure Closest (sectHeader : List Elf32Shdr) (s t sv : Elf32Shdr) (j : Nat) : Prop where
  unchanged : t.shOffset.toNat ≤ s.shOffset.toNat → sv.shOffset = t.shOffset
  above : s.shOffset.toNat < t.shOffset.toNat → s.shOffset.toNat < sv.shOffset.toNat
  least : s.shOffset.toNat < t.shOffset.toNat → ∀ (k : Nat) (u : Elf32Shdr), k < j →
    sectHeader[k]? = some u → s.shOffset.toNat < u.shOffset.toNat →
    sv.shOffset.toNat ≤ u.shOffset.toNat

theorem closest_step {sectHeader : List Elf32Shdr} {s t sv u : Elf32Shdr} {j : Nat}
    (h : Closest sectHeader s t sv j) (hu : sectHeader[j]? = some u) :
    Closest sectHeader s t
      (if u.shOffset > s.shOffset ∧ u.shOffset < sv.shOffset then u else sv) (j + 1) := by
  by_cases closer : u.shOffset > s.shOffset ∧ u.shOffset < sv.shOffset
  · have gt : s.shOffset.toNat < u.shOffset.toNat := UInt32.lt_iff_toNat_lt.mp closer.1
    have lt : u.shOffset.toNat < sv.shOffset.toNat := UInt32.lt_iff_toNat_lt.mp closer.2
    rw [if_pos closer]
    refine ⟨?_, fun _ => gt, ?_⟩
    · intro le
      rw [h.unchanged le] at lt
      omega
    · intro hst k w hk hw hsw
      by_cases hkj : k = j
      · subst hkj
        cases Option.some.inj (hu.symm.trans hw)
        exact Nat.le_refl _
      · have := h.least hst k w (by omega) hw hsw
        omega
  · rw [if_neg closer]
    refine ⟨h.unchanged, h.above, ?_⟩
    intro hst k w hk hw hsw
    by_cases hkj : k = j
    · subst hkj
      cases Option.some.inj (hu.symm.trans hw)
      by_contra hlt
      exact closer ⟨UInt32.lt_iff_toNat_lt.mpr hsw, UInt32.lt_iff_toNat_lt.mpr (by omega)⟩
    · exact h.least hst k w (by omega) hw hsw

/-- The scan finds a section at the offset where the extent of section `i` ends. -/
theorem nextSection_eq {sectHeader : List Elf32Shdr} {i : Nat} {s t : Elf32Shdr}
    (hs : sectHeader[i]? = some s) (ht : sectHeader[i + 1]? = some t) :
    ∃ val sv, nextSection sectHeader sectHeader.length i = .ok val ∧
      sectHeader[val]? = some sv ∧
      sv.shOffset.toNat = follower sectHeader s.shOffset.toNat t.shOffset.toNat := by
  have run : ∃ val, nextSection sectHeader sectHeader.length i = .ok val ∧
      ∃ sv, sectHeader[val]? = some sv ∧ Closest sectHeader s t sv (0 + sectHeader.length) := by
    unfold nextSection
    apply forLoop_total (I := fun j val =>
      ∃ sv, sectHeader[val]? = some sv ∧ Closest sectHeader s t sv j)
    · exact ⟨t, ht, fun _ => rfl, fun above => above, fun _ _ _ hk => absurd hk (by omega)⟩
    · intro j val _ hj hinv
      obtain ⟨sv, hv, closest⟩ := hinv
      have hsj : sectHeader[j]? = some sectHeader[j] := List.getElem?_eq_getElem (by omega)
      refine ⟨_, by rw [fetch_eq_ok.mpr hsj, ok_bind, fetch_eq_ok.mpr hs, ok_bind,
        fetch_eq_ok.mpr hv, ok_bind], _, ?_, closest_step closest hsj⟩
      split
      · exact hsj
      · exact hv
  obtain ⟨val, hrun, sv, hv, closest⟩ := run
  refine ⟨val, sv, hrun, hv, ?_⟩
  by_cases hst : s.shOffset.toNat < t.shOffset.toNat
  · have hmem (k : Nat) (u : Elf32Shdr) (hu : sectHeader[k]? = some u) :
        u.shOffset.toNat ∈ offsets sectHeader :=
      List.mem_map_of_mem (List.mem_of_getElem? hu)
    have least := follower_isLeast hst (hmem _ t ht)
    have found : IsLeast {p | p ∈ offsets sectHeader ∧ s.shOffset.toNat < p}
        sv.shOffset.toNat := by
      refine ⟨⟨hmem _ sv hv, closest.above hst⟩, ?_⟩
      rintro p ⟨hp, hsp⟩
      obtain ⟨u, hu, rfl⟩ := List.mem_map.mp hp
      obtain ⟨k, hk⟩ := List.mem_iff_getElem?.mp hu
      exact closest.least hst k u (by simpa using (List.getElem?_eq_some_iff.mp hk).1) hk hsp
    exact found.unique least
  · rw [follower, if_neg hst, closest.unchanged (by omega)]

/-- The number of bytes that the loader takes for section `i`, given by the offsets alone. -/
def extent (header : Elf32Ehdr) (sectHeader : List Elf32Shdr) (i : Nat) (s : Elf32Shdr) : Nat :=
  if i + 1 < header.eShnum.toNat then
    if s.isRel then s.shSize.toNat
    else span s.shOffset.toNat (follower sectHeader s.shOffset.toNat
      ((sectHeader[i + 1]?).elim 0 fun t => t.shOffset.toNat))
  else span s.shOffset.toNat header.eShoff.toNat

/-- The bytes that the loader takes for section `i` exist, and are few enough for an `int`. -/
structure Readable (file : List UInt8) (header : Elf32Ehdr) (sectHeader : List Elf32Shdr)
    (i : Nat) (s : Elf32Shdr) : Prop where
  nonempty : 0 < extent header sectHeader i s
  inFile : s.shOffset.toNat + extent header sectHeader i s ≤ file.length
  small : i + 1 < header.eShnum.toNat → extent header sectHeader i s < 2 ^ 31

def contentAt (file : List UInt8) (header : Elf32Ehdr) (sectHeader : List Elf32Shdr) (i : Nat)
    (s : Elf32Shdr) : SectionContent :=
  if s.shSize = 0 then ⟨0, []⟩
  else
    ⟨asInt (UInt32.ofNat (extent header sectHeader i s)),
      slice file s.shOffset.toNat (s.shOffset.toNat + extent header sectHeader i s)⟩

section contents

variable {file : List UInt8} {header : Elf32Ehdr} {sectHeader : List Elf32Shdr}

theorem readable_inner {i : Nat} {s : Elf32Shdr} (hi : i + 1 < header.eShnum.toNat) :
    Readable file header sectHeader i s ↔ 0 < extent header sectHeader i s ∧
      s.shOffset.toNat + extent header sectHeader i s ≤ file.length ∧
      extent header sectHeader i s < 2 ^ 31 := by
  constructor
  · intro h
    exact ⟨h.nonempty, h.inFile, h.small hi⟩
  · rintro ⟨positive, fits, small⟩
    exact ⟨positive, fits, fun _ => small⟩

theorem readable_last {i : Nat} {s : Elf32Shdr} (hi : ¬i + 1 < header.eShnum.toNat) :
    Readable file header sectHeader i s ↔ 0 < extent header sectHeader i s ∧
      s.shOffset.toNat + extent header sectHeader i s ≤ file.length := by
  constructor
  · intro h
    exact ⟨h.nonempty, h.inFile⟩
  · rintro ⟨positive, fits⟩
    exact ⟨positive, fits, fun h => absurd h hi⟩

theorem readBytes_eq_slice {f f' : CFile} {n : Nat} {bs : List UInt8} :
    readBytes f n = .ok (bs, f') ↔ 0 < n ∧ f.pos + n ≤ f.bytes.length ∧
      bs = slice f.bytes f.pos (f.pos + n) ∧ f' = ⟨f.bytes, f.pos + n⟩ := by
  rw [readBytes_eq_ok, CFile.fread_eq_some, Nat.pos_iff_ne_zero]

theorem readContent_eq_ok {f f' : CFile} {n : Nat} {size : Int} {c : SectionContent} :
    (do
      let (bytes, f) ← readBytes f n
      (.ok (⟨size, bytes⟩, f) : Run (SectionContent × CFile))) = .ok (c, f') ↔
      (0 < n ∧ f.pos + n ≤ f.bytes.length) ∧ c = ⟨size, slice f.bytes f.pos (f.pos + n)⟩ ∧
        f' = ⟨f.bytes, f.pos + n⟩ := by
  constructor
  · intro h
    obtain ⟨⟨bytes, g⟩, hr, h⟩ := bind_eq_ok.mp h
    obtain ⟨positive, fits, rfl, rfl⟩ := readBytes_eq_slice.mp hr
    cases h
    exact ⟨⟨positive, fits⟩, rfl, rfl⟩
  · rintro ⟨⟨positive, fits⟩, rfl, rfl⟩
    rw [readBytes_eq_slice.mpr ⟨positive, fits, rfl, rfl⟩, ok_bind]

theorem extent_inner {i : Nat} {s sv : Elf32Shdr} (hi : i + 1 < header.eShnum.toNat)
    (hv : sv.shOffset.toNat = follower sectHeader s.shOffset.toNat
      ((sectHeader[i + 1]?).elim 0 fun t => t.shOffset.toNat)) :
    (if s.shType = shtRel then s.shSize else sv.shOffset - s.shOffset).toNat =
      extent header sectHeader i s := by
  by_cases hrel : s.shType = shtRel
  · simp [extent, hi, Elf32Shdr.isRel, hrel]
  · simp [extent, hi, Elf32Shdr.isRel, hrel, span_eq, hv]

theorem extent_last {i : Nat} {s : Elf32Shdr} (hi : ¬i + 1 < header.eShnum.toNat) :
    (header.eShoff - s.shOffset).toNat = extent header sectHeader i s := by
  rw [extent, if_neg hi, span_eq]

theorem extent_word (full : sectHeader.length = header.eShnum.toNat) {i : Nat} {s : Elf32Shdr}
    (hs : sectHeader[i]? = some s) :
    ∃ amount : UInt32, amount.toNat = extent header sectHeader i s := by
  by_cases hi : i + 1 < header.eShnum.toNat
  · have next : sectHeader[i + 1]? = some sectHeader[i + 1] :=
      List.getElem?_eq_getElem (by omega)
    obtain ⟨_, sv, _, _, hoff⟩ := nextSection_eq hs next
    exact ⟨_, extent_inner (s := s) hi (hoff.trans (by rw [next]; rfl))⟩
  · exact ⟨_, extent_last hi⟩

/-- One turn returns exactly when the section is empty or its bytes can be read. -/
theorem loadOneContent_eq_ok (full : sectHeader.length = header.eShnum.toNat) {i : Nat}
    {s : Elf32Shdr} (hs : sectHeader[i]? = some s) {f f' : CFile} {c : SectionContent} :
    loadOneContent header sectHeader i f = .ok (c, f') ↔
      (s.shSize ≠ 0 → Readable f.bytes header sectHeader i s) ∧
      c = contentAt f.bytes header sectHeader i s ∧
      f' = if s.shSize = 0 then f
        else ⟨f.bytes, s.shOffset.toNat + extent header sectHeader i s⟩ := by
  rw [loadOneContent, fetch_eq_ok.mpr hs, ok_bind, contentAt]
  by_cases empty : s.shSize = 0
  · simp [empty, eq_comm]
  rw [if_neg empty, if_neg empty, if_neg empty, CFile.fseek_natCast]
  dsimp only
  by_cases hi : i + 1 < header.eShnum.toNat
  · have next : sectHeader[i + 1]? = some sectHeader[i + 1] :=
      List.getElem?_eq_getElem (by omega)
    obtain ⟨val, sv, hscan, hv, hoff⟩ := nextSection_eq hs next
    have size := extent_inner (s := s) hi (hoff.trans (by rw [next]; rfl))
    rw [if_pos hi, ← full, hscan, ok_bind, fetch_eq_ok.mpr hv, ok_bind]
    generalize (if s.shType = shtRel then s.shSize else sv.shOffset - s.shOffset) = amount at size ⊢
    have word : UInt32.ofNat (extent header sectHeader i s) = amount := by
      rw [← size, UInt32.ofNat_toNat]
    rw [word, ← size]
    by_cases small : amount.toNat < 2 ^ 31
    · have value := asInt_of_lt small
      rw [if_neg (by omega), readContent_eq_ok, readable_inner hi, ← size, value,
        Int.toNat_natCast]
      simp only [empty, small, ne_eq, not_false_eq_true, forall_const, and_true]
    · have negative : asInt amount < 0 := by
        have := asInt_nonneg_iff (x := amount)
        omega
      rw [if_pos negative]
      constructor
      · intro h
        cases h
      · rintro ⟨readable, _⟩
        exact absurd (size ▸ (readable empty).small hi) small
  · have size : (header.eShoff - s.shOffset).toNat = extent header sectHeader i s :=
      extent_last hi
    have word : UInt32.ofNat (extent header sectHeader i s) = header.eShoff - s.shOffset := by
      rw [← size, UInt32.ofNat_toNat]
    rw [if_neg hi, readContent_eq_ok, readable_last hi, word, ← size]
    simp only [empty, ne_eq, not_false_eq_true, forall_const]

theorem loadSectionContent_returned (full : sectHeader.length = header.eShnum.toNat)
    {f f' : CFile} {content : List SectionContent}
    (h : loadSectionContent f header sectHeader = .ok (content, f')) {i : Nat} {s : Elf32Shdr}
    (hs : sectHeader[i]? = some s) :
    (s.shSize ≠ 0 → Readable f.bytes header sectHeader i s) ∧
      content[i]? = some (contentAt f.bytes header sectHeader i s) := by
  have hi := (List.getElem?_eq_some_iff.mp hs).1
  obtain ⟨_, each⟩ := collect_invariant (I := fun g : CFile => g.bytes = f.bytes)
    (P := fun k c => ∀ s, sectHeader[k]? = some s →
      (s.shSize ≠ 0 → Readable f.bytes header sectHeader k s) ∧
      c = contentAt f.bytes header sectHeader k s) h (CFile.fseek_bytes f _) (by
    intro k g c g' _ hk hg hread
    have hk' : k < sectHeader.length := by omega
    obtain ⟨readable, hc, hg'⟩ :=
      (loadOneContent_eq_ok full (List.getElem?_eq_getElem hk')).mp hread
    refine ⟨?_, ?_⟩
    · rw [hg']
      split
      · exact hg
      · exact hg
    · intro s hs
      cases Option.some.inj ((List.getElem?_eq_getElem hk').symm.trans hs)
      rw [← hg]
      exact ⟨readable, hc⟩)
  have hc : i < content.length := by rwa [collect_length h, ← full]
  have here : content[i]? = some content[i] := List.getElem?_eq_getElem hc
  have at_i := each i content[i] here
  rw [Nat.zero_add] at at_i
  obtain ⟨readable, value⟩ := at_i s hs
  exact ⟨readable, here.trans (congrArg some value)⟩

theorem loadSectionContent_returns (full : sectHeader.length = header.eShnum.toNat) {f : CFile}
    (readable : ∀ i s, sectHeader[i]? = some s → s.shSize ≠ 0 →
      Readable f.bytes header sectHeader i s) :
    ∃ content f', loadSectionContent f header sectHeader = .ok (content, f') ∧
      f'.bytes = f.bytes := by
  apply collect_total (I := fun g : CFile => g.bytes = f.bytes) (CFile.fseek_bytes f _)
  intro k g _ hk hg
  have hs : sectHeader[k]? = some sectHeader[k] := List.getElem?_eq_getElem (by omega)
  refine ⟨_, _, (loadOneContent_eq_ok full hs).mpr ⟨?_, rfl, rfl⟩, ?_⟩
  · rw [hg]
    exact readable k _ hs
  · split
    · exact hg
    · exact hg

end contents

end ArmRunner
