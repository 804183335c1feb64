import ArmRunner.Lib.ArrayLoop
import ArmRunner.Lib.SortedTable
import Mathlib.Data.UInt

namespace ArmRunner

open CRun SortedTable

def maxFilesNumber : Nat := 64

/-- A string in memory: its bytes up to the NUL. -/
structure CString where
  text : List UInt8
  noNul : 0 ∉ text
  deriving DecidableEq

/-- The difference of the first bytes that differ, as unsigned characters. A string that ends has
its NUL there. -/
def compareBytes : List UInt8 → List UInt8 → Int
  | [], [] => 0
  | [], b :: _ => 0 - b.toNat
  | a :: _, [] => a.toNat
  | a :: as, b :: bs => if a = b then compareBytes as bs else a.toNat - b.toNat

def strcmp (s t : CString) : Int := compareBytes s.text t.text

/-- `debugged_files`, with `none` for NULL, and `nb_debugged_files`. -/
structure DebugFiles where
  debuggedFiles : List (Option CString)
  nbDebuggedFiles : Nat
  deriving DecidableEq

/-- The variables as they are before the first call. -/
def noDebugFiles : DebugFiles := ⟨List.replicate maxFilesNumber none, 0⟩

/-- `strcmp(debugged_files[i], name)`, which dereferences the entry. -/
def DebugFiles.compare (s : DebugFiles) (name : CString) (i : Int) : Run Int := do
  match ← fetchInt s.debuggedFiles i with
  | some file => .ok (strcmp file name)
  | none => .error .fault

/-- The first loop of `add_debug_to` from `i` on, which is `n` short of `MAX_FILES_NUMBER`. -/
def DebugFiles.seek (s : DebugFiles) (name : CString) : Nat → Nat → Run Nat
  | 0, i => .ok i
  | n + 1, i =>
    if i < s.nbDebuggedFiles then do
      let result ← s.compare name i
      if result < 0 then s.seek name n (i + 1) else .ok i
    else .ok i

def addDebugTo (s : DebugFiles) (name : CString) : Run DebugFiles := do
  let i ← s.seek name maxFilesNumber 0
  if maxFilesNumber ≤ i then .ok s
  else do
    let files ← shiftUp i (s.nbDebuggedFiles - i) s.debuggedFiles
    let files ← assign files i (some name)
    .ok ⟨files, s.nbDebuggedFiles + 1⟩

/-- The interval begins at 0, so that the sum of its ends is halved as `/` does in C. -/
def isDebugged (s : DebugFiles) (name : CString) : Run Int := do
  let found ← bisect (s.compare name) 0 (s.nbDebuggedFiles - 1)
  .ok (if found then 1 else 0)

/-- The calls of `add_debug_to` in their order. -/
def addAll (names : List CString) : Run DebugFiles := names.foldlM addDebugTo noDebugFiles

section strcmp

theorem compareBytes_self (as : List UInt8) : compareBytes as as = 0 := by
  induction as with
  | nil => rfl
  | cons a as ih => rw [compareBytes, if_pos rfl, ih]

theorem compareBytes_neg (as bs : List UInt8) : compareBytes bs as = -compareBytes as bs := by
  induction as generalizing bs with
  | nil =>
    cases bs with
    | nil => rfl
    | cons b bs => simp [compareBytes]
  | cons a as ih =>
    cases bs with
    | nil => simp [compareBytes]
    | cons b bs =>
      rw [compareBytes, compareBytes]
      by_cases same : a = b
      · rw [if_pos same, if_pos same.symm, ih]
      · rw [if_neg same, if_neg (Ne.symm same)]
        omega

/-- On strings without a NUL inside, the comparison is the lexicographic order of the bytes. -/
theorem compareBytes_lt_iff {as bs : List UInt8} (hb : 0 ∉ bs) :
    compareBytes as bs < 0 ↔ as < bs := by
  induction as generalizing bs with
  | nil =>
    cases bs with
    | nil => simp [compareBytes]
    | cons b bs =>
      have positive : 0 < b.toNat :=
        UInt8.lt_iff_toNat_lt.mp (UInt8.pos_iff_ne_zero.mpr (List.ne_of_not_mem_cons hb).symm)
      refine iff_of_true ?_ (List.nil_lt_cons b bs)
      simp only [compareBytes]
      omega
  | cons a as ih =>
    cases bs with
    | nil =>
      refine iff_of_false ?_ (List.not_lt_nil _)
      simp only [compareBytes]
      omega
    | cons b bs =>
      rw [compareBytes, List.cons_lt_cons_iff]
      by_cases same : a = b
      · rw [if_pos same, ih (List.not_mem_of_not_mem_cons hb), same]
        simp
      · rw [if_neg same, UInt8.lt_iff_toNat_lt]
        simp only [same, false_and, or_false]
        omega

theorem compareBytes_zero {as bs : List UInt8} (ha : 0 ∉ as) (hb : 0 ∉ bs) :
    compareBytes as bs = 0 ↔ as = bs := by
  constructor
  · intro zero
    have back := compareBytes_neg as bs
    have above : ¬as < bs := by
      rw [← compareBytes_lt_iff hb]
      omega
    have below : ¬bs < as := by
      rw [← compareBytes_lt_iff ha]
      omega
    exact List.le_antisymm below above
  · rintro rfl
    exact compareBytes_self as

theorem compareBytes_trans {as bs cs : List UInt8} (hb : 0 ∉ bs) (hc : 0 ∉ cs)
    (hab : compareBytes as bs < 0) (hbc : compareBytes bs cs < 0) : compareBytes as cs < 0 := by
  rw [compareBytes_lt_iff hb] at hab
  rw [compareBytes_lt_iff hc] at hbc ⊢
  exact List.lt_trans hab hbc

theorem strcmp_comparison : Comparison strcmp := by
  refine ⟨?_, ?_, ?_⟩
  · intro s t
    rw [strcmp, compareBytes_zero s.noNul t.noNul]
    cases s
    cases t
    simp
  · intro s t
    have := compareBytes_neg s.text t.text
    unfold strcmp
    omega
  · intro s t u
    exact compareBytes_trans t.noNul u.noNul

end strcmp

section table

variable {s : DebugFiles} {t : List CString} {x : CString} {names : List CString}

/-- The entries in use are the names of the table. -/
structure Holds (s : DebugFiles) (t : List CString) : Prop where
  capacity : s.debuggedFiles.length = maxFilesNumber
  count : s.nbDebuggedFiles = t.length
  used : s.debuggedFiles.take t.length = t.map some

theorem holds_noDebugFiles : Holds noDebugFiles [] := ⟨rfl, rfl, rfl⟩

theorem Holds.length_le (h : Holds s t) : t.length ≤ maxFilesNumber := by
  have := congrArg List.length h.used
  rw [List.length_take, List.length_map, h.capacity] at this
  omega

theorem Holds.split (h : Holds s t) :
    ∃ free, s.debuggedFiles = t.map some ++ free ∧ t.length + free.length = maxFilesNumber := by
  refine ⟨s.debuggedFiles.drop t.length, ?_, ?_⟩
  · rw [← h.used, List.take_append_drop]
  · have := h.length_le
    rw [List.length_drop, h.capacity]
    omega

theorem Holds.compare (h : Holds s t) {k : Nat} {y : CString} (hk : t[k]? = some y)
    (x : CString) : s.compare x k = .ok (strcmp y x) := by
  obtain ⟨free, split, -⟩ := h.split
  have inside := (List.getElem?_eq_some_iff.mp hk).1
  have read : fetch s.debuggedFiles k = .ok (some y) := by
    rw [fetch_eq_ok, split, List.getElem?_append_left (by simpa using inside), List.getElem?_map,
      hk, Option.map_some]
  rw [DebugFiles.compare, fetchInt_natCast, read, ok_bind]

/-- The loop stops behind the entries that come before the name. -/
theorem Holds.seek_from (h : Holds s t) (x : CString) (done todo : List CString)
    (parts : t = done ++ todo) : s.seek x (maxFilesNumber - done.length) done.length =
      .ok (done.length + rank strcmp x todo) := by
  have room := h.length_le
  induction todo generalizing done with
  | nil =>
    have ends : ¬done.length < s.nbDebuggedFiles := by
      rw [h.count, parts]
      simp
    cases maxFilesNumber - done.length with
    | zero => rfl
    | succ n =>
      rw [DebugFiles.seek, if_neg ends]
      rfl
  | cons y todo ih =>
    have here : t[done.length]? = some y := by simp [parts]
    have more : done.length < t.length := by simp [parts]
    obtain ⟨n, hn⟩ : ∃ n, maxFilesNumber - done.length = n + 1 :=
      ⟨maxFilesNumber - done.length - 1, by omega⟩
    rw [hn, DebugFiles.seek, if_pos (by rw [h.count]; exact more), h.compare here, ok_bind, rank,
      List.takeWhile_cons]
    by_cases before : strcmp y x < 0
    · have rest := ih (done ++ [y]) (by simp [parts])
      rw [List.length_append, List.length_singleton,
        show maxFilesNumber - (done.length + 1) = n by omega] at rest
      rw [if_pos before, if_pos (by simpa using before), rest, rank, List.length_cons]
      congr 1
      omega
    · rw [if_neg before, if_neg (by simpa using before)]
      rfl

theorem Holds.seek (h : Holds s t) (x : CString) :
    s.seek x maxFilesNumber 0 = .ok (rank strcmp x t) := by
  simpa using h.seek_from x [] t rfl

/-- While there is room, a call inserts the name at its place. -/
theorem addDebugTo_room (h : Holds s t) (room : t.length < maxFilesNumber) (x : CString) :
    ∃ s', addDebugTo s x = .ok s' ∧ Holds s' (place strcmp x t) := by
  obtain ⟨free, split, total⟩ := h.split
  obtain ⟨slot, free, rfl⟩ : ∃ slot rest, free = slot :: rest :=
    List.exists_cons_of_ne_nil (by rintro rfl; simp at total; omega)
  have behind : rank strcmp x t ≤ t.length := rank_le x t
  have placed := place_eq strcmp_comparison x t
  generalize hr : rank strcmp x t = r at behind placed
  have front : ((t.take r).map some).length = r := by simp; omega
  -- the entries from the rank on move up, and the name goes where they began
  have moved : ∃ old, shiftUp r (s.nbDebuggedFiles - r) s.debuggedFiles =
      .ok ((t.take r).map some ++ old :: (t.drop r).map some ++ free) := by
    have parts : s.debuggedFiles =
        (t.take r).map some ++ ((t.drop r).map some ++ slot :: free) := by
      rw [split, ← List.append_assoc, ← List.map_append, List.take_append_drop]
    have moves : s.nbDebuggedFiles - r = (t.drop r).length := by rw [h.count, List.length_drop]
    rw [moves, parts]
    cases t.drop r with
    | nil => exact ⟨slot, by simp [shiftUp]⟩
    | cons y rest =>
      have run := shiftUp_append ((t.take r).map some) (rest.map some) free (some y) slot
      rw [front, List.length_map] at run
      exact ⟨some y, by simpa using run⟩
  obtain ⟨old, moved⟩ := moved
  have stored : assign ((t.take r).map some ++ old :: (t.drop r).map some ++ free) r (some x) =
      .ok ((place strcmp x t).map some ++ free) := by
    have run := assign_append_cons ((t.take r).map some) ((t.drop r).map some ++ free) old (some x)
    rw [front] at run
    simpa [placed] using run
  refine ⟨⟨(place strcmp x t).map some ++ free, s.nbDebuggedFiles + 1⟩, ?_, ?_, ?_, ?_⟩
  · rw [addDebugTo, h.seek, ok_bind, hr, if_neg (by omega), moved, ok_bind, stored, ok_bind]
  · rw [List.length_append, List.length_map, place_length]
    rw [List.length_cons] at total
    omega
  · rw [place_length, h.count]
  · exact List.take_left' (by simp)

/-- A full table takes no name that sorts behind all of its entries. -/
theorem addDebugTo_behind (h : Holds s t) (full : t.length = maxFilesNumber)
    (behind : ∀ y ∈ t, strcmp y x < 0) : addDebugTo s x = .ok s := by
  rw [addDebugTo, h.seek, ok_bind, rank_eq_length.mpr behind, if_pos full.ge]

/-- Any other name moves the last entry of a full table behind its end. -/
theorem addDebugTo_full (h : Holds s t) (full : t.length = maxFilesNumber)
    (early : ¬∀ y ∈ t, strcmp y x < 0) : addDebugTo s x = .error .fault := by
  have behind : rank strcmp x t ≤ t.length := rank_le x t
  have inside : rank strcmp x t ≠ t.length := fun last => early (rank_eq_length.mp last)
  obtain ⟨k, hk⟩ : ∃ k, s.nbDebuggedFiles - rank strcmp x t = k + 1 :=
    ⟨s.nbDebuggedFiles - rank strcmp x t - 1, by rw [h.count]; omega⟩
  have count := h.count
  rw [addDebugTo, h.seek, ok_bind, if_neg (by omega), hk,
    shiftUp_full _ _ (by rw [h.capacity]; omega), error_bind]

theorem isDebugged_spec (h : Holds s t) (sorted : Ascending strcmp t) (x : CString) :
    isDebugged s x = .ok (if x ∈ t then 1 else 0) := by
  have reads (k : Nat) (y : CString) (hk : t[k]? = some y) := h.compare hk x
  obtain ⟨sign, guides, found_iff⟩ := guides_table strcmp_comparison sorted x reads
  obtain ⟨found, run, iff⟩ := bisect_spec guides
  rw [isDebugged, h.count, run, ok_bind]
  simp only [iff.trans found_iff]

theorem addAll_append (names : List CString) (x : CString) :
    addAll (names ++ [x]) = addAll names >>= fun s => addDebugTo s x := by
  rw [addAll, List.foldlM_append]
  exact congrArg (addAll names >>= ·) (funext fun s => bind_pure (addDebugTo s x))

/-- Up to the capacity, every call adds its name. -/
theorem addAll_few (few : names.length ≤ maxFilesNumber) :
    ∃ s t, addAll names = .ok s ∧ Holds s t ∧ Ascending strcmp t ∧ t.Perm names := by
  induction names using List.reverseRecOn with
  | nil => exact ⟨noDebugFiles, [], rfl, holds_noDebugFiles, List.Pairwise.nil, List.Perm.refl _⟩
  | append_singleton names x ih =>
    rw [List.length_append, List.length_singleton] at few
    obtain ⟨s, t, run, held, sorted, perm⟩ := ih (by omega)
    have length := perm.length_eq
    obtain ⟨s', turn, held'⟩ := addDebugTo_room held (by omega) x
    refine ⟨s', place strcmp x t, ?_, held', place_ascending strcmp_comparison sorted x, ?_⟩
    · rw [addAll_append, run, ok_bind, turn]
    · exact (place_perm x t).trans ((perm.cons x).trans (List.perm_append_singleton x names).symm)

/-- The table is sorted, holds the names with their multiplicities, and is searched for exactly
these. -/
theorem addAll_lookup (names : List CString) (few : names.length ≤ maxFilesNumber) :
    ∃ s t, addAll names = .ok s ∧ s.debuggedFiles.take s.nbDebuggedFiles = t.map some ∧
      s.nbDebuggedFiles = names.length ∧ Ascending strcmp t ∧ t.Perm names ∧
      ∀ x, isDebugged s x = .ok (if x ∈ names then 1 else 0) := by
  obtain ⟨s, t, run, held, sorted, perm⟩ := addAll_few few
  refine ⟨s, t, run, ?_, ?_, sorted, perm, ?_⟩
  · rw [held.count, held.used]
  · rw [held.count, perm.length_eq]
  · intro x
    rw [isDebugged_spec held sorted x]
    simp only [perm.mem_iff]

theorem addAll_lookup_twice :
    ∃ s t, addAll [⟨[0x62], by decide⟩, ⟨[0x61], by decide⟩, ⟨[0x62], by decide⟩] = .ok s ∧
      s.debuggedFiles.take s.nbDebuggedFiles = t.map some ∧ s.nbDebuggedFiles = 3 ∧
      Ascending strcmp t ∧
      t.Perm [⟨[0x62], by decide⟩, ⟨[0x61], by decide⟩, ⟨[0x62], by decide⟩] ∧
      ∀ x, isDebugged s x = .ok (if x ∈
        [(⟨[0x62], by decide⟩ : CString), ⟨[0x61], by decide⟩, ⟨[0x62], by decide⟩]
        then 1 else 0) :=
  addAll_lookup _ (by decide)

/-- After every call the table is within its capacity, and no call has stored behind its end. -/
def WithinCapacity (names : List CString) : Prop :=
  ∀ calls, calls <+: names → ∃ s, addAll calls = .ok s ∧ s.nbDebuggedFiles ≤ maxFilesNumber

/-- Once the table is full, it stays as it is, as long as each name sorts behind it. -/
theorem addAll_full {early late : List CString} (run : addAll early = .ok s) (held : Holds s t)
    (full : t.length = maxFilesNumber) :
    (∃ s', addAll (early ++ late) = .ok s') ↔ ∀ x ∈ late, ∀ y ∈ t, strcmp y x < 0 := by
  have unchanged (late : List CString) (behind : ∀ x ∈ late, ∀ y ∈ t, strcmp y x < 0) :
      addAll (early ++ late) = .ok s := by
    induction late using List.reverseRecOn with
    | nil => rwa [List.append_nil]
    | append_singleton late x ih =>
      rw [← List.append_assoc, addAll_append, ih fun y hy => behind y (by simp [hy]), ok_bind]
      exact addDebugTo_behind held full (behind x (by simp))
  constructor
  · induction late using List.reverseRecOn with
    | nil => simp
    | append_singleton late x ih =>
      rintro ⟨s', all⟩
      rw [← List.append_assoc, addAll_append] at all
      obtain ⟨s'', first, last⟩ := bind_eq_ok.mp all
      have before := ih ⟨s'', first⟩
      rw [unchanged late before] at first
      cases first
      have behind : ∀ y ∈ t, strcmp y x < 0 := by
        by_contra early
        rw [addDebugTo_full held full early] at last
        cases last
      intro z hz
      rcases List.mem_append.mp hz with hz | hz
      · exact before z hz
      · rwa [List.mem_singleton.mp hz]
  · intro behind
    exact ⟨s, unchanged late behind⟩

theorem addAll_returns_iff : (∃ s, addAll names = .ok s) ↔
    ∀ x ∈ names.drop maxFilesNumber, ∀ y ∈ names.take maxFilesNumber, strcmp y x < 0 := by
  have few : (names.take maxFilesNumber).length ≤ maxFilesNumber := List.length_take_le _ _
  obtain ⟨s, t, run, held, -, perm⟩ := addAll_few few
  by_cases many : maxFilesNumber ≤ names.length
  · have full : t.length = maxFilesNumber := by
      rw [perm.length_eq, List.length_take]
      omega
    conv_lhs => rw [← List.take_append_drop maxFilesNumber names]
    simp only [addAll_full run held full, perm.mem_iff]
  · rw [List.take_of_length_le (by omega)] at run
    rw [List.drop_of_length_le (by omega)]
    simp [run]

theorem addDebugTo_held {s' : DebugFiles} (h : Holds s t) (run : addDebugTo s x = .ok s') :
    ∃ t', Holds s' t' := by
  by_cases room : t.length < maxFilesNumber
  · obtain ⟨s'', turn, held⟩ := addDebugTo_room h room x
    cases turn.symm.trans run
    exact ⟨_, held⟩
  · have full : t.length = maxFilesNumber := le_antisymm h.length_le (by omega)
    by_cases behind : ∀ y ∈ t, strcmp y x < 0
    · cases (addDebugTo_behind h full behind).symm.trans run
      exact ⟨t, h⟩
    · cases (addDebugTo_full h full behind).symm.trans run

theorem addAll_held (run : addAll names = .ok s) : ∃ t, Holds s t := by
  induction names using List.reverseRecOn generalizing s with
  | nil =>
    cases run
    exact ⟨[], holds_noDebugFiles⟩
  | append_singleton names x ih =>
    rw [addAll_append] at run
    obtain ⟨s', before, turn⟩ := bind_eq_ok.mp run
    obtain ⟨t, held⟩ := ih before
    exact addDebugTo_held held turn

theorem withinCapacity_iff_returns : WithinCapacity names ↔ ∃ s, addAll names = .ok s := by
  constructor
  · intro within
    obtain ⟨s, run, -⟩ := within names List.prefix_rfl
    exact ⟨s, run⟩
  · rintro ⟨s, run⟩ calls ⟨more, rfl⟩
    rw [addAll, List.foldlM_append] at run
    obtain ⟨s', first, -⟩ := bind_eq_ok.mp run
    obtain ⟨t, held⟩ := addAll_held first
    exact ⟨s', first, held.count.le.trans held.length_le⟩

/-- The table keeps to its capacity exactly when every name behind the first `MAX_FILES_NUMBER`
sorts behind all of these. -/
theorem withinCapacity_iff (names : List CString) : WithinCapacity names ↔
    ∀ x ∈ names.drop maxFilesNumber, ∀ y ∈ names.take maxFilesNumber, strcmp y x < 0 :=
  withinCapacity_iff_returns.trans addAll_returns_iff

/-- A name once more than the table has entries. -/
theorem not_withinCapacity_same :
    ¬WithinCapacity (List.replicate (maxFilesNumber + 1) ⟨[0x61], by decide⟩) := by
  rw [withinCapacity_iff_returns, addAll_returns_iff]
  decide

end table

end ArmRunner
