import ArmRunner.DeleteRel
import ArmRunner.Loaded

namespace ArmRunner

open CRun NewIndex

/-- The pointer of the content was assigned. -/
def SectionContent.Owned (c : SectionContent) : Prop := c.sectionBytes ≠ []

theorem SectionContent.pointer_eq_ok {c : SectionContent} : c.pointer = .ok () ↔ c.Owned := by
  rw [pointer, Owned]
  split
  next none => simp [none]
  next some => simp [some]

section removal

variable {i n j : Nat} {contents contents' : List SectionContent} {x : SectionContent}

theorem moveContent_eq_ok : moveContent j contents = .ok contents' ↔
    ((∀ c, contents[j - 1]? = some c → c.Owned) ∧ (∀ c, contents[j]? = some c → c.Owned)) ∧
      (do
        let c ← fetch contents j
        let moved ← copyContent c
        assign contents (j - 1) moved) = .ok contents' := by
  constructor
  · intro run
    obtain ⟨below, hbelow, run⟩ := bind_eq_ok.mp run
    obtain ⟨_, first, run⟩ := bind_eq_ok.mp run
    obtain ⟨c, hc, run⟩ := bind_eq_ok.mp run
    obtain ⟨_, second, run⟩ := bind_eq_ok.mp run
    refine ⟨⟨?_, ?_⟩, by rw [hc, ok_bind, run]⟩
    · intro d hd
      cases (fetch_eq_ok.mp hbelow).symm.trans hd
      exact SectionContent.pointer_eq_ok.mp first
    · intro d hd
      cases (fetch_eq_ok.mp hc).symm.trans hd
      exact SectionContent.pointer_eq_ok.mp second
  · rintro ⟨⟨first, second⟩, run⟩
    obtain ⟨c, hc, stored⟩ := bind_eq_ok.mp run
    have inside := (List.getElem?_eq_some_iff.mp (fetch_eq_ok.mp hc)).1
    have hbelow : contents[j - 1]? = some contents[j - 1] := List.getElem?_eq_getElem (by omega)
    rw [moveContent, fetch_eq_ok.mpr hbelow, ok_bind,
      SectionContent.pointer_eq_ok.mpr (first _ hbelow), ok_bind, hc, ok_bind,
      SectionContent.pointer_eq_ok.mpr (second c (fetch_eq_ok.mp hc)), ok_bind, stored]

/-- What is done with the pointers aside, the contents are moved as lists. -/
theorem removeContent_weaker (run : removeContent i n contents = .ok contents') :
    shiftDown copyContent i n contents = .ok contents' := by
  obtain ⟨moved, loop, run⟩ := bind_eq_ok.mp run
  obtain ⟨last, _, run⟩ := bind_eq_ok.mp run
  obtain ⟨_, _, same⟩ := bind_eq_ok.mp run
  cases same
  exact forLoop_mono (fun k s s' turn => (moveContent_eq_ok.mp turn).2) loop

theorem moveContents_eq_ok (done : List SectionContent) {todo : List SectionContent}
    (tail : List SectionContent) :
    (forLoop moveContent (done.length + 1) todo.length (done ++ x :: (todo ++ tail)) >>= fun moved =>
      fetch moved (done.length + todo.length) >>= fun last => last.pointer >>= fun _ => .ok moved) =
        .ok contents' ↔
      forLoop (fun j ys => do
        let y ← fetch ys j
        let z ← copyContent y
        assign ys (j - 1) z) (done.length + 1) todo.length (done ++ x :: (todo ++ tail)) =
          .ok contents' ∧ ∀ c ∈ x :: todo, c.Owned := by
  induction todo generalizing done x with
  | nil =>
    have last : fetch (done ++ x :: tail) done.length = .ok x := fetch_append_cons done tail x
    simp only [List.length_nil, forLoop_zero, List.nil_append, Nat.add_zero, ok_bind, last,
      List.mem_singleton, forall_eq]
    constructor
    · intro run
      obtain ⟨_, owned, same⟩ := bind_eq_ok.mp run
      exact ⟨same, SectionContent.pointer_eq_ok.mp owned⟩
    · rintro ⟨same, owned⟩
      rw [SectionContent.pointer_eq_ok.mpr owned, ok_bind, same]
  | cons y todo ih =>
    have below : (done ++ x :: (y :: todo ++ tail))[done.length + 1 - 1]? = some x := by simp
    have here : (done ++ x :: (y :: todo ++ tail))[done.length + 1]? = some y := by simp
    have stored (z : SectionContent) : assign (done ++ x :: (y :: todo ++ tail))
        (done.length + 1 - 1) z = .ok ((done ++ [z]) ++ y :: (todo ++ tail)) := by
      rw [Nat.add_sub_cancel, assign_append_cons]
      simp
    have count (z : SectionContent) : done.length + (y :: todo).length =
        (done ++ [z]).length + todo.length := by
      simp
      omega
    have next (z : SectionContent) : done.length + 1 + 1 = (done ++ [z]).length + 1 := by simp
    rw [List.length_cons, forLoop_succ, forLoop_succ]
    constructor
    · intro run
      obtain ⟨moved, loop, run⟩ := bind_eq_ok.mp run
      obtain ⟨first, turn, loop⟩ := bind_eq_ok.mp loop
      obtain ⟨⟨hx, hy⟩, turn⟩ := moveContent_eq_ok.mp turn
      obtain ⟨z, hz, turn'⟩ := bind_eq_ok.mp (by rwa [fetch_eq_ok.mpr here, ok_bind] at turn)
      cases (stored z).symm.trans turn'
      obtain ⟨loop', owned⟩ := (ih (done ++ [z])).mp (by
        rw [← next z, ← count z, loop, ok_bind]
        exact run)
      refine ⟨?_, ?_⟩
      · rw [turn, ok_bind, next z, loop']
      · intro c hc
        rcases List.mem_cons.mp hc with rfl | later
        · exact hx c below
        · exact owned c later
    · rintro ⟨run, owned⟩
      obtain ⟨first, turn, loop⟩ := bind_eq_ok.mp run
      obtain ⟨z, hz, turn'⟩ := bind_eq_ok.mp (by rwa [fetch_eq_ok.mpr here, ok_bind] at turn)
      cases (stored z).symm.trans turn'
      have move := moveContent_eq_ok.mpr ⟨⟨?_, ?_⟩, turn⟩
      · have rest := (ih (done ++ [z])).mpr ⟨by rw [← next z, loop],
          fun c hc => owned c (List.mem_cons_of_mem _ hc)⟩
        rw [move, ok_bind, next z]
        rw [← count z] at rest
        exact rest
      · intro c hc
        cases below.symm.trans hc
        exact owned x (by simp)
      · intro c hc
        cases here.symm.trans hc
        exact owned y (by simp)

/-- The contents from `done.length` on are moved as lists exactly when all of their pointers were
assigned. -/
theorem removeContent_eq_ok (done : List SectionContent) {todo : List SectionContent}
    (tail : List SectionContent) :
    removeContent done.length (done ++ x :: todo).length (done ++ x :: todo ++ tail) =
        .ok contents' ↔
      shiftDown copyContent done.length (done ++ x :: todo).length (done ++ x :: todo ++ tail) =
        .ok contents' ∧ ∀ c ∈ x :: todo, c.Owned := by
  have turns : (done ++ x :: todo).length - (done.length + 1) = todo.length := by simp; omega
  have index : (done ++ x :: todo).length - 1 = done.length + todo.length := by simp
  rw [removeContent, shiftDown, turns, index, List.append_assoc]
  exact moveContents_eq_ok done tail

end removal

section deletion

variable {elf elf' : Elf32Main} {v : View} {i fuel : Nat} {s : Section}

theorem deleteSection_weaker (run : deleteSection i elf = .ok elf') :
    dropSection i elf = .ok elf' := by
  obtain ⟨rel, hrel, run⟩ := bind_eq_ok.mp run
  obtain ⟨heads, hheads, run⟩ := bind_eq_ok.mp run
  obtain ⟨contents, removed, run⟩ := bind_eq_ok.mp run
  rw [dropSection, deleteSectionWith, hrel, ok_bind]
  dsimp only
  rw [hheads, ok_bind, removeContent_weaker removed, ok_bind, run]

theorem deleteRel_weaker (run : deleteRel elf = .ok elf') : dropRel elf = .ok elf' :=
  deletePasses_mono (fun _ _ _ => deleteSection_weaker) run

theorem deleteSection_eq_ok (h : Represents elf v) (hs : v.sections[i]? = some s) :
    deleteSection i elf = .ok elf' ↔
      dropSection i elf = .ok elf' ∧ ∀ t ∈ v.sections.drop i, t.2.Owned := by
  obtain ⟨tail, hcontents⟩ := h.contents
  have hi := (List.getElem?_eq_some_iff.mp hs).1
  have behind : v.sections.drop i = s :: v.sections.drop (i + 1) := by
    rw [List.drop_eq_getElem_cons hi, (List.getElem?_eq_some_iff.mp hs).2]
  have front : ((v.sections.take i).map Prod.snd).length = i := by simp; omega
  have split : v.sections.map Prod.snd = (v.sections.take i).map Prod.snd ++ s.2 ::
      (v.sections.drop (i + 1)).map Prod.snd := by
    rw [← List.map_cons, ← List.map_append, ← eq_take_cons_drop hs]
  have count : elf.header.eShnum.toNat = (v.sections.map Prod.snd).length := by
    rw [h.count, List.length_map]
  have removed (contents : List SectionContent) :
      removeContent i elf.header.eShnum.toNat elf.sectionContent = .ok contents ↔
        shiftDown copyContent i elf.header.eShnum.toNat elf.sectionContent = .ok contents ∧
          ∀ t ∈ v.sections.drop i, t.2.Owned := by
    have eq := @removeContent_eq_ok contents s.2 ((v.sections.take i).map Prod.snd)
      ((v.sections.drop (i + 1)).map Prod.snd) tail
    rw [front, ← split, ← count, ← hcontents, ← List.map_cons, ← behind] at eq
    simpa only [List.forall_mem_map] using eq
  constructor
  · intro run
    refine ⟨deleteSection_weaker run, ?_⟩
    obtain ⟨_, _, run⟩ := bind_eq_ok.mp run
    obtain ⟨_, _, run⟩ := bind_eq_ok.mp run
    obtain ⟨contents, moved, _⟩ := bind_eq_ok.mp run
    exact ((removed contents).mp moved).2
  · rintro ⟨run, owned⟩
    obtain ⟨rel, hrel, run⟩ := bind_eq_ok.mp run
    obtain ⟨heads, hheads, run⟩ := bind_eq_ok.mp run
    obtain ⟨contents, moved, run⟩ := bind_eq_ok.mp run
    rw [deleteSection, deleteSectionWith, hrel, ok_bind]
    dsimp only
    rw [hheads, ok_bind, (removed contents).mpr ⟨moved, owned⟩, ok_bind, run]

end deletion

/-- The sections from the first relocation section on. -/
def fromFirstRel (heads : List Elf32Shdr) : List Elf32Shdr := heads.dropWhile Elf32Shdr.kept

def Filled (heads : List Elf32Shdr) : Prop := ∀ s ∈ heads, s.shSize ≠ 0

/-- The sections without a content are the empty ones. -/
def Matched (v : View) : Prop := ∀ s ∈ v.sections, s.2.Owned ↔ s.1.shSize ≠ 0

theorem filled_relink (i : Nat) (rel : Elf32Shdr) {heads : List Elf32Shdr} :
    Filled (heads.map (relink i rel)) ↔ Filled heads := by
  simp [Filled, relink]

section passes

variable {elf elf' : Elf32Main} {v : View} {i fuel : Nat}

theorem matched_remove (h : Matched v) (i : Nat) (rel : Elf32Shdr) :
    Matched (v.remove i rel) := by
  intro s hs
  obtain ⟨t, ht, rfl⟩ := List.mem_map.mp hs
  exact h t (List.mem_of_mem_eraseIdx ht)

/-- Passes from section `i` on return what they return on lists, if no section is empty from the
first relocation section there on. -/
theorem deletePasses_eq_ok (h : Represents elf v) (movable : Movable v) (matched : Matched v) :
    deletePasses deleteSection fuel i elf = .ok elf' ↔
      dropRelFrom fuel i elf = .ok elf' ∧
        Filled (fromFirstRel ((v.sections.drop i).map Prod.fst)) := by
  induction fuel generalizing i elf v with
  | zero => simp [deletePasses, dropRelFrom]
  | succ fuel ih =>
    rw [deletePasses, dropRelFrom_succ]
    by_cases hi : i < v.sections.length
    · have hs : v.sections[i]? = some v.sections[i] := List.getElem?_eq_getElem hi
      set s := v.sections[i] with hdef
      have behind : (v.sections.drop i).map Prod.fst =
          s.1 :: (v.sections.drop (i + 1)).map Prod.fst := by
        rw [List.drop_eq_getElem_cons hi, List.map_cons]
      rw [h.count, if_pos hi, if_pos hi, h.fetch_head hs, ok_bind, ok_bind]
      cases hrel : s.1.isRel with
      | false =>
        have stays : s.1.kept = true := by simp [Elf32Shdr.kept, hrel]
        rw [behind, fromFirstRel, List.dropWhile_cons_of_pos stays]
        exact ih h movable matched
      | true =>
        have goes : ¬s.1.kept = true := by simp [Elf32Shdr.kept, hrel]
        have all : Filled (s.1 :: (v.sections.drop (i + 1)).map Prod.fst) ↔
            ∀ t ∈ v.sections.drop i, t.2.Owned := by
          rw [← behind, Filled, List.forall_mem_map]
          exact forall₂_congr fun t ht => (matched t (List.mem_of_mem_drop ht)).symm
        rw [behind, fromFirstRel, List.dropWhile_cons_of_neg goes, if_pos rfl, if_pos rfl, all]
        obtain ⟨next, dropped, represents⟩ := dropSection_refines h movable hs hrel
        have later := ih (i := i) represents (movable_remove movable) (matched_remove matched i s.1)
        rw [dropped, ok_bind]
        constructor
        · intro run
          obtain ⟨next', deleted, run⟩ := bind_eq_ok.mp run
          obtain ⟨dropped', owned⟩ := (deleteSection_eq_ok h hs).mp deleted
          cases Except.ok.inj (dropped.symm.trans dropped')
          exact ⟨(later.mp run).1, owned⟩
        · rintro ⟨run, owned⟩
          rw [(deleteSection_eq_ok h hs).mpr ⟨dropped, owned⟩, ok_bind]
          refine later.mpr ⟨run, ?_⟩
          have filled := all.mpr owned
          intro t ht
          have there := (List.dropWhile_sublist _).subset ht
          have moved : ((v.remove i s.1).sections.drop i).map Prod.fst =
              ((v.sections.drop (i + 1)).map Prod.fst).map (relink i s.1) := by
            rw [View.remove, List.eraseIdx_eq_take_drop_succ]
            simp [List.map_drop, Function.comp_def, Nat.min_eq_left hi.le]
          rw [moved] at there
          exact (filled_relink i s.1).mpr (fun t ht => filled t (List.mem_cons_of_mem _ ht)) t there
    · have none : v.sections.drop i = [] := List.drop_eq_nil_of_le (by omega)
      rw [h.count, if_neg hi, if_neg hi, none]
      simp [fromFirstRel, Filled]

/-- The deletion returns what it returns on lists exactly when no section from the first relocation
section on is empty. -/
theorem deleteRel_eq_ok (h : Represents elf v) (movable : Movable v) (matched : Matched v) :
    deleteRel elf = .ok elf' ↔
      dropRel elf = .ok elf' ∧ Filled (fromFirstRel (v.sections.map Prod.fst)) :=
  deletePasses_eq_ok h movable matched

end passes

section loaded

variable {header : Elf32Ehdr} {sectHeader : List Elf32Shdr} {f f' : CFile}

/-- Nothing can be read for a section that is not empty unless it has bytes. -/
theorem loadOneContent_owned {i : Nat} {c : SectionContent} {s : Elf32Shdr}
    (h : loadOneContent header sectHeader i f = .ok (c, f')) (hs : sectHeader[i]? = some s) :
    c.Owned ↔ s.shSize ≠ 0 := by
  rw [loadOneContent, fetch_eq_ok.mpr hs, ok_bind] at h
  have read {n : Nat} {bytes : List UInt8} {g : CFile} {f : CFile}
      (hr : readBytes f n = .ok (bytes, g)) : bytes ≠ [] := by
    rintro rfl
    obtain ⟨some_bytes, _⟩ := CFile.fread_eq_some.mp (readBytes_eq_ok.mp hr)
    exact some_bytes (CFile.fread_length (readBytes_eq_ok.mp hr)).symm
  by_cases empty : s.shSize = 0
  · rw [if_pos empty] at h
    cases h
    simp [SectionContent.Owned, empty]
  rw [if_neg empty] at h
  dsimp only at h
  refine iff_of_true ?_ empty
  by_cases inner : i + 1 < header.eShnum.toNat
  · rw [if_pos inner] at h
    obtain ⟨val, _, h⟩ := bind_eq_ok.mp h
    obtain ⟨sv, _, h⟩ := bind_eq_ok.mp h
    generalize (if s.shType = shtRel then s.shSize else sv.shOffset - s.shOffset) = extent at h
    by_cases negative : asInt extent < 0
    · rw [if_pos negative] at h
      cases h
    · rw [if_neg negative] at h
      obtain ⟨⟨bytes, g⟩, hr, h⟩ := bind_eq_ok.mp h
      cases h
      exact read hr
  · rw [if_neg inner] at h
    obtain ⟨⟨bytes, g⟩, hr, h⟩ := bind_eq_ok.mp h
    cases h
    exact read hr

theorem load_matched {file : List UInt8} {elf : Elf32Main} (h : load file = .ok (elf, f)) :
    Matched (viewOf elf) := by
  obtain ⟨_, _, _, f4, _, _, _, _, _, _, hcontent⟩ := load_parts h
  have owned : ∀ k c, elf.sectionContent[k]? = some c →
      ∀ s, elf.sectHeader[0 + k]? = some s → (c.Owned ↔ s.shSize ≠ 0) := by
    refine (collect_invariant (I := fun _ => True) (P := fun k c =>
      ∀ s, elf.sectHeader[k]? = some s → (c.Owned ↔ s.shSize ≠ 0)) hcontent trivial ?_).2
    intro k t c t' _ _ _ hk
    exact ⟨trivial, fun s hs => loadOneContent_owned hk hs⟩
  rintro ⟨s, c⟩ hm
  obtain ⟨k, hk⟩ := List.mem_iff_getElem?.mp hm
  obtain ⟨hs, hc⟩ := List.getElem?_zip_eq_some.mp hk
  exact owned k c hc s (by rwa [Nat.zero_add])

end loaded

end ArmRunner
