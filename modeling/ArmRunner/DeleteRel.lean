import ArmRunner.Lib.ArrayLoop
import ArmRunner.Lib.NewIndex
import ArmRunner.Write

namespace ArmRunner

open CRun NewIndex

def linkCondition (shType : UInt32) : Bool :=
  shType == shtHash || shType == shtDynamic || shType == shtSymtab

/-- The correction of a remaining section header after section `i`, which was `rel`, is gone. -/
def relink (i : Nat) (rel s : Elf32Shdr) : Elf32Shdr :=
  { s with
    shOffset := if s.shOffset > rel.shOffset then s.shOffset - rel.shSize else s.shOffset
    shLink := if s.shLink.toNat > i ∧ linkCondition s.shType then s.shLink - 1 else s.shLink }

/-- The correction of a symbol's section index. -/
def renumber (i : Nat) (sym : Elf32Sym) : Elf32Sym :=
  { sym with stShndx := if sym.stShndx.toNat ≥ i then sym.stShndx - 1 else sym.stShndx }

def shrink (i : Nat) (rel : Elf32Shdr) (header : Elf32Ehdr) : Elf32Ehdr :=
  { header with
    eShstrndx := if header.eShstrndx.toNat > i then header.eShstrndx - 1 else header.eShstrndx
    eShoff := header.eShoff - rel.shSize
    eShnum := header.eShnum - 1 }

/-- A use of the pointer `section`. That of an empty section was never assigned; its content has
no bytes. -/
def SectionContent.pointer (c : SectionContent) : Run Unit :=
  if c.sectionBytes = [] then .error .fault else .ok ()

/-- `memmove` of as many bytes as the content is said to have. -/
def copyContent (c : SectionContent) : Run SectionContent := do
  let bytes ← c.read
  .ok ⟨c.size, bytes⟩

/-- The pointer below `j` goes through `realloc` to the size of content `j`, whose bytes are copied
there. -/
def moveContent (j : Nat) (contents : List SectionContent) : Run (List SectionContent) := do
  let below ← fetch contents (j - 1)
  below.pointer
  let c ← fetch contents j
  c.pointer
  let moved ← copyContent c
  assign contents (j - 1) moved

/-- The contents behind `i` are moved down, and the last pointer goes to `free`. -/
def removeContent (i n : Nat) (contents : List SectionContent) : Run (List SectionContent) := do
  let contents ← forLoop moveContent (i + 1) (n - (i + 1)) contents
  let last ← fetch contents (n - 1)
  last.pointer
  .ok contents

/-- The body of the loop of `deleteRel` for a relocation section, with what it does to the contents
as a parameter. The header loop runs over the old number of sections, so it also corrects the entry
the shift left behind. -/
def deleteSectionWith (removal : Nat → Nat → List SectionContent → Run (List SectionContent))
    (i : Nat) (elf : Elf32Main) : Run Elf32Main := do
  let rel ← fetch elf.sectHeader i
  let n := elf.header.eShnum.toNat
  let sectHeader ← shiftDown .ok i n elf.sectHeader
  let sectionContent ← removal i n elf.sectionContent
  let sectHeader ← updateAll (relink i rel) n sectHeader
  let symTable ← updateAll (renumber i) elf.nbSymboles.toNat elf.symTable
  .ok { elf with header := shrink i rel elf.header, sectHeader, sectionContent, symTable }

/-- `while (i < e_shnum)`. Each turn takes one off `e_shnum - i`; a loop that is out of fuel has not
returned. -/
def deletePasses (delete : Nat → Elf32Main → Run Elf32Main) :
    Nat → Nat → Elf32Main → Run Elf32Main
  | 0, _, _ => .error .fault
  | fuel + 1, i, elf =>
    if i < elf.header.eShnum.toNat then do
      let s ← fetch elf.sectHeader i
      if s.isRel then
        let elf ← delete i elf
        deletePasses delete fuel i elf
      else deletePasses delete fuel (i + 1) elf
    else .ok elf

def deleteSection : Nat → Elf32Main → Run Elf32Main := deleteSectionWith removeContent

def deleteRel (elf : Elf32Main) : Run Elf32Main :=
  deletePasses deleteSection (elf.header.eShnum.toNat + 1) 0 elf

/-- `deleteSection` with the contents taken as lists of bytes, that of an empty section as the empty
list: there are no pointers that could be unassigned. -/
def dropSection : Nat → Elf32Main → Run Elf32Main := deleteSectionWith (shiftDown copyContent)

def dropRelFrom : Nat → Nat → Elf32Main → Run Elf32Main := deletePasses dropSection

/-- `deleteRel` on contents that are lists of bytes. -/
def dropRel (elf : Elf32Main) : Run Elf32Main :=
  dropRelFrom (elf.header.eShnum.toNat + 1) 0 elf

/-- One section taken out of the object file, every reference corrected as the program does. -/
def View.remove (i : Nat) (rel : Elf32Shdr) (v : View) : View where
  header := shrink i rel v.header
  sections := (v.sections.eraseIdx i).map fun s => (relink i rel s.1, s.2)
  symTable := v.symTable.map (renumber i)
  behind := v.sections.getLast?.map fun s => relink i rel s.1

/-- The passes of the program from index `i` on, without a fuel parameter. -/
inductive Removes : Nat → View → View → Prop
  | done {i v} : v.sections.length ≤ i → Removes i v v
  | skip {i v w s} : v.sections[i]? = some s → s.1.isRel = false → Removes (i + 1) v w →
      Removes i v w
  | delete {i v w s} : v.sections[i]? = some s → s.1.isRel = true →
      Removes i (v.remove i s.1) w → Removes i v w

/-- Every content that some deletion moves down has a buffer of its recorded size. -/
def Movable (v : View) : Prop :=
  ∀ (i j : Nat) (r s : Section), i < j → v.sections[i]? = some r → r.1.isRel = true →
    v.sections[j]? = some s → s.2.Filled

theorem copyContent_filled {c : SectionContent} (h : c.Filled) : copyContent c = .ok c := by
  have size : c.size.toNat = c.sectionBytes.length := by
    rw [h, Int.toNat_natCast]
  have read : c.read = .ok c.sectionBytes := by
    rw [SectionContent.read, if_pos ⟨by rw [h]; omega, by omega⟩, size, List.take_length]
  simp [copyContent, read]

theorem copyContent_negative {c : SectionContent} (h : c.size < 0) :
    copyContent c = .error .fault := by
  have read : c.read = .error .fault := if_neg (by omega)
  simp [copyContent, read]

theorem movable_remove {v : View} {i : Nat} {rel : Elf32Shdr} (h : Movable v) :
    Movable (v.remove i rel) := by
  intro k j r s hkj hr hrel hs
  simp only [View.remove, List.getElem?_map, Option.map_eq_some_iff] at hr hs
  obtain ⟨r, hr, rfl⟩ := hr
  obtain ⟨s, hs, rfl⟩ := hs
  rw [List.getElem?_eraseIdx] at hr hs
  have hrel' : r.1.isRel = true := hrel
  split at hr <;> split at hs
  · exact h k j r s hkj hr hrel' hs
  · exact h k (j + 1) r s (by omega) hr hrel' hs
  · omega
  · exact h (k + 1) (j + 1) r s (by omega) hr hrel' hs

theorem removeHeads (done todo : List Section) (s : Section) (tail : List Elf32Shdr) :
    shiftDown .ok done.length (done ++ s :: todo).length
      ((done ++ s :: todo).map Prod.fst ++ tail) =
      .ok ((done ++ todo).map Prod.fst ++ ((s :: todo).getLast (by simp)).1 :: tail) := by
  have copied : ∀ t ∈ todo.map Prod.fst, (.ok t : Run Elf32Shdr) = .ok (id t) := fun _ _ => rfl
  have h := shiftDown_append (done.map Prod.fst) tail s.1 copied
  have last : (s.1 :: todo.map Prod.fst).getLast (by simp) = ((s :: todo).getLast (by simp)).1 := by
    rw [← List.getLast_map (f := Prod.fst) (by simp)]
    rfl
  rw [last] at h
  simpa using h

theorem removeContents (done : List Section) {todo : List Section} (s : Section)
    (tail : List SectionContent) (h : ∀ t ∈ todo, t.2.Filled) :
    ∃ rest, shiftDown copyContent done.length (done ++ s :: todo).length
      ((done ++ s :: todo).map Prod.snd ++ tail) = .ok ((done ++ todo).map Prod.snd ++ rest) := by
  have hf : ∀ c ∈ todo.map Prod.snd, copyContent c = .ok (id c) := by
    intro c hc
    obtain ⟨t, ht, rfl⟩ := List.mem_map.mp hc
    exact copyContent_filled (h t ht)
  have hs := shiftDown_append (done.map Prod.snd) tail s.2 hf
  simp only [List.map_id, List.length_append, List.length_map, List.length_cons] at hs
  refine ⟨(s.2 :: todo.map Prod.snd).getLast (by simp) :: tail, ?_⟩
  simpa using hs

/-- One deletion in memory is the removal of the section from the object file. -/
theorem dropSection_refines {elf : Elf32Main} {v : View} {i : Nat} {s : Section}
    (h : Represents elf v) (movable : Movable v) (hs : v.sections[i]? = some s)
    (hrel : s.1.isRel = true) :
    ∃ elf', dropSection i elf = .ok elf' ∧ Represents elf' (v.remove i s.1) := by
  obtain ⟨heads, hheads, hbehind⟩ := h.heads
  obtain ⟨contents, hcontents⟩ := h.contents
  have hi := (List.getElem?_eq_some_iff.mp hs).1
  obtain ⟨done, todo, hsplit, hlen⟩ : ∃ done todo, v.sections = done ++ s :: todo ∧
      done.length = i :=
    ⟨v.sections.take i, v.sections.drop (i + 1), eq_take_cons_drop hs, by simp; omega⟩
  have filled : ∀ t ∈ todo, t.2.Filled := by
    intro t ht
    obtain ⟨k, hk⟩ := List.mem_iff_getElem?.mp ht
    refine movable i (i + 1 + k) s t (by omega) hs hrel ?_
    rw [hsplit, List.getElem?_append_right (by omega), ← hlen]
    simpa [Nat.add_assoc, Nat.add_comm 1 k] using hk
  have erase : v.sections.eraseIdx i = done ++ todo := by
    rw [hsplit, ← hlen, List.eraseIdx_append]
    simp
  have head := h.fetch_head hs
  have count : elf.header.eShnum.toNat = (done ++ s :: todo).length := by rw [h.count, hsplit]
  obtain ⟨rest, hrest⟩ := removeContents done s contents filled
  have hshift := removeHeads done todo s heads
  set last := (s :: todo).getLast (by simp) with hlast
  -- the correction loop runs over one entry more than the table keeps
  have hupdate := updateAll_append (relink i s.1) ((done ++ todo).map Prod.fst ++ [last.1]) heads
  have hn : ((done ++ todo).map Prod.fst ++ [last.1]).length = (done ++ s :: todo).length := by
    simp only [List.length_append, List.length_map, List.length_cons, List.length_nil]
    omega
  rw [hn, List.append_assoc, List.singleton_append] at hupdate
  have hsyms := updateAll_length (renumber i) v.symTable
  have run : dropSection i elf = .ok { elf with
      header := shrink i s.1 elf.header
      sectHeader := ((done ++ todo).map Prod.fst ++ [last.1]).map (relink i s.1) ++ heads
      sectionContent := (done ++ todo).map Prod.snd ++ rest
      symTable := v.symTable.map (renumber i) } := by
    rw [dropSection, deleteSectionWith, head, ok_bind]
    dsimp only
    rw [hheads, hcontents, count, hsplit, ← hlen, hshift, ok_bind, hrest, ok_bind, hlen, hupdate,
      ok_bind, h.symTable, h.nbSymboles, hsyms, ok_bind]
  refine ⟨_, run, ?_, ?_, ⟨relink i s.1 last.1 :: heads, ?_, ?_⟩, ⟨rest, ?_⟩, rfl, ?_⟩
  · rw [h.header]
    rfl
  · have positive : 0 < elf.header.eShnum.toNat := by rw [count]; simp
    have bound := elf.header.eShnum.toNat_lt
    simp only [shrink, View.remove, erase, List.length_map, UInt16.toNat_sub, UInt16.toNat_one]
    simp only [count, List.length_append, List.length_cons] at bound ⊢
    omega
  · simp [View.remove, erase, Function.comp_def]
  · have tail : v.sections.getLast? = some last := by
      rw [hsplit, hlast, List.getLast?_append, List.getLast?_eq_some_getLast (by simp)]
      rfl
    rw [View.remove, tail]
    rfl
  · simp [View.remove, erase, Function.comp_def]
  · simp [View.remove, h.nbSymboles]

theorem dropRelFrom_succ (fuel i : Nat) (elf : Elf32Main) :
    dropRelFrom (fuel + 1) i elf = if i < elf.header.eShnum.toNat then (do
      let s ← fetch elf.sectHeader i
      if s.isRel then
        let elf ← dropSection i elf
        dropRelFrom fuel i elf
      else dropRelFrom fuel (i + 1) elf) else .ok elf := rfl

theorem dropRelFrom_refines {fuel i : Nat} {elf : Elf32Main} {v : View}
    (h : Represents elf v) (movable : Movable v) (inside : i ≤ v.sections.length)
    (enough : v.sections.length < fuel + i) :
    ∃ elf' w, dropRelFrom fuel i elf = .ok elf' ∧ Removes i v w ∧ Represents elf' w := by
  induction fuel generalizing i elf v with
  | zero => omega
  | succ fuel ih =>
    by_cases hi : i < v.sections.length
    · have hs : v.sections[i]? = some v.sections[i] := List.getElem?_eq_getElem hi
      have head := h.fetch_head hs
      cases hrel : v.sections[i].1.isRel with
      | false =>
        obtain ⟨elf', w, hrun, hw, hr⟩ := ih (i := i + 1) h movable hi (by omega)
        refine ⟨elf', w, ?_, .skip hs hrel hw, hr⟩
        rw [dropRelFrom_succ, if_pos (h.count ▸ hi), head, ok_bind, hrel]
        exact hrun
      | true =>
        obtain ⟨next, hnext, hr⟩ := dropSection_refines h movable hs hrel
        have shorter : (v.remove i v.sections[i].1).sections.length = v.sections.length - 1 := by
          rw [View.remove, List.length_map, List.length_eraseIdx_of_lt hi]
        obtain ⟨elf', w, hrun, hw, hr'⟩ := ih (i := i) hr (movable_remove movable)
          (by omega) (by omega)
        refine ⟨elf', w, ?_, .delete hs hrel hw, hr'⟩
        rw [dropRelFrom_succ, if_pos (h.count ▸ hi), head, ok_bind, hrel, if_pos rfl, hnext, ok_bind]
        exact hrun
    · refine ⟨elf, v, ?_, .done (by omega), h⟩
      rw [dropRelFrom_succ, if_neg (h.count ▸ hi)]

/-- `dropRel` ends, by its own test and not by its fuel, in a state for the object file
without its relocation sections. -/
theorem dropRel_refines {elf : Elf32Main} {v : View} (h : Represents elf v)
    (movable : Movable v) :
    ∃ elf' w, dropRel elf = .ok elf' ∧ Removes 0 v w ∧ Represents elf' w :=
  dropRelFrom_refines h movable (Nat.zero_le _) (by rw [h.count]; omega)

theorem dropSection_returned {elf elf' : Elf32Main} {i : Nat}
    (hrun : dropSection i elf = .ok elf') :
    elf'.header.eShnum = elf.header.eShnum - 1 ∧ elf'.nbSymboles = elf.nbSymboles := by
  obtain ⟨_, _, hrun⟩ := bind_eq_ok.mp hrun
  obtain ⟨_, _, hrun⟩ := bind_eq_ok.mp hrun
  obtain ⟨_, _, hrun⟩ := bind_eq_ok.mp hrun
  obtain ⟨_, _, hrun⟩ := bind_eq_ok.mp hrun
  obtain ⟨_, _, hrun⟩ := bind_eq_ok.mp hrun
  cases hrun
  exact ⟨rfl, rfl⟩

theorem dropRelFrom_nbSymboles {fuel i : Nat} {elf elf' : Elf32Main}
    (hrun : dropRelFrom fuel i elf = .ok elf') : elf'.nbSymboles = elf.nbSymboles := by
  induction fuel generalizing i elf with
  | zero => cases hrun
  | succ fuel ih =>
    rw [dropRelFrom_succ] at hrun
    split at hrun
    · obtain ⟨s, _, hrun⟩ := bind_eq_ok.mp hrun
      split at hrun
      · obtain ⟨next, hnext, hrun⟩ := bind_eq_ok.mp hrun
        exact (ih hrun).trans (dropSection_returned hnext).2
      · exact ih hrun
    · cases hrun
      rfl

/-- A loop that has returned does so with more fuel. -/
theorem deletePasses_fuel {delete : Nat → Elf32Main → Run Elf32Main} {fuel i : Nat}
    {elf elf' : Elf32Main} (run : deletePasses delete fuel i elf = .ok elf') (more : Nat) :
    deletePasses delete (fuel + more) i elf = .ok elf' := by
  induction fuel generalizing i elf with
  | zero => cases run
  | succ fuel ih =>
    rw [deletePasses] at run
    rw [Nat.add_right_comm, deletePasses]
    split at run
    next inside =>
      obtain ⟨s, hs, run⟩ := bind_eq_ok.mp run
      rw [if_pos inside, hs, ok_bind]
      split at run
      next rel =>
        obtain ⟨next, deleted, run⟩ := bind_eq_ok.mp run
        rw [if_pos rel, deleted, ok_bind, ih run]
      next stays => rw [if_neg stays, ih run]
    next ended => rw [if_neg ended, run]

/-- Passes that return with one deletion return with any other that returns what it does. -/
theorem deletePasses_mono {delete drop : Nat → Elf32Main → Run Elf32Main}
    (weaker : ∀ i elf elf', delete i elf = .ok elf' → drop i elf = .ok elf') {fuel i : Nat}
    {elf elf' : Elf32Main} (run : deletePasses delete fuel i elf = .ok elf') :
    deletePasses drop fuel i elf = .ok elf' := by
  induction fuel generalizing i elf with
  | zero => cases run
  | succ fuel ih =>
    rw [deletePasses] at run ⊢
    split at run
    next inside =>
      obtain ⟨s, hs, run⟩ := bind_eq_ok.mp run
      rw [if_pos inside, hs, ok_bind]
      split at run
      next rel =>
        obtain ⟨next, deleted, run⟩ := bind_eq_ok.mp run
        rw [if_pos rel, weaker i elf next deleted, ok_bind, ih run]
      next stays => rw [if_neg stays, ih run]
    next ended => rw [if_neg ended, run]

theorem deletePasses_of_kept {fuel i : Nat} {elf : Elf32Main} {v : View}
    {delete : Nat → Elf32Main → Run Elf32Main} (h : Represents elf v)
    (kept : ∀ s ∈ v.sections, s.1.isRel = false) (inside : i ≤ v.sections.length)
    (enough : v.sections.length < fuel + i) : deletePasses delete fuel i elf = .ok elf := by
  induction fuel generalizing i with
  | zero => omega
  | succ fuel ih =>
    rw [deletePasses]
    split
    next hi =>
      have below : i < v.sections.length := h.count ▸ hi
      obtain ⟨s, hs⟩ : ∃ s, v.sections[i]? = some s := ⟨_, List.getElem?_eq_getElem below⟩
      rw [h.fetch_head hs, ok_bind, kept _ (List.mem_of_getElem? hs)]
      exact ih below (by omega)
    next => rfl

/-- Without relocation sections there is nothing to do. -/
theorem deleteRel_of_kept {elf : Elf32Main} {v : View} (h : Represents elf v)
    (kept : ∀ s ∈ v.sections, s.1.isRel = false) : deleteRel elf = .ok elf :=
  deletePasses_of_kept h kept (Nat.zero_le _) (by rw [h.count]; omega)

/-- A deletion that moves a content without a full buffer does not return. -/
theorem dropSection_moved {elf elf' : Elf32Main} {v : View} {i : Nat} {s : Section}
    (h : Represents elf v) (hs : v.sections[i]? = some s) (hrun : dropSection i elf = .ok elf')
    {j : Nat} {t : Section} (hij : i < j) (ht : v.sections[j]? = some t) : ¬t.2.size < 0 := by
  obtain ⟨contents, hcontents⟩ := h.contents
  have hi := (List.getElem?_eq_some_iff.mp hs).1
  obtain ⟨_, _, hrun⟩ := bind_eq_ok.mp hrun
  obtain ⟨_, _, hrun⟩ := bind_eq_ok.mp hrun
  obtain ⟨moved, hmoved, _⟩ := bind_eq_ok.mp hrun
  have split : v.sections.map Prod.snd = (v.sections.take i).map Prod.snd ++ s.2 ::
      (v.sections.drop (i + 1)).map Prod.snd := by
    rw [← List.map_cons, ← List.map_append, ← eq_take_cons_drop hs]
  have front : ((v.sections.take i).map Prod.snd).length = i := by simp; omega
  have count : elf.header.eShnum.toNat = (v.sections.map Prod.snd).length := by
    rw [h.count, List.length_map]
  rw [count, hcontents, split] at hmoved
  intro negative
  have hmem : t.2 ∈ (v.sections.drop (i + 1)).map Prod.snd := by
    refine List.mem_map_of_mem (List.mem_iff_getElem?.mpr ⟨j - (i + 1), ?_⟩)
    rw [List.getElem?_drop, Nat.add_sub_cancel' (by omega), ht]
  obtain ⟨c, hc⟩ := shiftDown_moved _ (by rw [front]; exact hmoved) t.2 hmem
  rw [copyContent_negative negative] at hc
  cases hc

theorem dropRelFrom_movable {fuel i : Nat} {elf elf' : Elf32Main} {v : View}
    (h : Represents elf v) (sized : ∀ s ∈ v.sections, s.2.Filled ∨ s.2.size < 0)
    (hrun : dropRelFrom fuel i elf = .ok elf') :
    ∀ (k j : Nat) (r s : Section), i ≤ k → k < j → v.sections[k]? = some r → r.1.isRel = true →
      v.sections[j]? = some s → s.2.Filled := by
  induction fuel generalizing i with
  | zero => cases hrun
  | succ fuel ih =>
    intro k j r s hik hkj hr hrel hs
    have hk := (List.getElem?_eq_some_iff.mp hr).1
    have hi : i < v.sections.length := by omega
    have hsi : v.sections[i]? = some v.sections[i] := List.getElem?_eq_getElem hi
    have head := h.fetch_head hsi
    rw [dropRelFrom_succ, if_pos (h.count ▸ hi), head, ok_bind] at hrun
    cases hreli : v.sections[i].1.isRel with
    | false =>
      rw [hreli] at hrun
      have hne : i ≠ k := by
        rintro rfl
        rw [Option.some.inj (hsi.symm.trans hr), hrel] at hreli
        cases hreli
      exact ih (i := i + 1) hrun k j r s (by omega) hkj hr hrel hs
    | true =>
      rw [hreli, if_pos rfl] at hrun
      obtain ⟨next, hnext, _⟩ := bind_eq_ok.mp hrun
      have moved := dropSection_moved h hsi hnext (j := j) (by omega) hs
      exact (sized s (List.mem_of_getElem? hs)).resolve_right moved

theorem dropRel_movable {elf elf' : Elf32Main} {v : View} (h : Represents elf v)
    (sized : ∀ s ∈ v.sections, s.2.Filled ∨ s.2.size < 0) (hrun : dropRel elf = .ok elf') :
    Movable v := by
  intro i j r s hij hr hrel hs
  exact dropRelFrom_movable h sized hrun i j r s (Nat.zero_le i) hij hr hrel hs

end ArmRunner
