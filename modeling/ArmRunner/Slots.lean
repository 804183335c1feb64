import ArmRunner.Pointers
import ArmRunner.Lib.Buffers

namespace ArmRunner

open CRun Buffers

/-- A `SectionContent` without the bytes: the pointer `section` is what it is about. -/
structure SlotContent where
  size : Int
  slot : Slot
  deriving DecidableEq, Repr

/-- The parts of the state of `main` that the section contents depend on, and the heap. -/
structure SlotMain where
  header : Elf32Ehdr
  sectHeader : List Elf32Shdr
  content : List SlotContent
  heap : Heap
  deriving DecidableEq, Repr

/-- One turn of the loop over the contents. A `realloc` to a negative size returns `NULL`. -/
def moveSlot (j : Nat) (s : List SlotContent × Heap) : Run (List SlotContent × Heap) := do
  let (content, heap) := s
  let dst ← fetch content (j - 1)
  let src ← fetch content j
  let old ← dst.slot.use
  if src.size < 0 then .error .fault else
  let (buffer, heap) := heap.realloc old src.size.toNat
  let _ ← src.slot.use
  let content ← assign content (j - 1) ⟨src.size, .owned buffer⟩
  .ok (content, heap)

/-- `free(sectionContent[k].section)`. The entry keeps the pointer. -/
def releaseSlot (k : Nat) (s : List SlotContent × Heap) : Run (List SlotContent × Heap) := do
  let (content, heap) := s
  let c ← fetch content k
  let buffer ← c.slot.use
  .ok (content, heap.free buffer)

def removeSlot (i n : Nat) (s : List SlotContent × Heap) : Run (List SlotContent × Heap) :=
  forLoop moveSlot (i + 1) (n - (i + 1)) s >>= releaseSlot (n - 1)

def SlotMain.deleteSection (i : Nat) (m : SlotMain) : Run SlotMain := do
  let rel ← fetch m.sectHeader i
  let n := m.header.eShnum.toNat
  let sectHeader ← shiftDown .ok i n m.sectHeader
  let (content, heap) ← removeSlot i n (m.content, m.heap)
  let sectHeader ← updateAll (relink i rel) n sectHeader
  .ok ⟨shrink i rel m.header, sectHeader, content, heap⟩

def SlotMain.deleteRelFrom : Nat → Nat → SlotMain → Run SlotMain
  | 0, _, _ => .error .fault
  | fuel + 1, i, m =>
    if i < m.header.eShnum.toNat then do
      let s ← fetch m.sectHeader i
      if s.isRel then
        let m ← m.deleteSection i
        deleteRelFrom fuel i m
      else deleteRelFrom fuel (i + 1) m
    else .ok m

/-- `deleteRel`, as far as the section contents depend on it. -/
def SlotMain.deleteRel (m : SlotMain) : Run SlotMain :=
  SlotMain.deleteRelFrom (m.header.eShnum.toNat + 1) 0 m

/-- The buffer of a content has its size. -/
def SlotContent.Sized (heap : Heap) (c : SlotContent) : Prop :=
  ∀ b, c.slot = .owned b → ∃ n : Nat, heap.sizes[b]? = some n ∧ c.size = n

def SlotContent.isEmpty (c : SlotContent) : Bool := c.slot == .unassigned

def Elf32Shdr.isEmpty (s : Elf32Shdr) : Bool := s.shSize == 0

/-- The live part of the tables, the empty sections without a buffer, the other ones each with its
own, of the recorded size. -/
structure Tidy (m : SlotMain) (heads : List Elf32Shdr) (cells : List SlotContent) : Prop where
  count : m.header.eShnum.toNat = heads.length
  sectHeader : ∃ tail, m.sectHeader = heads ++ tail
  content : ∃ tail, m.content = cells ++ tail
  matched : cells.map SlotContent.isEmpty = heads.map Elf32Shdr.isEmpty
  sized : ∀ c ∈ cells, c.Sized m.heap
  accounted : Accounted (cells.map SlotContent.slot) m.heap

/-- The state with slots and the state with bytes have the same tables and sizes. -/
structure Agrees (m : SlotMain) (elf : Elf32Main) : Prop where
  header : m.header = elf.header
  sectHeader : m.sectHeader = elf.sectHeader
  sizes : m.content.map SlotContent.size = elf.sectionContent.map SectionContent.size

section agreement

variable {m m' : SlotMain} {elf elf' : Elf32Main}

theorem moveSlot_agrees {j : Nat} {content content' : List SlotContent} {heap heap' : Heap}
    {cs cs' : List SectionContent}
    (same : content.map SlotContent.size = cs.map SectionContent.size)
    (slots : moveSlot j (content, heap) = .ok (content', heap'))
    (run : (do
      let y ← fetch cs j
      let z ← copyContent y
      assign cs (j - 1) z) = .ok cs') :
    content'.map SlotContent.size = cs'.map SectionContent.size := by
  obtain ⟨dst, _, slots⟩ := bind_eq_ok.mp slots
  obtain ⟨src, hsrc, slots⟩ := bind_eq_ok.mp slots
  obtain ⟨old, _, slots⟩ := bind_eq_ok.mp slots
  obtain ⟨y, hy, run⟩ := bind_eq_ok.mp run
  obtain ⟨z, hz, run⟩ := bind_eq_ok.mp run
  obtain ⟨bytes, _, moved⟩ := bind_eq_ok.mp hz
  cases moved
  split at slots
  · cases slots
  obtain ⟨used, _, slots⟩ := bind_eq_ok.mp slots
  obtain ⟨_, assigned, slots⟩ := bind_eq_ok.mp slots
  cases slots
  obtain ⟨_, rfl⟩ := assign_eq_ok.mp assigned
  obtain ⟨_, rfl⟩ := assign_eq_ok.mp run
  have sizes := congrArg (·[j]?) same
  simp only [List.getElem?_map, fetch_eq_ok.mp hsrc, fetch_eq_ok.mp hy, Option.map_some,
    Option.some.injEq] at sizes
  rw [List.map_set, List.map_set, same, sizes]

theorem deleteSection_agrees {i : Nat} (h : Agrees m elf)
    (slots : m.deleteSection i = .ok m') (run : dropSection i elf = .ok elf') :
    Agrees m' elf' := by
  obtain ⟨rel, hrel, slots⟩ := bind_eq_ok.mp slots
  obtain ⟨shifted, hshift, slots⟩ := bind_eq_ok.mp slots
  obtain ⟨⟨content, heap⟩, hremove, slots⟩ := bind_eq_ok.mp slots
  obtain ⟨heads, hupdate, slots⟩ := bind_eq_ok.mp slots
  obtain ⟨rel', hrel', run⟩ := bind_eq_ok.mp run
  obtain ⟨shifted', hshift', run⟩ := bind_eq_ok.mp run
  obtain ⟨contents, hmoved, run⟩ := bind_eq_ok.mp run
  obtain ⟨heads', hupdate', run⟩ := bind_eq_ok.mp run
  obtain ⟨syms, _, run⟩ := bind_eq_ok.mp run
  cases slots
  cases run
  rw [h.sectHeader] at hrel hshift
  rw [h.header] at hshift hremove hupdate
  cases hrel.symm.trans hrel'
  cases hshift.symm.trans hshift'
  cases hupdate.symm.trans hupdate'
  obtain ⟨⟨content1, heap1⟩, loop, release⟩ := bind_eq_ok.mp hremove
  obtain ⟨_, _, release⟩ := bind_eq_ok.mp release
  obtain ⟨_, _, release⟩ := bind_eq_ok.mp release
  cases release
  rw [shiftDown] at hmoved
  have sizes := forLoop_related (R := fun (s : List SlotContent × Heap) cs =>
    s.1.map SlotContent.size = cs.map SectionContent.size) h.sizes ?_ loop hmoved
  · exact ⟨by rw [h.header], rfl, sizes⟩
  · intro k s s' cs cs' same slot move
    exact moveSlot_agrees same slot move

theorem deleteRelFrom_agrees {fuel i : Nat} (h : Agrees m elf)
    (slots : SlotMain.deleteRelFrom fuel i m = .ok m')
    (run : dropRelFrom fuel i elf = .ok elf') : Agrees m' elf' := by
  induction fuel generalizing i m elf with
  | zero => cases slots
  | succ fuel ih =>
    rw [SlotMain.deleteRelFrom, h.header] at slots
    rw [dropRelFrom_succ] at run
    split at run
    next more =>
      rw [if_pos more] at slots
      obtain ⟨s, hs, slots⟩ := bind_eq_ok.mp slots
      obtain ⟨s', hs', run⟩ := bind_eq_ok.mp run
      rw [h.sectHeader] at hs
      cases hs.symm.trans hs'
      split at run
      next rel =>
        rw [if_pos rel] at slots
        obtain ⟨m1, deleted, slots⟩ := bind_eq_ok.mp slots
        obtain ⟨elf1, deleted', run⟩ := bind_eq_ok.mp run
        exact ih (deleteSection_agrees h deleted deleted') slots run
      next rel =>
        rw [if_neg rel] at slots
        exact ih h slots run
    next none =>
      rw [if_neg none] at slots
      cases slots
      cases run
      exact h

/-- The deletion on slots goes through the same tables as the one on bytes. -/
theorem deleteRel_keeps_agrees (h : Agrees m elf) (slots : m.deleteRel = .ok m')
    (run : deleteRel elf = .ok elf') : Agrees m' elf' := by
  rw [SlotMain.deleteRel, h.header] at slots
  exact deleteRelFrom_agrees h slots (deleteRel_weaker run)

end agreement

section matching

variable {heads : List Elf32Shdr} {cells : List SlotContent}

theorem assigned_iff :
    (∀ c ∈ cells, c.slot ≠ .unassigned) ↔ true ∉ cells.map SlotContent.isEmpty := by
  simp [SlotContent.isEmpty]

theorem filled_iff : (∀ s ∈ heads, s.shSize ≠ 0) ↔ true ∉ heads.map Elf32Shdr.isEmpty := by
  simp [Elf32Shdr.isEmpty]

theorem assigned_iff_filled
    (matched : cells.map SlotContent.isEmpty = heads.map Elf32Shdr.isEmpty) :
    (∀ c ∈ cells, c.slot ≠ .unassigned) ↔ ∀ s ∈ heads, s.shSize ≠ 0 := by
  rw [assigned_iff, filled_iff, matched]

theorem matched_of_filled (length : cells.length = heads.length)
    (assigned : ∀ c ∈ cells, c.slot ≠ .unassigned) (filled : ∀ s ∈ heads, s.shSize ≠ 0) :
    cells.map SlotContent.isEmpty = heads.map Elf32Shdr.isEmpty := by
  have left : cells.map SlotContent.isEmpty = List.replicate heads.length false :=
    List.eq_replicate_iff.mpr ⟨by simpa using length, by simpa [SlotContent.isEmpty] using assigned⟩
  have right : heads.map Elf32Shdr.isEmpty = List.replicate heads.length false :=
    List.eq_replicate_iff.mpr ⟨by simp, by simpa [Elf32Shdr.isEmpty] using filled⟩
  rw [left, right]

theorem matched_split {front back : List Elf32Shdr} {rel : Elf32Shdr}
    (matched : cells.map SlotContent.isEmpty = (front ++ rel :: back).map Elf32Shdr.isEmpty) :
    ∃ done x todo, cells = done ++ x :: todo ∧ done.length = front.length ∧
      todo.length = back.length ∧ done.map SlotContent.isEmpty = front.map Elf32Shdr.isEmpty ∧
      (x :: todo).map SlotContent.isEmpty = (rel :: back).map Elf32Shdr.isEmpty := by
  rw [List.map_append] at matched
  obtain ⟨done, rest, rfl, first, second⟩ := List.map_eq_append_iff.mp matched
  obtain ⟨x, todo, rfl, _, _⟩ := List.map_eq_cons_iff.mp second
  have fronts := congrArg List.length first
  have backs := congrArg List.length second
  simp only [List.length_map, List.length_cons, Nat.add_right_cancel_iff] at fronts backs
  exact ⟨done, x, todo, rfl, fronts, backs, first, second⟩

end matching

section moves

variable {content : List SlotContent} {heap heap' : Heap} {c x y : SlotContent}

theorem SlotContent.Sized.grow (h : c.Sized heap)
    (grows : heap.sizes <+: heap'.sizes) : c.Sized heap' := by
  intro b owned
  obtain ⟨n, there, size⟩ := h b owned
  obtain ⟨inside, rfl⟩ := List.getElem?_eq_some_iff.mp there
  exact ⟨_, List.prefix_iff_getElem?.mp grows b inside, size⟩

theorem releaseSlot_of_assigned (heap : Heap) {k : Nat} (hc : content[k]? = some c)
    (assigned : c.slot ≠ .unassigned) : ∃ b, c.slot = .owned b ∧
      releaseSlot k (content, heap) = .ok (content, heap.free b) := by
  obtain ⟨b, owned, use⟩ := use_of_assigned assigned
  exact ⟨b, owned, by rw [releaseSlot, fetch_eq_ok.mpr hc, ok_bind, use, ok_bind]⟩

theorem releaseSlot_of_unassigned {k : Nat} (hc : content[k]? = some c)
    (unassigned : c.slot = .unassigned) : releaseSlot k (content, heap) = .error .fault := by
  rw [releaseSlot, fetch_eq_ok.mpr hc, ok_bind, unassigned]
  rfl

/-- One content moved down by one place, out of a buffer into another. -/
theorem moveSlot_of_assigned (heap : Heap) (done rest : List SlotContent) {b n : Nat}
    (hx : x.slot = .owned b) (hy : y.slot ≠ .unassigned) (size : y.size = n) :
    moveSlot (done.length + 1) (done ++ x :: y :: rest, heap) =
      .ok (done ++ ⟨n, .owned (heap.realloc b n).1⟩ :: y :: rest, (heap.realloc b n).2) := by
  have src : (done ++ x :: y :: rest)[done.length + 1]? = some y := by simp
  obtain ⟨b', _, use⟩ := use_of_assigned hy
  rw [moveSlot]
  dsimp only
  rw [Nat.add_sub_cancel, fetch_append_cons, ok_bind, fetch_eq_ok.mpr src, ok_bind, hx, Slot.use,
    ok_bind, size, if_neg (by omega), Int.toNat_natCast, use, ok_bind, assign_append_cons, ok_bind]

theorem moveSlot_of_unassigned (done rest : List SlotContent)
    (h : x.slot = .unassigned ∨ y.slot = .unassigned) :
    moveSlot (done.length + 1) (done ++ x :: y :: rest, heap) = .error .fault := by
  have src : (done ++ x :: y :: rest)[done.length + 1]? = some y := by simp
  rw [moveSlot]
  dsimp only
  rw [Nat.add_sub_cancel, fetch_append_cons, ok_bind, fetch_eq_ok.mpr src, ok_bind]
  rcases h with hx | hy
  · rw [hx, Slot.use, error_bind]
  · cases hx : x.slot with
    | unassigned => rw [Slot.use, error_bind]
    | owned b =>
      rw [Slot.use, ok_bind, hy, Slot.use, error_bind]
      split <;> rfl

/-- What a loop over contents leaves: each has a buffer, of its size. -/
def Refilled (heap : Heap) (cells : List SlotContent) : Prop :=
  ∀ c ∈ cells, c.slot ≠ .unassigned ∧ c.Sized heap

theorem moveSlots_from (done : List SlotContent) {todo : List SlotContent}
    (tail : List SlotContent) (assigned : ∀ c ∈ x :: todo, c.slot ≠ .unassigned)
    (sized : ∀ c ∈ todo, c.Sized heap)
    (acc : Accounted ((done ++ x :: todo).map SlotContent.slot) heap) :
    ∃ moved heap', forLoop moveSlot (done.length + 1) todo.length
        (done ++ x :: (todo ++ tail), heap) =
        .ok (done ++ (moved ++ (x :: todo).getLast (by simp) :: tail), heap') ∧
      moved.map SlotContent.size = todo.map SlotContent.size ∧ Refilled heap' moved ∧
      heap.sizes <+: heap'.sizes ∧ Accounted
        ((done ++ (moved ++ [(x :: todo).getLast (by simp)])).map SlotContent.slot) heap' := by
  induction todo generalizing done x heap with
  | nil => exact ⟨[], heap, rfl, rfl, by simp [Refilled], List.prefix_refl _, by simpa using acc⟩
  | cons y todo ih =>
    obtain ⟨b, hx, _⟩ := use_of_assigned (assigned x (by simp))
    have hy := assigned y (by simp)
    obtain ⟨b', owned, _⟩ := use_of_assigned hy
    obtain ⟨n, _, size⟩ := sized y (by simp) b' owned
    have turn := moveSlot_of_assigned heap done (todo ++ tail) hx hy size
    set z : SlotContent := ⟨n, .owned (heap.realloc b n).1⟩ with hz
    set heap1 := (heap.realloc b n).2 with hheap1
    have grows : heap.sizes <+: heap1.sizes := ⟨[n], rfl⟩
    have acc1 : Accounted (((done ++ [z]) ++ y :: todo).map SlotContent.slot) heap1 := by
      rw [List.map_append, List.map_cons, hx] at acc
      simpa using acc.realloc n
    obtain ⟨moved, heap', run, sizes, refilled, grows', acc'⟩ := ih (done ++ [z])
      (fun c hc => assigned c (List.mem_cons_of_mem _ hc))
      (fun c hc => (sized c (List.mem_cons_of_mem _ hc)).grow grows) acc1
    refine ⟨z :: moved, heap', ?_, ?_, ?_, grows.trans grows', ?_⟩
    · rw [List.length_cons, forLoop_succ, List.cons_append, turn, ok_bind]
      simpa using run
    · rw [List.map_cons, List.map_cons, sizes, size]
    · intro c hc
      rcases List.mem_cons.mp hc with rfl | later
      · refine ⟨by simp [hz], SlotContent.Sized.grow ?_ grows'⟩
        intro b'' hb''
        cases hb''
        exact ⟨n, by simp [hheap1, Heap.realloc, Heap.malloc], rfl⟩
      · exact refilled c later
    · simpa using acc'

theorem moveSlots_unassigned (done : List SlotContent) {todo : List SlotContent}
    (tail : List SlotContent) (sized : ∀ c ∈ todo, c.Sized heap)
    (unassigned : ∃ c ∈ x :: todo, c.slot = .unassigned) :
    (forLoop moveSlot (done.length + 1) todo.length (done ++ x :: (todo ++ tail), heap) >>=
      releaseSlot (done.length + todo.length)) = .error .fault := by
  induction todo generalizing done x heap with
  | nil =>
    obtain ⟨c, member, hc⟩ := unassigned
    cases List.mem_singleton.mp member
    exact releaseSlot_of_unassigned (by simp) hc
  | cons y todo ih =>
    rw [List.length_cons, forLoop_succ, List.cons_append]
    by_cases here : x.slot = .unassigned ∨ y.slot = .unassigned
    · rw [moveSlot_of_unassigned done _ here]
      rfl
    · obtain ⟨hx, hy⟩ := not_or.mp here
      obtain ⟨b, owner, _⟩ := use_of_assigned hx
      obtain ⟨b', owned, _⟩ := use_of_assigned hy
      obtain ⟨n, _, size⟩ := sized y (by simp) b' owned
      have later := ((List.exists_mem_cons_iff _ _ _).mp unassigned).resolve_left hx
      have sized1 : ∀ c ∈ todo, c.Sized (heap.realloc b n).2 :=
        fun c hc => (sized c (List.mem_cons_of_mem _ hc)).grow ⟨[n], rfl⟩
      have rest := ih (done ++ [⟨n, .owned (heap.realloc b n).1⟩]) sized1 later
      rw [moveSlot_of_assigned heap done (todo ++ tail) owner hy size, ok_bind]
      simpa [Nat.add_assoc, Nat.add_comm 1] using rest

theorem removeSlot_filled (done : List SlotContent) {todo : List SlotContent}
    (tail : List SlotContent) (assigned : ∀ c ∈ x :: todo, c.slot ≠ .unassigned)
    (sized : ∀ c ∈ todo, c.Sized heap)
    (acc : Accounted ((done ++ x :: todo).map SlotContent.slot) heap) :
    ∃ moved rest heap', removeSlot done.length (done ++ x :: todo).length
        (done ++ x :: todo ++ tail, heap) = .ok (done ++ moved ++ rest, heap') ∧
      moved.map SlotContent.size = todo.map SlotContent.size ∧ Refilled heap' moved ∧
      heap.sizes <+: heap'.sizes ∧ Accounted ((done ++ moved).map SlotContent.slot) heap' := by
  obtain ⟨moved, heap1, run, sizes, refilled, grows, acc1⟩ :=
    moveSlots_from done tail assigned sized acc
  have length : moved.length = todo.length := by simpa using congrArg List.length sizes
  set last := (x :: todo).getLast (by simp) with hlast
  have there : (done ++ (moved ++ last :: tail))[done.length + todo.length]? = some last := by
    rw [← length, ← List.append_assoc, ← List.length_append]
    simp
  obtain ⟨b, owned, release⟩ := releaseSlot_of_assigned heap1 there
    (assigned last (List.getLast_mem _))
  refine ⟨moved, last :: tail, heap1.free b, ?_, sizes, ?_, grows, ?_⟩
  · have turns : (done ++ x :: todo).length - (done.length + 1) = todo.length := by simp; omega
    have index : (done ++ x :: todo).length - 1 = done.length + todo.length := by simp
    rw [removeSlot, turns, index, List.append_assoc, List.cons_append, run, ok_bind, release,
      List.append_assoc]
  · exact refilled
  · rw [← List.append_assoc, List.map_append, List.map_singleton, owned] at acc1
    simpa using acc1.free

theorem removeSlot_empty (done : List SlotContent) {todo : List SlotContent}
    (tail : List SlotContent) (sized : ∀ c ∈ todo, c.Sized heap)
    (unassigned : ∃ c ∈ x :: todo, c.slot = .unassigned) :
    removeSlot done.length (done ++ x :: todo).length (done ++ x :: todo ++ tail, heap) =
      .error .fault := by
  have turns : (done ++ x :: todo).length - (done.length + 1) = todo.length := by simp; omega
  have index : (done ++ x :: todo).length - 1 = done.length + todo.length := by simp
  rw [removeSlot, turns, index, List.append_assoc, List.cons_append]
  exact moveSlots_unassigned done tail sized unassigned

end moves

/-- The header loops of a deletion, over a table with further entries behind it. -/
theorem removeHeader (front : List Elf32Shdr) (rel : Elf32Shdr) (back tail : List Elf32Shdr) :
    ∃ shifted rest, shiftDown .ok front.length (front ++ rel :: back).length
        (front ++ rel :: back ++ tail) = .ok shifted ∧
      updateAll (relink front.length rel) (front ++ rel :: back).length shifted =
        .ok ((front ++ back).map (relink front.length rel) ++ rest) := by
  have copied : ∀ t ∈ back, (.ok t : Run Elf32Shdr) = .ok (id t) := fun _ _ => rfl
  have shift := shiftDown_append front tail rel copied
  set last := (rel :: back).getLast (by simp)
  have update := updateAll_append (relink front.length rel) (front ++ back ++ [last]) tail
  have count : (front ++ back ++ [last]).length = (front ++ rel :: back).length := by
    simp only [List.length_append, List.length_cons, List.length_nil]
    omega
  rw [count] at update
  refine ⟨_, relink front.length rel last :: tail, shift, ?_⟩
  simpa using update

section deletion

variable {m m' : SlotMain} {heads front back todo : List Elf32Shdr} {cells : List SlotContent}
  {rel : Elf32Shdr}

theorem shrink_count (h : m.header.eShnum.toNat = (front ++ rel :: back).length) (i : Nat) :
    (shrink i rel m.header).eShnum.toNat = (front ++ back).length := by
  have bound := m.header.eShnum.toNat_lt
  simp only [shrink, UInt16.toNat_sub, UInt16.toNat_one]
  simp only [h, List.length_append, List.length_cons] at bound ⊢
  omega

theorem Tidy.fetch_head {s : Elf32Shdr} (h : Tidy m (front ++ s :: todo) cells) :
    fetch m.sectHeader front.length = .ok s := by
  obtain ⟨tail, hheads⟩ := h.sectHeader
  rw [hheads, List.append_assoc, List.cons_append]
  exact fetch_append_cons front _ s

/-- A deletion where no section behind is empty moves the buffers down and releases the last. -/
theorem deleteSection_filled (h : Tidy m (front ++ rel :: back) cells)
    (filled : ∀ s ∈ rel :: back, s.shSize ≠ 0) :
    ∃ m' cells', m.deleteSection front.length = .ok m' ∧
      Tidy m' ((front ++ back).map (relink front.length rel)) cells' := by
  obtain ⟨heads, hheads⟩ := h.sectHeader
  obtain ⟨contents, hcontents⟩ := h.content
  obtain ⟨done, x, todo, rfl, fronts, backs, before, behind⟩ := matched_split h.matched
  have assigned := (assigned_iff_filled behind).mpr filled
  obtain ⟨moved, rest, heap', remove, sizes, refilled, grows, acc⟩ := removeSlot_filled done
    contents assigned (fun c hc => h.sized c (by simp [hc])) h.accounted
  obtain ⟨shifted, tail, shift, update⟩ := removeHeader front rel back heads
  have length : moved.length = back.length := by
    rw [← backs]
    simpa using congrArg List.length sizes
  have count : (done ++ x :: todo).length = (front ++ rel :: back).length := by
    simp only [List.length_append, List.length_cons, fronts, backs]
  have run : m.deleteSection front.length = .ok ⟨shrink front.length rel m.header,
      (front ++ back).map (relink front.length rel) ++ tail, done ++ moved ++ rest, heap'⟩ := by
    rw [SlotMain.deleteSection, h.fetch_head, ok_bind]
    dsimp only
    rw [h.count, hheads, hcontents, shift, ok_bind, ← fronts, ← count, remove, ok_bind]
    dsimp only
    rw [fronts, count, update, ok_bind]
  refine ⟨_, done ++ moved, run, ⟨?_, ⟨tail, rfl⟩, ⟨rest, rfl⟩, ?_, ?_, acc⟩⟩
  · rw [List.length_map]
    exact shrink_count h.count front.length
  · rw [List.map_append, before, List.map_map, List.map_append]
    have same := matched_of_filled length (fun c hc => (refilled c hc).1)
      (fun s hs => filled s (List.mem_cons_of_mem _ hs))
    rw [same]
    rfl
  · intro c hc
    rcases List.mem_append.mp hc with kept | new
    · exact (h.sized c (by simp [kept])).grow grows
    · exact (refilled c new).2

theorem deleteSection_empty (h : Tidy m (front ++ rel :: back) cells)
    (empty : ¬∀ s ∈ rel :: back, s.shSize ≠ 0) :
    m.deleteSection front.length = .error .fault := by
  obtain ⟨heads, hheads⟩ := h.sectHeader
  obtain ⟨contents, hcontents⟩ := h.content
  obtain ⟨done, x, todo, rfl, fronts, backs, _, behind⟩ := matched_split h.matched
  have unassigned : ∃ c ∈ x :: todo, c.slot = .unassigned := by
    rw [← assigned_iff_filled behind] at empty
    simpa only [not_forall, not_not, exists_prop] using empty
  obtain ⟨shifted, tail, shift, _⟩ := removeHeader front rel back heads
  have count : (done ++ x :: todo).length = (front ++ rel :: back).length := by
    simp only [List.length_append, List.length_cons, fronts, backs]
  have sized : ∀ c ∈ todo, c.Sized m.heap := fun c hc => h.sized c (by simp [hc])
  have remove := removeSlot_empty done contents sized unassigned
  rw [SlotMain.deleteSection, h.fetch_head, ok_bind]
  dsimp only
  rw [h.count, hheads, hcontents, shift, ok_bind, ← fronts, ← count, remove, error_bind]

/-- A pass of `deleteRel` from section `front.length` on: it removes what it finds, if all behind
has a buffer. -/
theorem deleteRelFrom_filled {fuel : Nat} (h : Tidy m (front ++ todo) cells)
    (kept : ∀ s ∈ front, s.kept = true) (enough : todo.length < fuel)
    (filled : Filled (fromFirstRel todo)) :
    ∃ m' heads' cells', SlotMain.deleteRelFrom fuel front.length m = .ok m' ∧
      Tidy m' heads' cells' ∧ (∀ s ∈ heads', s.kept = true) ∧
      (Filled heads' ↔ Filled (front ++ todo)) := by
  induction fuel generalizing m front todo cells with
  | zero => omega
  | succ fuel ih =>
    rw [SlotMain.deleteRelFrom, h.count]
    cases todo with
    | nil => exact ⟨m, front, cells, by simp, by simpa using h, kept, by simp⟩
    | cons s rest =>
      have more : front.length < (front ++ s :: rest).length := by simp
      have shorter : rest.length < fuel := by simpa using enough
      rw [if_pos more, h.fetch_head, ok_bind]
      by_cases stays : s.kept = true
      · have isRel : s.isRel = false := by simpa [Elf32Shdr.kept] using stays
        rw [fromFirstRel, List.dropWhile_cons_of_pos stays] at filled
        have front_kept : ∀ t ∈ front ++ [s], t.kept = true := by
          intro t ht
          rcases List.mem_append.mp ht with before | here
          · exact kept t before
          · rw [List.mem_singleton.mp here, stays]
        have moved : Tidy m ((front ++ [s]) ++ rest) cells := by simpa using h
        have step := ih moved front_kept shorter filled
        rw [isRel]
        simpa using step
      · have isRel : s.isRel = true := by simpa [Elf32Shdr.kept] using stays
        rw [fromFirstRel, List.dropWhile_cons_of_neg stays] at filled
        obtain ⟨m1, cells1, run, h1⟩ := deleteSection_filled h filled
        have behind : Filled rest := fun t ht => filled t (List.mem_cons_of_mem _ ht)
        have front_kept : ∀ t ∈ front.map (relink front.length s), t.kept = true := by
          intro t ht
          obtain ⟨u, hu, rfl⟩ := List.mem_map.mp ht
          exact kept u hu
        have rest_filled : Filled (fromFirstRel (rest.map (relink front.length s))) := by
          intro t ht
          exact (filled_relink _ s).mpr behind t ((List.dropWhile_sublist _).subset ht)
        rw [List.map_append] at h1
        obtain ⟨m', heads', cells', run', h', kept', same⟩ :=
          ih h1 front_kept (by simpa using shorter) rest_filled
        rw [List.length_map] at run'
        refine ⟨m', heads', cells', ?_, h', kept', ?_⟩
        · rw [isRel, if_pos rfl, run, ok_bind, run']
        · rw [same, ← List.map_append, filled_relink]
          simp only [Filled, List.mem_append, List.mem_cons] at filled ⊢
          grind

theorem deleteRelFrom_empty {fuel : Nat} (h : Tidy m (front ++ todo) cells)
    (enough : todo.length < fuel) (empty : ¬Filled (fromFirstRel todo)) :
    SlotMain.deleteRelFrom fuel front.length m = .error .fault := by
  induction fuel generalizing m front todo cells with
  | zero => omega
  | succ fuel ih =>
    cases todo with
    | nil => simp [Filled, fromFirstRel] at empty
    | cons s rest =>
      have more : front.length < (front ++ s :: rest).length := by simp
      rw [SlotMain.deleteRelFrom, h.count, if_pos more, h.fetch_head, ok_bind]
      by_cases stays : s.kept = true
      · have isRel : s.isRel = false := by simpa [Elf32Shdr.kept] using stays
        rw [fromFirstRel, List.dropWhile_cons_of_pos stays] at empty
        have moved : Tidy m ((front ++ [s]) ++ rest) cells := by simpa using h
        have step := ih moved (by simpa using enough) empty
        rw [isRel]
        simpa using step
      · have isRel : s.isRel = true := by simpa [Elf32Shdr.kept] using stays
        rw [fromFirstRel, List.dropWhile_cons_of_neg stays] at empty
        rw [isRel, if_pos rfl, deleteSection_empty h empty, error_bind]

/-- `deleteRel` keeps the contents tidy if no section from the first relocation section on is
empty. -/
theorem deleteRel_filled (h : Tidy m heads cells) (filled : Filled (fromFirstRel heads)) :
    ∃ m' heads' cells', m.deleteRel = .ok m' ∧ Tidy m' heads' cells' ∧
      (∀ s ∈ heads', s.kept = true) ∧ (Filled heads' ↔ Filled heads) :=
  @deleteRelFrom_filled m [] heads cells _ h (by simp) (by rw [h.count]; omega) filled

theorem deleteRel_empty (h : Tidy m heads cells) (empty : ¬Filled (fromFirstRel heads)) :
    m.deleteRel = .error .fault :=
  @deleteRelFrom_empty m [] heads cells _ h (by rw [h.count]; omega) empty

end deletion

end ArmRunner
