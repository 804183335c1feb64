import ArmRunner.Destination
import ArmRunner.Slots
import Mathlib.Data.List.TakeWhile

namespace ArmRunner

open CRun Buffers

/-- The buffer is there before its bytes are read, and a run that goes on has read them all. -/
def loadOneSlot (header : Elf32Ehdr) (sectHeader : List Elf32Shdr) (i : Nat) (s : CFile × Heap) :
    Run (SlotContent × (CFile × Heap)) := do
  let (f, heap) := s
  let sh ← fetch sectHeader i
  let (c, f) ← loadOneContent header sectHeader i f
  if sh.shSize = 0 then .ok (⟨c.size, .unassigned⟩, (f, heap))
  else
    let (buffer, heap) := heap.malloc c.sectionBytes.length
    .ok (⟨c.size, .owned buffer⟩, (f, heap))

/-- The load sequence of `main`, with the contents as slots. -/
def SlotMain.load (file : List UInt8) : Run SlotMain := do
  let (elf, f) ← loadTables file
  let (content, (_, heap)) ← collect (loadOneSlot elf.header elf.sectHeader) 0
    elf.header.eShnum.toNat (f.fseek elf.header.eEhsize.toNat, Heap.empty)
  .ok ⟨elf.header, elf.sectHeader, content, heap⟩

/-- The options of `main`. The ones that only list the other tables, and those for the files, which
the loop skips, make no difference here. -/
inductive MainOption
  | listing
  | dump (noSection : Int)
  | dumpAll
  | write (o : WritingOption)
  | unrecognized
  deriving DecidableEq, Repr

/-- The bytes of a content are printed out of its buffer, if the section has any. -/
def SlotMain.printContent (m : SlotMain) (i : Nat) : Run Unit := do
  let c ← fetch m.content i
  let s ← fetch m.sectHeader i
  if s.shSize = 0 then .ok ()
  else
    let _ ← c.slot.use
    .ok ()

def SlotMain.printSectionContentOne (m : SlotMain) (noSection : Int) : Run Unit :=
  if noSection ≥ m.header.eShnum.toNat then .ok ()
  else if noSection < 0 then .error .fault
  else m.printContent noSection.toNat

def SlotMain.printSectionContent (m : SlotMain) : Run Unit :=
  forLoop (fun i _ => m.printContent i) 0 m.header.eShnum.toNat ()

/-- One case of the loop over the options: without a destination the ones that write `exit`. -/
def SlotMain.processOption (dest : Bool) (m : SlotMain) : MainOption → Run SlotMain
  | .listing => .ok m
  | .dump noSection => do
    let _ ← m.printSectionContentOne noSection
    .ok m
  | .dumpAll => do
    let _ ← m.printSectionContent
    .ok m
  | .write o =>
    if dest then
      match o with
      | .delete => m.deleteRel
      | .copy => .ok m
      | .address _ => .ok m
    else .error .exit
  | .unrecognized => .error .exit

def SlotMain.processOptions (dest : Bool) (opts : List MainOption) (m : SlotMain) : Run SlotMain :=
  opts.foldlM (SlotMain.processOption dest) m

/-- The loop that frees the contents at the end of `main`. -/
def SlotMain.cleanup (m : SlotMain) : Run SlotMain := do
  let (content, heap) ← forLoop releaseSlot 0 m.header.eShnum.toNat (m.content, m.heap)
  .ok { m with content, heap }

def SlotMain.run (dest : Bool) (opts : List MainOption) (file : List UInt8) : Run SlotMain := do
  let m ← SlotMain.load file
  let m ← m.processOptions dest opts
  m.cleanup

/-- No pointer is used before it is assigned; between the options each content that has a buffer
has its own, of the recorded size, that is not released yet; none is released twice, and when
`main` is through all of them are released. -/
structure SlotsSafe (dest : Bool) (opts : List MainOption) (file : List UInt8) : Prop where
  assigned : SlotMain.run dest opts file ≠ .error .fault
  sized : ∀ first m, first <+: opts →
    (SlotMain.load file >>= SlotMain.processOptions dest first) = .ok m →
      ∀ i < m.header.eShnum.toNat, ∀ c, m.content[i]? = some c →
        c.Sized m.heap ∧ ∀ b, c.slot = .owned b → b ∉ m.heap.released
  once : ∀ first m, first <+: opts →
    (SlotMain.load file >>= SlotMain.processOptions dest first) = .ok m → m.heap.released.Nodup
  released : ∀ m, SlotMain.run dest opts file = .ok m →
    ∀ b < m.heap.sizes.length, m.heap.released.count b = 1

/-- The options up to the first one that ends the program. -/
def MainOption.ends (dest : Bool) : MainOption → Bool
  | .write _ => !dest
  | .unrecognized => true
  | _ => false

def executed (dest : Bool) (opts : List MainOption) : List MainOption :=
  opts.takeWhile fun o => !o.ends dest

/-- What a sequence of options needs of the sections that it meets. -/
structure OptionsFilled (dest : Bool) (heads : List Elf32Shdr) (opts : List MainOption) :
    Prop where
  dumps : ∀ n, .dump n ∈ executed dest opts → 0 ≤ n
  deletion : .write .delete ∈ executed dest opts → Filled (fromFirstRel heads)

/-- The size of the last content fits in an `int`. -/
def LastFits (elf : Elf32Main) : Prop :=
  ∀ s, elf.sectHeader.getLast? = some s →
    s.shSize = 0 ∨ (elf.header.eShoff - s.shOffset).toNat < 2 ^ 31

/-- Where a loop moves or frees contents, no section is empty. -/
structure SlotsFilled (elf : Elf32Main) (dest : Bool) (opts : List MainOption) : Prop where
  last : LastFits elf
  options : OptionsFilled dest elf.sectHeader opts
  cleanup : executed dest opts = opts → Filled elf.sectHeader

/-- A slot as the loader leaves it, for a section and the content that was read. -/
structure LoadedSlot (heap : Heap) (s : Elf32Shdr) (c : SectionContent) (d : SlotContent) :
    Prop where
  empty : d.slot = .unassigned ↔ s.shSize = 0
  size : d.size = c.size
  buffer : ∀ b, d.slot = .owned b → heap.sizes[b]? = some c.sectionBytes.length

section load

variable {header : Elf32Ehdr} {sectHeader : List Elf32Shdr}

theorem LoadedSlot.grow {heap heap' : Heap} {s : Elf32Shdr} {c : SectionContent} {d : SlotContent}
    (h : LoadedSlot heap s c d) (grows : heap.sizes <+: heap'.sizes) :
    LoadedSlot heap' s c d := by
  refine ⟨h.empty, h.size, ?_⟩
  intro b owned
  obtain ⟨inside, same⟩ := List.getElem?_eq_some_iff.mp (h.buffer b owned)
  rw [← same]
  exact List.prefix_iff_getElem?.mp grows b inside

/-- Only the size of the last content can differ from that of its buffer. -/
theorem LoadedSlot.sized_iff {heap : Heap} {i : Nat} {f f' : CFile} {s : Elf32Shdr}
    {c : SectionContent} {d : SlotContent} (h : LoadedSlot heap s c d)
    (read : loadOneContent header sectHeader i f = .ok (c, f')) (hs : sectHeader[i]? = some s) :
    d.Sized heap ↔ s.shSize = 0 ∨ i + 1 < header.eShnum.toNat ∨
      (header.eShoff - s.shOffset).toNat < 2 ^ 31 := by
  rcases loadOneContent_sized read hs with ⟨fits, filled⟩ | ⟨overflows, negative⟩
  · refine iff_of_true ?_ fits
    intro b owned
    exact ⟨_, h.buffer b owned, h.size.trans filled⟩
  · refine iff_of_false ?_ overflows
    intro sized
    have assigned : d.slot ≠ .unassigned := fun empty => overflows (Or.inl (h.empty.mp empty))
    obtain ⟨b, owned, _⟩ := use_of_assigned assigned
    obtain ⟨n, _, size⟩ := sized b owned
    have same := h.size
    omega

theorem loadOneSlot_loaded {i : Nat} {f f' : CFile} {c : SectionContent} {s : Elf32Shdr}
    {done : List SlotContent} {heap : Heap} (hs : sectHeader[i]? = some s)
    (read : loadOneContent header sectHeader i f = .ok (c, f'))
    (acc : Accounted (done.map SlotContent.slot) heap) :
    ∃ d heap', loadOneSlot header sectHeader i (f, heap) = .ok (d, (f', heap')) ∧
      LoadedSlot heap' s c d ∧ heap.sizes <+: heap'.sizes ∧
      Accounted ((done ++ [d]).map SlotContent.slot) heap' := by
  rw [loadOneSlot, fetch_eq_ok.mpr hs, ok_bind, read, ok_bind]
  by_cases empty : s.shSize = 0
  · refine ⟨⟨c.size, .unassigned⟩, heap, if_pos empty, ⟨by simp [empty], rfl, ?_⟩,
      List.prefix_refl _, ?_⟩
    · intro b owned
      cases owned
    · simpa [Accounted] using acc
  · refine ⟨⟨c.size, .owned (heap.malloc c.sectionBytes.length).1⟩,
      (heap.malloc c.sectionBytes.length).2, if_neg empty, ⟨by simp [empty], rfl, ?_⟩,
      ⟨_, rfl⟩, ?_⟩
    · intro b owned
      cases owned
      simp [Heap.malloc]
    · have none : Accounted (done.map SlotContent.slot ++ []) heap := by simpa using acc
      simpa using none.malloc c.sectionBytes.length

theorem loadSlots_loaded {i n : Nat} {f f' : CFile} {cs : List SectionContent}
    {done : List SlotContent} {heap : Heap}
    (read : collect (loadOneContent header sectHeader) i n f = .ok (cs, f'))
    (acc : Accounted (done.map SlotContent.slot) heap) :
    ∃ ds heap', collect (loadOneSlot header sectHeader) i n (f, heap) = .ok (ds, (f', heap')) ∧
      ds.map SlotContent.size = cs.map SectionContent.size ∧ heap.sizes <+: heap'.sizes ∧
      Accounted ((done ++ ds).map SlotContent.slot) heap' ∧ ∀ k d, ds[k]? = some d →
        ∃ s c g g', sectHeader[i + k]? = some s ∧
          loadOneContent header sectHeader (i + k) g = .ok (c, g') ∧ LoadedSlot heap' s c d := by
  induction n generalizing i f cs done heap with
  | zero =>
    cases read
    exact ⟨[], heap, rfl, rfl, List.prefix_refl _, by simpa using acc, by simp⟩
  | succ n ih =>
    obtain ⟨c, g, cs, first, later, rfl⟩ := collect_succ_eq_ok.mp read
    obtain ⟨s, found, _⟩ := bind_eq_ok.mp first
    have hs := fetch_eq_ok.mp found
    obtain ⟨d, heap1, slot, loaded, grows, acc1⟩ := loadOneSlot_loaded hs first acc
    obtain ⟨ds, heap', slots, sizes, grows', acc', all⟩ := ih later acc1
    refine ⟨d :: ds, heap', collect_succ_eq_ok.mpr ⟨d, _, ds, slot, slots, rfl⟩,
      by rw [List.map_cons, List.map_cons, loaded.size, sizes], grows.trans grows',
      by simpa using acc', ?_⟩
    intro k e he
    cases k with
    | zero =>
      cases he
      exact ⟨s, c, f, g, hs, first, loaded.grow grows'⟩
    | succ k =>
      rw [show i + (k + 1) = i + 1 + k by omega]
      exact all k e he

/-- What a file that loads leaves in memory at the start of the loop over the options. -/
theorem load_slots {file : List UInt8} {elf : Elf32Main} {f : CFile}
    (hload : load file = .ok (elf, f)) :
    ∃ content heap, SlotMain.load file = .ok ⟨elf.header, elf.sectHeader, content, heap⟩ ∧
      content.length = elf.header.eShnum.toNat ∧
      content.map SlotContent.size = elf.sectionContent.map SectionContent.size ∧
      Accounted (content.map SlotContent.slot) heap ∧
      ∀ k d, content[k]? = some d → ∃ s, elf.sectHeader[k]? = some s ∧
        (d.slot = .unassigned ↔ s.shSize = 0) ∧
        (d.Sized heap ↔ s.shSize = 0 ∨ k + 1 < elf.header.eShnum.toNat ∨
          (elf.header.eShoff - s.shOffset).toNat < 2 ^ 31) := by
  obtain ⟨⟨tables, f4⟩, htables, rest⟩ := bind_eq_ok.mp hload
  obtain ⟨⟨contents, g⟩, hcontent, done⟩ := bind_eq_ok.mp rest
  cases done
  have start : Accounted (([] : List SlotContent).map SlotContent.slot) Heap.empty :=
    accounted_empty
  obtain ⟨content, heap, slots, sizes, _, acc, all⟩ := loadSlots_loaded hcontent start
  refine ⟨content, heap, ?_, collect_length slots, sizes, by simpa using acc, ?_⟩
  · rw [SlotMain.load, htables, ok_bind]
    dsimp only
    rw [slots, ok_bind]
  · intro k d hd
    obtain ⟨s, c, g, g', hs, read, loaded⟩ := all k d hd
    rw [Nat.zero_add] at hs read
    exact ⟨s, hs, loaded.empty, loaded.sized_iff read hs⟩

end load

section start

variable {file : List UInt8} {elf : Elf32Main} {f : CFile}

/-- The options start with tidy contents, but for the size of the last one. -/
theorem load_tidy (hload : load file = .ok (elf, f)) :
    ∃ m cells, SlotMain.load file = .ok m ∧ (LastFits elf → Tidy m elf.sectHeader cells) ∧
      (¬LastFits elf → ∃ i < m.header.eShnum.toNat, ∃ c, m.content[i]? = some c ∧
        ¬c.Sized m.heap) := by
  have whole := load_loaded hload
  obtain ⟨content, heap, run, length, _, acc, all⟩ := load_slots hload
  refine ⟨_, content, run, ?_, ?_⟩
  · intro fits
    refine ⟨whole.heads.symm, ⟨[], by simp⟩, ⟨[], by simp⟩, ?_, ?_, acc⟩
    · apply List.ext_getElem (by simp [length, whole.heads])
      intro k hk hk'
      simp only [List.length_map] at hk hk'
      obtain ⟨s, hs, empty, _⟩ := all k content[k] (List.getElem?_eq_getElem hk)
      obtain ⟨_, rfl⟩ := List.getElem?_eq_some_iff.mp hs
      simp only [List.getElem_map, SlotContent.isEmpty, Elf32Shdr.isEmpty, Bool.beq_eq_decide_eq,
        empty]
    · intro d hd
      obtain ⟨k, hk⟩ := List.mem_iff_getElem?.mp hd
      obtain ⟨s, hs, _, sized⟩ := all k d hk
      refine sized.mpr ?_
      by_cases inner : k + 1 < elf.header.eShnum.toNat
      · exact Or.inr (Or.inl inner)
      · have low := (List.getElem?_eq_some_iff.mp hs).1
        have last : elf.sectHeader.getLast? = some s := by
          rw [List.getLast?_eq_getElem?, ← hs]
          congr 1
          have := whole.heads
          omega
        exact (fits s last).imp id Or.inr
  · intro overflows
    simp only [LastFits, not_forall, not_or] at overflows
    obtain ⟨s, last, filled, large⟩ := overflows
    rw [List.getLast?_eq_getElem?] at last
    have low := (List.getElem?_eq_some_iff.mp last).1
    have count := whole.heads
    have there : elf.sectHeader.length - 1 < content.length := by omega
    refine ⟨elf.sectHeader.length - 1, by simp only; omega, content[elf.sectHeader.length - 1],
      List.getElem?_eq_getElem there, ?_⟩
    obtain ⟨s', hs, _, sized⟩ := all _ _ (List.getElem?_eq_getElem there)
    cases last.symm.trans hs
    rw [sized]
    rintro (empty | inner | small)
    · exact filled empty
    · omega
    · exact large small

/-- No size of a content is negative when that of the last one fits. -/
theorem contentsMovable_of_fits (hload : load file = .ok (elf, f)) (fits : LastFits elf) :
    ContentsMovable elf := by
  intro i j r c hij _ _ hc
  obtain ⟨_, _, _, _, _, _, _, _, _, _, hcontent⟩ := load_parts hload
  have loaded := load_loaded hload
  have sized : ∀ (k : Nat) (c : SectionContent), elf.sectionContent[k]? = some c →
      0 ≤ c.size := by
    intro k c hc
    have sizes := (collect_invariant (I := fun _ => True) (P := fun k c =>
      ∀ s, elf.sectHeader[k]? = some s → s.shSize = 0 ∨ k + 1 < elf.header.eShnum.toNat ∨
        (elf.header.eShoff - s.shOffset).toNat < 2 ^ 31 → c.Filled) hcontent trivial ?_).2 k c hc
    · have hk := (List.getElem?_eq_some_iff.mp hc).1
      rw [loaded.contents, ← loaded.heads] at hk
      have hs := List.getElem?_eq_getElem hk
      have filled : c.size = c.sectionBytes.length := by
        refine sizes _ (by rwa [Nat.zero_add]) ?_
        by_cases inner : k + 1 < elf.header.eShnum.toNat
        · exact Or.inr (Or.inl (by rwa [Nat.zero_add]))
        · have last : elf.sectHeader.getLast? = some elf.sectHeader[k] := by
            rw [List.getLast?_eq_getElem?, ← hs]
            congr 1
            have := loaded.heads
            omega
          exact (fits _ last).imp id Or.inr
      omega
    · intro k t c t' _ _ _ hk
      refine ⟨trivial, fun s hs held => ?_⟩
      rcases loadOneContent_sized hk hs with ⟨-, filled⟩ | ⟨overflows, -⟩
      · exact filled
      · exact absurd held overflows
  exact sized j c hc

/-- The model with slots and the one with bytes load the same tables, return from the deletion for
the same files, and then have the same tables again. -/
theorem deleteRel_agrees (hload : load file = .ok (elf, f)) (fits : LastFits elf) :
    ∃ m, SlotMain.load file = .ok m ∧ Agrees m elf ∧
      ((∃ m', m.deleteRel = .ok m') ↔ ∃ elf', deleteRel elf = .ok elf') ∧
      ∀ m' elf', m.deleteRel = .ok m' → deleteRel elf = .ok elf' → Agrees m' elf' := by
  have loaded := load_loaded hload
  obtain ⟨content, heap, start, _, sizes, _⟩ := load_slots hload
  obtain ⟨m, cells, start', tidy, _⟩ := load_tidy hload
  cases start.symm.trans start'
  have agrees : Agrees ⟨elf.header, elf.sectHeader, content, heap⟩ elf := ⟨rfl, rfl, sizes⟩
  refine ⟨_, start, agrees, ?_, fun m' elf' => deleteRel_keeps_agrees agrees⟩
  constructor
  · rintro ⟨m', run⟩
    have filled : Filled (fromFirstRel elf.sectHeader) := by
      by_contra empty
      cases (deleteRel_empty (tidy fits) empty).symm.trans run
    obtain ⟨elf', _, run', _⟩ :=
      loaded.deleteRel_run (load_matched hload) ⟨contentsMovable_of_fits hload fits, filled⟩
    exact ⟨elf', run'⟩
  · rintro ⟨elf', run⟩
    have deletable := (loaded.deleteRel_returned (load_matched hload) run).1
    obtain ⟨m', _, _, run', _⟩ := deleteRel_filled (tidy fits) deletable.filled
    exact ⟨m', run'⟩

end start

section cleanup

variable {content : List SlotContent} {heap : Heap}

theorem releaseAll_from (done : List SlotContent) {todo : List SlotContent}
    (tail : List SlotContent) (assigned : ∀ c ∈ todo, c.slot ≠ .unassigned)
    (acc : Accounted (todo.map SlotContent.slot) heap) :
    ∃ heap', forLoop releaseSlot done.length todo.length (done ++ (todo ++ tail), heap) =
        .ok (done ++ (todo ++ tail), heap') ∧ Accounted [] heap' := by
  induction todo generalizing done heap with
  | nil => exact ⟨heap, rfl, acc⟩
  | cons c todo ih =>
    have here : (done ++ (c :: todo ++ tail))[done.length]? = some c := by simp
    obtain ⟨b, owned, release⟩ := releaseSlot_of_assigned heap here (assigned c (by simp))
    have first : Accounted ([] ++ .owned b :: todo.map SlotContent.slot) heap := by
      rwa [List.map_cons, owned] at acc
    obtain ⟨heap', run, acc'⟩ := ih (done ++ [c])
      (fun d hd => assigned d (List.mem_cons_of_mem _ hd)) first.free
    refine ⟨heap', ?_, acc'⟩
    rw [List.length_cons, forLoop_succ, release, ok_bind]
    simpa using run

theorem releaseAll_unassigned (heap : Heap) (done : List SlotContent) {todo : List SlotContent}
    (tail : List SlotContent) (unassigned : ∃ c ∈ todo, c.slot = .unassigned) :
    forLoop releaseSlot done.length todo.length (done ++ (todo ++ tail), heap) =
      .error .fault := by
  induction todo generalizing done heap with
  | nil => simp at unassigned
  | cons c todo ih =>
    have here : (done ++ (c :: todo ++ tail))[done.length]? = some c := by simp
    rw [List.length_cons, forLoop_succ]
    by_cases empty : c.slot = .unassigned
    · rw [releaseSlot_of_unassigned here empty]
      rfl
    · obtain ⟨b, _, release⟩ := releaseSlot_of_assigned heap here empty
      have later := ((List.exists_mem_cons_iff _ _ _).mp unassigned).resolve_left empty
      have rest := ih (heap.free b) (done ++ [c]) later
      rw [release, ok_bind]
      simpa using rest

end cleanup

section options

variable {m : SlotMain} {heads : List Elf32Shdr} {cells : List SlotContent} {dest : Bool}
  {o : MainOption} {opts : List MainOption}

theorem Tidy.cells_length (h : Tidy m heads cells) : cells.length = heads.length := by
  simpa using congrArg List.length h.matched

theorem cleanup_filled (h : Tidy m heads cells) (filled : Filled heads) :
    ∃ heap, m.cleanup = .ok { m with heap } ∧ Accounted [] heap := by
  obtain ⟨tail, contents⟩ := h.content
  obtain ⟨heap, run, acc⟩ :=
    releaseAll_from [] tail ((assigned_iff_filled h.matched).mpr filled) h.accounted
  refine ⟨heap, ?_, acc⟩
  rw [List.length_nil, List.nil_append, ← contents] at run
  rw [SlotMain.cleanup, h.count, ← h.cells_length, run, ok_bind]

theorem cleanup_empty (h : Tidy m heads cells) (empty : ¬Filled heads) :
    m.cleanup = .error .fault := by
  obtain ⟨tail, contents⟩ := h.content
  have unassigned : ∃ c ∈ cells, c.slot = .unassigned := by
    rw [Filled, ← assigned_iff_filled h.matched] at empty
    simpa only [not_forall, not_not, exists_prop] using empty
  have run := releaseAll_unassigned m.heap [] tail unassigned
  rw [List.length_nil, List.nil_append, ← contents] at run
  rw [SlotMain.cleanup, h.count, ← h.cells_length, run, error_bind]

theorem printContent_ok (h : Tidy m heads cells) {i : Nat} (inside : i < heads.length) :
    m.printContent i = .ok () := by
  obtain ⟨tail, contents⟩ := h.content
  obtain ⟨rest, hheads⟩ := h.sectHeader
  have length := h.cells_length
  have hs : m.sectHeader[i]? = some heads[i] := by
    rw [hheads, List.getElem?_append_left inside, List.getElem?_eq_getElem inside]
  have hc : m.content[i]? = some cells[i] := by
    rw [contents, List.getElem?_append_left (by omega), List.getElem?_eq_getElem]
  have matched := congrArg (·[i]?) h.matched
  simp only [List.getElem?_map, List.getElem?_eq_getElem inside,
    List.getElem?_eq_getElem (length ▸ inside), Option.map_some, Option.some.injEq,
    SlotContent.isEmpty, Elf32Shdr.isEmpty] at matched
  rw [SlotMain.printContent, fetch_eq_ok.mpr hc, ok_bind, fetch_eq_ok.mpr hs, ok_bind]
  by_cases empty : heads[i].shSize = 0
  · rw [if_pos empty]
  · have assigned : cells[i].slot ≠ .unassigned := by
      intro unassigned
      simp [unassigned, empty] at matched
    obtain ⟨b, _, use⟩ := use_of_assigned assigned
    rw [if_neg empty, use, ok_bind]

theorem printSectionContentOne_ok (h : Tidy m heads cells) {n : Int} (positive : 0 ≤ n) :
    m.printSectionContentOne n = .ok () := by
  rw [SlotMain.printSectionContentOne, h.count]
  split
  · rfl
  · rw [if_neg (by omega)]
    exact printContent_ok h (by omega)

theorem printSectionContentOne_negative (m : SlotMain) {n : Int} (negative : n < 0) :
    m.printSectionContentOne n = .error .fault := by
  rw [SlotMain.printSectionContentOne, if_neg (by omega), if_pos negative]

theorem printSectionContent_ok (h : Tidy m heads cells) : m.printSectionContent = .ok () := by
  obtain ⟨u, run⟩ : ∃ u, m.printSectionContent = .ok u := by
    apply forLoop_returns
    intro k u _ hk
    exact ⟨(), printContent_ok h (by rw [← h.count]; omega)⟩
  exact run

theorem executed_cons (goes : o.ends dest = false) :
    executed dest (o :: opts) = o :: executed dest opts := by
  simp [executed, goes]

theorem executed_ends (ends : o.ends dest = true) : executed dest (o :: opts) = [] := by
  simp [executed, ends]

/-- An option that ends the program does so before it looks at the contents. -/
theorem processOption_ends (ends : o.ends dest = true) :
    m.processOption dest o = .error .exit := by
  cases o with
  | listing | dump n | dumpAll => cases ends
  | write o =>
    have none : dest = false := by simpa [MainOption.ends] using ends
    rw [none]
    rfl
  | unrecognized => rfl

/-- An option returns with tidy contents, and what comes behind it needs of them what the whole
needed before. -/
def GoesOn (dest : Bool) (m : SlotMain) (heads : List Elf32Shdr) (o : MainOption) : Prop :=
  ∃ m' heads' cells', m.processOption dest o = .ok m' ∧ Tidy m' heads' cells' ∧
    (Filled heads' ↔ Filled heads) ∧
    ∀ opts, OptionsFilled dest heads (o :: opts) ↔ OptionsFilled dest heads' opts

theorem goesOn_unchanged (h : Tidy m heads cells) (goes : o.ends dest = false)
    (run : m.processOption dest o = .ok m) (other : o ≠ .write .delete)
    (shown : ∀ n, o = .dump n → 0 ≤ n) : GoesOn dest m heads o := by
  refine ⟨m, heads, cells, run, h, Iff.rfl, ?_⟩
  intro opts
  constructor
  · rintro ⟨dumps, deletion⟩
    rw [executed_cons goes] at dumps deletion
    exact ⟨fun n hn => dumps n (List.mem_cons_of_mem _ hn),
      fun deleted => deletion (List.mem_cons_of_mem _ deleted)⟩
  · rintro ⟨dumps, deletion⟩
    refine ⟨?_, ?_⟩
    · intro n hn
      rw [executed_cons goes] at hn
      rcases List.mem_cons.mp hn with here | later
      · exact shown n here.symm
      · exact dumps n later
    · intro deleted
      rw [executed_cons goes] at deleted
      exact deletion ((List.mem_cons.mp deleted).resolve_left fun here => other here.symm)

theorem goesOn_delete (h : Tidy m heads cells) (filled : Filled (fromFirstRel heads)) :
    GoesOn true m heads (.write .delete) := by
  obtain ⟨m', heads', cells', deleted, h', kept, same⟩ := deleteRel_filled h filled
  have goes : MainOption.ends true (.write .delete) = false := rfl
  have none : fromFirstRel heads' = [] := by
    rw [fromFirstRel, List.dropWhile_eq_nil_iff]
    exact kept
  refine ⟨m', heads', cells', deleted, h', same, ?_⟩
  intro opts
  constructor
  · rintro ⟨dumps, _⟩
    rw [executed_cons goes] at dumps
    refine ⟨fun n hn => dumps n (List.mem_cons_of_mem _ hn), fun _ => ?_⟩
    simp [Filled, none]
  · rintro ⟨dumps, _⟩
    refine ⟨?_, fun _ => filled⟩
    intro n hn
    rw [executed_cons goes] at hn
    exact dumps n (by simpa using hn)

/-- One option: it goes on, or it uses a pointer that is not assigned. -/
theorem processOption_tidy (h : Tidy m heads cells) (goes : o.ends dest = false) :
    GoesOn dest m heads o ∨
      m.processOption dest o = .error .fault ∧ ∀ opts, ¬OptionsFilled dest heads (o :: opts) := by
  cases o with
  | listing => exact Or.inl (goesOn_unchanged h goes rfl (by simp) (by simp))
  | dump n =>
    by_cases negative : n < 0
    · refine Or.inr ⟨?_, ?_⟩
      · rw [SlotMain.processOption, printSectionContentOne_negative m negative, error_bind]
      · rintro opts ⟨dumps, _⟩
        have := dumps n (by simp [executed_cons goes])
        omega
    · refine Or.inl (goesOn_unchanged h goes ?_ (by simp) ?_)
      · rw [SlotMain.processOption, printSectionContentOne_ok h (by omega), ok_bind]
      · intro k same
        cases same
        omega
  | dumpAll =>
    refine Or.inl (goesOn_unchanged h goes ?_ (by simp) (by simp))
    rw [SlotMain.processOption, printSectionContent_ok h, ok_bind]
  | write w =>
    obtain rfl : dest = true := by simpa [MainOption.ends] using goes
    cases w with
    | copy => exact Or.inl (goesOn_unchanged h goes rfl (by simp) (by simp))
    | address a => exact Or.inl (goesOn_unchanged h goes rfl (by simp) (by simp))
    | delete =>
      by_cases filled : Filled (fromFirstRel heads)
      · exact Or.inl (goesOn_delete h filled)
      · refine Or.inr ⟨deleteRel_empty h filled, ?_⟩
        rintro opts ⟨_, deletion⟩
        exact filled (deletion (by simp [executed_cons goes]))
  | unrecognized => cases goes

/-- A run over the options, by induction on them. -/
theorem processOptions_tidy (h : Tidy m heads cells) (opts : List MainOption) :
    (OptionsFilled dest heads opts ∧
      ((∃ m' heads' cells', m.processOptions dest opts = .ok m' ∧ Tidy m' heads' cells' ∧
        (Filled heads' ↔ Filled heads) ∧ executed dest opts = opts) ∨
      (m.processOptions dest opts = .error .exit ∧ executed dest opts ≠ opts))) ∨
    (¬OptionsFilled dest heads opts ∧ m.processOptions dest opts = .error .fault) := by
  induction opts generalizing m heads cells with
  | nil =>
    refine Or.inl ⟨⟨by simp [executed], by simp [executed]⟩, Or.inl ?_⟩
    exact ⟨m, heads, cells, rfl, h, Iff.rfl, rfl⟩
  | cons o opts ih =>
    rw [SlotMain.processOptions, List.foldlM_cons]
    by_cases ends : o.ends dest = true
    · have none := @executed_ends dest o opts ends
      refine Or.inl ⟨⟨by simp [none], by simp [none]⟩, Or.inr ⟨?_, by simp [none]⟩⟩
      rw [processOption_ends ends, error_bind]
    · have goes : o.ends dest = false := by simpa using ends
      have run := @executed_cons dest o opts goes
      rcases processOption_tidy h goes with ⟨m1, heads1, cells1, step, h1, same, needs⟩ |
        ⟨step, never⟩
      · rw [step, ok_bind, needs opts, run]
        rcases ih h1 with ⟨allowed, ⟨m', heads', cells', rest, h', same', all⟩ | ⟨rest, cut⟩⟩ |
          ⟨refused, rest⟩
        · exact Or.inl ⟨allowed, Or.inl ⟨m', heads', cells', rest, h', same'.trans same,
            by rw [all]⟩⟩
        · exact Or.inl ⟨allowed, Or.inr ⟨rest, by simpa using cut⟩⟩
        · exact Or.inr ⟨refused, rest⟩
      · exact Or.inr ⟨never opts, by rw [step, error_bind]⟩

theorem Tidy.live (h : Tidy m heads cells) {i : Nat} (inside : i < m.header.eShnum.toNat)
    {c : SlotContent} (hc : m.content[i]? = some c) :
    c.Sized m.heap ∧ ∀ b, c.slot = .owned b → b ∉ m.heap.released := by
  obtain ⟨tail, contents⟩ := h.content
  have length := h.cells_length
  have count := h.count
  rw [contents, List.getElem?_append_left (by omega)] at hc
  have member := List.mem_of_getElem? hc
  refine ⟨h.sized c member, ?_⟩
  intro b owned
  exact (h.accounted.live (List.mem_map.mpr ⟨c, member, owned⟩)).2

end options

section runs

variable {file : List UInt8} {elf : Elf32Main} {f : CFile} {m : SlotMain}
  {cells : List SlotContent} {dest : Bool} {opts : List MainOption}

theorem run_eq (start : SlotMain.load file = .ok m) :
    SlotMain.run dest opts file = m.processOptions dest opts >>= SlotMain.cleanup := by
  rw [SlotMain.run, start, ok_bind]

theorem SlotsSafe.filled (safe : SlotsSafe dest opts file) (hload : load file = .ok (elf, f)) :
    SlotsFilled elf dest opts := by
  obtain ⟨m, cells, start, tidy, unsized⟩ := load_tidy hload
  have last : LastFits elf := by
    by_contra overflows
    obtain ⟨i, inside, c, hc, wrong⟩ := unsized overflows
    exact wrong (safe.sized [] m List.nil_prefix (by rw [start, ok_bind]; rfl) i inside c hc).1
  have assigned := safe.assigned
  rw [run_eq start] at assigned
  rcases processOptions_tidy (tidy last) opts with
    ⟨allowed, ⟨m', heads', cells', ok, h', same, _⟩ | ⟨_, cut⟩⟩ | ⟨_, fault⟩
  · refine ⟨last, allowed, fun _ => ?_⟩
    by_contra empty
    rw [ok, ok_bind, cleanup_empty h' (mt same.mp empty)] at assigned
    exact assigned rfl
  · exact ⟨last, allowed, fun all => absurd all cut⟩
  · rw [fault] at assigned
    exact absurd rfl assigned

/-- The contents are tidy wherever the loop over the options gets. -/
theorem reached_tidy (h : Tidy m elf.sectHeader cells) (start : SlotMain.load file = .ok m)
    {first : List MainOption} {m' : SlotMain}
    (ok : (SlotMain.load file >>= SlotMain.processOptions dest first) = .ok m') :
    ∃ heads' cells', Tidy m' heads' cells' := by
  rw [start, ok_bind] at ok
  rcases processOptions_tidy h first with
    ⟨_, ⟨m1, heads1, cells1, ok1, h1, _⟩ | ⟨exits, _⟩⟩ | ⟨_, fault⟩
  · cases ok1.symm.trans ok
    exact ⟨heads1, cells1, h1⟩
  · cases exits.symm.trans ok
  · cases fault.symm.trans ok

/-- A run ends at an option, or with every buffer released. -/
theorem run_released (h : Tidy m elf.sectHeader cells) (start : SlotMain.load file = .ok m)
    (filled : SlotsFilled elf dest opts) :
    SlotMain.run dest opts file = .error .exit ∨
      ∃ m', SlotMain.run dest opts file = .ok m' ∧ Accounted [] m'.heap := by
  rw [run_eq start]
  rcases processOptions_tidy h opts with
    ⟨_, ⟨m', heads', cells', ok, h', same, all⟩ | ⟨exits, _⟩⟩ | ⟨refused, _⟩
  · obtain ⟨heap, clean, acc⟩ := cleanup_filled h' (same.mpr (filled.cleanup all))
    exact Or.inr ⟨_, by rw [ok, ok_bind, clean], acc⟩
  · exact Or.inl (by rw [exits, error_bind])
  · exact absurd filled.options refused

theorem SlotsFilled.safe (filled : SlotsFilled elf dest opts)
    (hload : load file = .ok (elf, f)) : SlotsSafe dest opts file := by
  obtain ⟨m, cells, start, tidy, _⟩ := load_tidy hload
  have h := tidy filled.last
  have whole := run_released h start filled
  constructor
  case assigned =>
    rcases whole with exits | ⟨m', ok, _⟩
    · simp [exits]
    · simp [ok]
  case sized =>
    intro first m' _ ok i inside c hc
    obtain ⟨heads', cells', h'⟩ := reached_tidy h start ok
    exact h'.live inside hc
  case once =>
    intro first m' _ ok
    obtain ⟨heads', cells', h'⟩ := reached_tidy h start ok
    exact h'.accounted.released_nodup
  case released =>
    intro m1 ok b known
    rcases whole with exits | ⟨m', ok', acc⟩
    · cases exits.symm.trans ok
    · cases ok'.symm.trans ok
      exact acc.released_once known

end runs

/-- The pointers of the contents are used as they should be, whatever the options, exactly when no
section is empty where contents are moved or freed. -/
theorem slotsSafe_iff {file : List UInt8} {elf : Elf32Main} {f : CFile}
    (hload : load file = .ok (elf, f)) (dest : Bool) (opts : List MainOption) :
    SlotsSafe dest opts file ↔ SlotsFilled elf dest opts :=
  ⟨fun safe => safe.filled hload, fun filled => filled.safe hload⟩

def fullSections : List Elf32Shdr :=
  [objectShdr 0 1 52 4 0 0, objectShdr 0 shtRel 56 8 2 0, objectShdr 0 shtSymtab 64 16 0 0]

/-- An object file without an empty section. -/
def fullFile : List UInt8 :=
  assemble (objectHeader 80 3 0)
    ([1, 2, 3, 4] ++ [0, 0, 0, 0, 0, 0, 0, 2] ++ symBytes ⟨0, 0, 0, 0, 0, 0⟩) fullSections

def fullElf : Elf32Main where
  header := objectHeader 80 3 0
  sectHeader := fullSections
  symTable := [⟨0, 0, 0, 0, 0, 0⟩]
  relTable := [[⟨0, 2⟩]]
  sectionContent := [⟨4, [1, 2, 3, 4]⟩, ⟨8, [0, 0, 0, 0, 0, 0, 0, 2]⟩,
    ⟨16, symBytes ⟨0, 0, 0, 0, 0, 0⟩⟩]
  tabSecRel := ⟨[1], 1⟩
  nbSymboles := 1

theorem slotsSafe_fullFile : SlotsSafe true [.write .delete, .dump 0, .dumpAll] fullFile := by
  have loaded : load fullFile = .ok (fullElf, ⟨fullFile, 80⟩) := by decide +kernel
  have filled : Filled fullElf.sectHeader := by unfold Filled; decide
  refine (slotsSafe_iff loaded true [.write .delete, .dump 0, .dumpAll]).mpr ⟨?_, ⟨?_, ?_⟩, ?_⟩
  · intro s hs
    cases hs
    exact Or.inr (by decide)
  · intro n hn
    simp [executed, MainOption.ends] at hn
    omega
  · intro _ s hs
    exact filled s ((List.dropWhile_sublist _).subset hs)
  · exact fun _ => filled

/-- The null section of every object file is empty, and the last loop frees its content. -/
theorem slotsSafe_fails :
    ∃ elf f, load absoluteFile = .ok (elf, f) ∧ ¬SlotsSafe false [] absoluteFile := by
  refine ⟨absoluteElf, _, load_absoluteFile, fun safe => ?_⟩
  have stops : SlotMain.run false [] absoluteFile = .error .fault := by decide +kernel
  exact safe.assigned stops

end ArmRunner
