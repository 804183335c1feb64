import ArmRunner.DeleteLayout
import ArmRunner.Options
import Mathlib.Data.List.TakeWhile

namespace ArmRunner

open CRun NewIndex Slice Tiling WriteLog

/-- The options that write the destination file: `-w`, `-d`, and `--text` or `--data`. -/
inductive WritingOption
  | copy
  | delete
  | address (o : AddressOption)
  deriving DecidableEq, Repr

/-- What the loop over the options works on. -/
structure MainState where
  elf : Elf32Main
  source : CFile
  dest : CFile

/-- What an option does before it writes. -/
def applyOption (s : MainState) : WritingOption → Run MainState
  | .copy => .ok s
  | .delete => do
    let elf ← deleteRel s.elf
    .ok { s with elf }
  | .address o => do
    let (elf, source) ← processOption (s.elf, s.source) o
    .ok { s with elf, source }

/-- One case of the loop: each ends with the three writes. -/
def runOption (q : Qsort) (s : MainState) (o : WritingOption) : Run MainState := do
  let s ← applyOption s o
  let dest ← writeElf q s.elf s.dest
  .ok { s with dest }

def runOptions (q : Qsort) (opts : List WritingOption) (s : MainState) : Run MainState :=
  opts.foldlM (runOption q) s

/-- The object file in memory: the sections that the arrays hold for the current count. -/
def liveView (elf : Elf32Main) : View where
  header := elf.header
  sections := (elf.sectHeader.zip elf.sectionContent).take elf.header.eShnum.toNat
  symTable := elf.symTable
  behind := none

/-- The header, the contents by increasing offset and the section header table, one after
another. -/
def IsImage (elf : Elf32Main) (bytes : List UInt8) : Prop :=
  ∃ order : List Section, order.Perm (liveView elf).sections ∧
    order.Pairwise (fun s t => asInt s.1.shOffset ≤ asInt t.1.shOffset) ∧
    bytes = headerBytes elf.header ++ order.flatMap (contentOf (liveView elf)) ++
      (liveView elf).sections.flatMap fun s => shdrBytes s.1

/-- The indices that an option with an address uses are in range. -/
structure IndicesInRange (elf : Elf32Main) : Prop where
  strings : elf.symTable ≠ [] → elf.header.eShstrndx.toNat < elf.sectHeader.length
  sections : ∀ sym ∈ elf.symTable, sym.stShndx.toNat < elf.sectHeader.length
  entries : ∀ rel ∈ elf.relTable.flatten, EntryInRange elf rel
  places : ∀ s ∈ stores elf, (byteOf elf.sectionContent s.1).isSome

/-- Every index that the options use is in range in the state they meet. -/
def InRange (q : Qsort) : List WritingOption → MainState → Prop
  | [], _ => True
  | o :: opts, s => (∀ a, o = .address a → IndicesInRange s.elf) ∧
    ∀ s', runOption q s o = .ok s' → InRange q opts s'

section view

variable {elf : Elf32Main} {v : View} {bytes : List UInt8}

theorem Represents.live (h : Represents elf v) : (liveView elf).sections = v.sections := by
  obtain ⟨heads, hheads, _⟩ := h.heads
  obtain ⟨contents, hcontents⟩ := h.contents
  have zipped : elf.sectHeader.zip elf.sectionContent = v.sections ++ heads.zip contents := by
    rw [hheads, hcontents, List.zip_append (by simp)]
    congr 1
    exact List.zip_map'.trans (List.map_id _)
  have count := h.count
  rw [liveView, zipped]
  exact List.take_left' count.symm

theorem Represents.content_live (h : Represents elf v) :
    contentOf (liveView elf) = contentOf v := by
  funext s
  simp only [contentOf, liveView, h.symTable]

/-- What the options need of the state in memory, and keep. -/
structure Writable (elf : Elf32Main) (v : View) : Prop where
  represents : Represents elf v
  layout : Layout v
  matched : Matched v
  class32 : v.header.eIdent.eiClass = 1
  pad : v.header.eIdent.eiPad.length = 7
  relocs : RelocShape elf

def imageLength (v : View) : Nat := v.header.eShoff.toNat + 40 * v.sections.length

/-- There is one image of such a state, and the writes put it at the front of the file. -/
theorem Writable.image (h : Writable elf v) : ∃ img, img.length = imageLength v ∧
    (∀ bytes, IsImage elf bytes ↔ bytes = img) ∧
    ∀ q f, writeElf q elf f = .ok ((f.fseek 0).fwrite img) := by
  obtain ⟨order, perm, tiles⟩ := h.layout.tiled
  have same {order' : List Section} (perm' : order'.Perm (v.sections.filter (occupied v)))
      (tiles' : Tiles start (size v) 52 order' v.header.eShoff.toNat) : order' = order := by
    refine tiles_unique tiles (perm'.trans perm.symm) ?_
    exact (tiles_sorted tiles').imp fun h => Nat.le_trans (Nat.le_add_right _ _) h
  have image : ∀ all : List Section, all.Perm v.sections →
      all.Pairwise (fun s t => asInt s.1.shOffset ≤ asInt t.1.shOffset) →
      all.flatMap (contentOf v) = order.flatMap (contentOf v) := by
    intro all hperm sorted
    obtain ⟨order', perm', tiles', contents⟩ := h.layout.sorted_unique hperm sorted
    rw [contents, same perm' tiles']
  refine ⟨fileOf v order, fileOf_length h.pad tiles, ?_, ?_⟩
  · intro bytes
    rw [IsImage, h.represents.live, h.represents.content_live, h.represents.header]
    constructor
    · intro ⟨all, hperm, sorted, written⟩
      rw [written, image all hperm sorted, fileOf]
    · intro written
      obtain ⟨all, hperm, sorted, _⟩ := writeSectionContent_eq insertionQsort h.represents
        h.layout.filled (Nat.le_refl CFile.openWrite.pos)
      exact ⟨all, hperm, sorted, by rw [image all hperm sorted, written, fileOf]⟩
  · intro q f
    obtain ⟨order', perm', tiles', run⟩ := h.layout.write q h.represents h.class32 f
    rw [run, same perm' tiles']

end view

section shape

variable {elf elf' : Elf32Main} {v w : View}

/-- The same header, and a buffer of the same size. -/
def SameShape (s t : Section) : Prop :=
  s.1 = t.1 ∧ s.2.size = t.2.size ∧ s.2.sectionBytes.length = t.2.sectionBytes.length

theorem size_sameShape (symTable : w.symTable.length = v.symTable.length) {s t : Section}
    (h : SameShape s t) : size v s = size w t := by
  obtain ⟨head, _, bytes⟩ := h
  unfold size contentOf
  rw [head]
  split
  · rw [flatMap_length_const symBytes_length, flatMap_length_const symBytes_length, symTable]
  · exact bytes

/-- Other bytes in buffers of the same sizes are laid out in the same way. -/
theorem Layout.sameShape (h : Layout v) (header : w.header = v.header)
    (symTable : w.symTable.length = v.symTable.length)
    (sections : List.Forall₂ SameShape v.sections w.sections) : Layout w := by
  have back : ∀ t ∈ w.sections, ∃ s ∈ v.sections, SameShape s t := by
    intro t ht
    obtain ⟨k, hk⟩ := List.mem_iff_getElem?.mp ht
    obtain ⟨hlt, rfl⟩ := List.getElem?_eq_some_iff.mp hk
    have hlt' : k < v.sections.length := by rw [sections.length_eq]; exact hlt
    exact ⟨_, List.getElem_mem hlt', sections.get hlt' hlt⟩
  refine ⟨?_, header ▸ h.small, ?_, ?_⟩
  · intro t ht
    obtain ⟨s, hs, -, hsize, bytes⟩ := back t ht
    have filled := h.filled s hs
    rw [SectionContent.Filled, ← hsize, ← bytes]
    exact filled
  · intro t ht hrel
    obtain ⟨s, hs, same⟩ := back t ht
    rw [← size_sameShape symTable same, ← same.1]
    exact h.rels s hs (by rw [same.1]; exact hrel)
  · obtain ⟨order, perm, tiles⟩ := h.tiled
    have filtered : List.Forall₂ SameShape (v.sections.filter (occupied v))
        (w.sections.filter (occupied w)) := by
      refine List.rel_filter ?_ sections
      intro s t same
      simp only [occupied, size_sameShape symTable same]
    obtain ⟨order', same, perm'⟩ := List.perm_comp_forall₂ perm filtered
    refine ⟨order', perm', header ▸ tiles_forall₂ (same.imp ?_) tiles⟩
    intro s t hst
    exact ⟨congrArg (fun e : Elf32Shdr => e.shOffset.toNat) hst.1, size_sameShape symTable hst⟩

/-- The recorded size of a content and the size of its buffer. -/
def contentShape (c : SectionContent) : Int × Nat := (c.size, c.sectionBytes.length)

theorem storeByte_contentShape {content content' : List SectionContent} {place : Nat × Nat}
    {x : UInt8} (h : storeByte content place x = .ok content') :
    content'.map contentShape = content.map contentShape := by
  obtain ⟨c, hc, _, rfl⟩ := storeByte_eq_ok.mp h
  have same : contentShape { c with sectionBytes := c.sectionBytes.set place.2 x } =
      contentShape c := by
    simp only [contentShape, List.length_set]
  exact map_set_of_same hc same

theorem replay_contentShape {log : List ((Nat × Nat) × UInt8)}
    {content content' : List SectionContent}
    (h : replay contentMemory log content = .ok content') :
    content'.map contentShape = content.map contentShape := by
  induction log generalizing content with
  | nil => cases h; rfl
  | cons s log ih =>
    obtain ⟨next, store, rest⟩ := bind_eq_ok.mp h
    exact (ih rest).trans (storeByte_contentShape store)

/-- An option with an address changes values of symbols, and bytes in the buffers. -/
theorem correctSymTable_ok {f f' : CFile} {text data : UInt32}
    (h : correctSymTable f elf text data = .ok (elf', f')) :
    ∃ symTable, symTable.length = elf.symTable.length ∧ elf' = { elf with symTable } := by
  have kept := forLoop_partial (I := fun _ s => ∃ symTable : List Elf32Sym,
    symTable.length = elf.symTable.length ∧ s.1 = { elf with symTable }) h ⟨elf.symTable, rfl, rfl⟩
  refine kept ?_
  rintro k ⟨elf1, f1⟩ ⟨elf2, f2⟩ _ _ ⟨symTable, length, rfl⟩ run
  obtain ⟨strings, _, run⟩ := bind_eq_ok.mp run
  obtain ⟨sym, _, run⟩ := bind_eq_ok.mp run
  obtain ⟨s, _, run⟩ := bind_eq_ok.mp run
  obtain ⟨symTable', assigned, run⟩ := bind_eq_ok.mp run
  cases run
  obtain ⟨_, rfl⟩ := assign_eq_ok.mp assigned
  exact ⟨_, by rw [List.length_set, length], rfl⟩

theorem correctABSReloc_ok (relocs : RelocShape elf) (h : correctABSReloc elf = .ok elf') :
    ∃ sectionContent, sectionContent.map contentShape = elf.sectionContent.map contentShape ∧
      elf' = { elf with sectionContent } := by
  obtain ⟨_, content, replayed, rfl⟩ := (correctABSReloc_eq_ok relocs).mp h
  exact ⟨content, replay_contentShape replayed, rfl⟩

theorem processOption_ok {f f' : CFile} {o : AddressOption} (relocs : RelocShape elf)
    (h : processOption (elf, f) o = .ok (elf', f')) :
    ∃ symTable sectionContent, symTable.length = elf.symTable.length ∧
      sectionContent.map contentShape = elf.sectionContent.map contentShape ∧
      elf' = { elf with symTable, sectionContent } := by
  obtain ⟨elf1, first, second⟩ := processOption_eq_ok.mp h
  obtain ⟨symTable, symbols, rfl⟩ := correctSymTable_ok first
  have relocs' : RelocShape { elf with symTable } := ⟨relocs.nbSections, relocs.tabNb⟩
  obtain ⟨content, contents, rfl⟩ := correctABSReloc_ok relocs' second
  exact ⟨symTable, content, symbols, contents, rfl⟩

/-- The header, the sections up to the bytes of their contents, and the number of symbols. -/
structure SameLayout (v w : View) : Prop where
  header : w.header = v.header
  symTable : w.symTable.length = v.symTable.length
  sections : List.Forall₂ SameShape v.sections w.sections

theorem forall₂_sameShape {sections : List Section} {contents : List SectionContent}
    (h : contents.map contentShape = (sections.map Prod.snd).map contentShape) :
    List.Forall₂ SameShape sections ((sections.map Prod.fst).zip contents) := by
  induction sections generalizing contents with
  | nil => exact .nil
  | cons s sections ih =>
    cases contents with
    | nil => cases h
    | cons c contents =>
      obtain ⟨head, tail⟩ := List.cons.inj h
      obtain ⟨size, bytes⟩ := Prod.mk.inj head
      exact .cons ⟨rfl, size.symm, bytes.symm⟩ (ih tail)

theorem Represents.sameLayout (h : Represents elf v) {symTable : List Elf32Sym}
    {content : List SectionContent} (symbols : symTable.length = elf.symTable.length)
    (contents : content.map contentShape = elf.sectionContent.map contentShape) :
    ∃ w, Represents { elf with symTable, sectionContent := content } w ∧ SameLayout v w := by
  obtain ⟨heads, hheads, hbehind⟩ := h.heads
  obtain ⟨tail, hcontents⟩ := h.contents
  rw [hcontents, List.map_append] at contents
  obtain ⟨front, rest, rfl, hfront, -⟩ := List.map_eq_append_iff.mp contents
  have shapes := forall₂_sameShape hfront
  have length : front.length = v.sections.length := by
    have := congrArg List.length hfront
    simpa using this
  refine ⟨⟨v.header, (v.sections.map Prod.fst).zip front, symTable, v.behind⟩, ?_, ?_⟩
  · refine ⟨h.header, ?_, ⟨heads, ?_, hbehind⟩, ⟨rest, ?_⟩, rfl, ?_⟩
    · simp [h.count, length]
    · rw [List.map_fst_zip (by simp [length])]
      exact hheads
    · rw [List.map_snd_zip (by simp [length])]
    · rw [symbols, h.symTable]
      exact h.nbSymboles
  · exact ⟨rfl, by rw [symbols, h.symTable], shapes⟩

end shape

section options

variable {elf elf' : Elf32Main} {v w : View} {s s' : MainState} {q : Qsort}

/-- Some section is a relocation section. -/
def HasRel (v : View) : Prop := ∃ s ∈ v.sections, s.1.isRel = true

theorem SameLayout.heads (h : SameLayout v w) :
    w.sections.map Prod.fst = v.sections.map Prod.fst := by
  have same := h.sections.imp fun s t (hst : SameShape s t) => hst.1
  exact (List.forall₂_eq_eq_eq ▸
    List.forall₂_map_left_iff.mpr (List.forall₂_map_right_iff.mpr same) :
    v.sections.map Prod.fst = w.sections.map Prod.fst).symm

theorem SameLayout.hasRel (h : SameLayout v w) : HasRel w ↔ HasRel v := by
  have through (v : View) : HasRel v ↔ ∃ e ∈ v.sections.map Prod.fst, e.isRel = true := by
    simp [HasRel]
  rw [through, h.heads, through]

theorem SameLayout.imageLength (h : SameLayout v w) : imageLength w = imageLength v := by
  rw [ArmRunner.imageLength, ArmRunner.imageLength, h.header, h.sections.length_eq]

theorem Matched.sameLayout (h : Matched v) (same : SameLayout v w) : Matched w := by
  intro t ht
  obtain ⟨k, hk⟩ := List.mem_iff_getElem?.mp ht
  obtain ⟨hlt, rfl⟩ := List.getElem?_eq_some_iff.mp hk
  have hlt' : k < v.sections.length := by rw [same.sections.length_eq]; exact hlt
  obtain ⟨head, _, bytes⟩ := same.sections.get hlt' hlt
  have owned := h _ (List.getElem_mem hlt')
  simp only [List.get_eq_getElem] at head bytes
  rw [SectionContent.Owned, ← List.length_pos_iff] at owned ⊢
  rw [← head, ← bytes, owned]

theorem Matched.removes {i : Nat} (h : Matched v) (removes : Removes i v w) : Matched w := by
  induction removes with
  | done => exact h
  | skip _ _ _ ih => exact ih h
  | delete _ _ _ ih => exact ih (matched_remove h _ _)

/-- No section that a deletion passes on to `realloc` or `free` is empty. -/
def DeletionFilled (v : View) : Prop := Filled (fromFirstRel (v.sections.map Prod.fst))

theorem SameLayout.deletionFilled (h : SameLayout v w) : DeletionFilled w ↔ DeletionFilled v := by
  rw [DeletionFilled, DeletionFilled, h.heads]

theorem Writable.sameLayout (h : Writable elf v) (same : SameLayout v w)
    (represents : Represents elf' w) (relocs : RelocShape elf') : Writable elf' w :=
  ⟨represents, h.layout.sameShape same.header same.symTable same.sections,
    h.matched.sameLayout same, same.header ▸ h.class32, same.header ▸ h.pad, relocs⟩

theorem remove_imageLength {i : Nat} {t : Section} (h : Layout v) (ht : v.sections[i]? = some t)
    (hrel : t.1.isRel = true) : imageLength (v.remove i t.1) < imageLength v := by
  have shoff := h.remove_eShoff ht hrel
  have hi := (List.getElem?_eq_some_iff.mp ht).1
  have length : (v.remove i t.1).sections.length = v.sections.length - 1 := by
    simp only [View.remove, List.length_map, List.length_eraseIdx_of_lt hi]
  rw [imageLength, imageLength, shoff, length]
  omega

/-- The image gets shorter exactly when some section is deleted. -/
theorem removes_imageLength {i : Nat} (h : Removes i v w) (layout : Layout v)
    (front : ∀ s ∈ v.sections.take i, keep s = true) :
    imageLength w ≤ imageLength v ∧ (imageLength w = imageLength v ↔ ¬HasRel v) := by
  revert layout
  apply removes_relate (R := fun v w => Layout v → imageLength w ≤ imageLength v ∧
    (imageLength w = imageLength v ↔ ¬HasRel v)) h front
  · intro v all _
    refine ⟨le_rfl, ?_⟩
    simp only [true_iff]
    rintro ⟨t, ht, hrel⟩
    have := all t ht
    rw [keep_eq_false hrel] at this
    cases this
  · intro i v w t _ ht hrel ih layout
    obtain ⟨le, -⟩ := ih (layout.remove ht hrel)
    have shorter := remove_imageLength layout ht hrel
    refine ⟨by omega, ?_⟩
    constructor
    · intro same
      omega
    · intro none
      exact absurd ⟨t, List.mem_of_getElem? ht, hrel⟩ none

theorem dropRelFrom_tables {fuel i : Nat} (h : dropRelFrom fuel i elf = .ok elf') :
    elf'.relTable = elf.relTable ∧ elf'.tabSecRel = elf.tabSecRel := by
  induction fuel generalizing i elf with
  | zero => cases h
  | succ fuel ih =>
    rw [dropRelFrom_succ] at h
    split at h
    · obtain ⟨s, _, h⟩ := bind_eq_ok.mp h
      split at h
      · obtain ⟨next, deleted, h⟩ := bind_eq_ok.mp h
        obtain ⟨tables, counts⟩ := ih h
        obtain ⟨_, _, deleted⟩ := bind_eq_ok.mp deleted
        obtain ⟨_, _, deleted⟩ := bind_eq_ok.mp deleted
        obtain ⟨_, _, deleted⟩ := bind_eq_ok.mp deleted
        obtain ⟨_, _, deleted⟩ := bind_eq_ok.mp deleted
        obtain ⟨_, _, deleted⟩ := bind_eq_ok.mp deleted
        cases deleted
        exact ⟨tables, counts⟩
      · exact ih h
    · cases h
      exact ⟨rfl, rfl⟩

theorem Writable.movable (h : Writable elf v) : Movable v :=
  fun _ _ _ t _ _ _ ht => h.layout.filled t (List.mem_of_getElem? ht)

theorem Writable.deleteRel_iff (h : Writable elf v) :
    (∃ elf', deleteRel elf = .ok elf') ↔ DeletionFilled v := by
  obtain ⟨elf', w, dropped, -⟩ := dropRel_refines h.represents h.movable
  constructor
  · rintro ⟨elf'', run⟩
    exact ((deleteRel_eq_ok h.represents h.movable h.matched).mp run).2
  · intro filled
    exact ⟨elf', (deleteRel_eq_ok h.represents h.movable h.matched).mpr ⟨dropped, filled⟩⟩

/-- What an option does to the state, before it writes. -/
structure Applied (o : WritingOption) (v w : View) : Prop where
  shorter : imageLength w ≤ imageLength v
  same : imageLength w = imageLength v ↔ o ≠ .delete ∨ ¬HasRel v
  hasRel : HasRel w ↔ HasRel v ∧ o ≠ .delete
  needs : o = .delete → DeletionFilled v
  filled : DeletionFilled w ↔ DeletionFilled v

theorem applyOption_ok {o : WritingOption} (h : Writable s.elf v)
    (run : applyOption s o = .ok s') :
    ∃ w, Writable s'.elf w ∧ Applied o v w ∧ s'.dest = s.dest := by
  cases o with
  | copy =>
    cases run
    exact ⟨v, h, ⟨le_rfl, by simp, by simp, by simp, Iff.rfl⟩, rfl⟩
  | delete =>
    obtain ⟨elf', deleted, run⟩ := bind_eq_ok.mp run
    cases run
    have filled := h.deleteRel_iff.mp ⟨elf', deleted⟩
    obtain ⟨elf1, w, dropped, removes, represents⟩ := dropRel_refines h.represents h.movable
    cases Except.ok.inj (dropped.symm.trans (deleteRel_weaker deleted))
    obtain ⟨tables, counts⟩ := dropRelFrom_tables dropped
    have ident : w.header.eIdent = v.header.eIdent := by
      have stable := congrArg (fun e : Elf32Ehdr => e.eIdent) (removes_header removes (by simp))
      exact stable
    have kept := removes_kept removes (by simp)
    have none : ¬HasRel w := by
      rintro ⟨t, ht, hrel⟩
      have := kept t ht
      rw [keep_eq_false hrel] at this
      cases this
    have behind : fromFirstRel (w.sections.map Prod.fst) = [] := by
      rw [fromFirstRel, List.dropWhile_eq_nil_iff, List.forall_mem_map]
      exact kept
    obtain ⟨le, same⟩ := removes_imageLength removes h.layout (by simp)
    refine ⟨w, ⟨represents, h.layout.removes removes, h.matched.removes removes, ident ▸ h.class32,
      ident ▸ h.pad, ?_⟩, ⟨le, by simp [same], by simp [none], fun _ => filled,
      iff_of_true (by simp [DeletionFilled, behind, Filled]) filled⟩, rfl⟩
    exact ⟨by rw [tables, counts, h.relocs.nbSections], by rw [tables, counts, h.relocs.tabNb]⟩
  | address o =>
    obtain ⟨⟨elf1, f1⟩, passed, run⟩ := bind_eq_ok.mp run
    cases run
    obtain ⟨symTable, content, symbols, contents, rfl⟩ := processOption_ok h.relocs passed
    obtain ⟨w, represents, same⟩ := h.represents.sameLayout symbols contents
    exact ⟨w, h.sameLayout same represents ⟨h.relocs.nbSections, h.relocs.tabNb⟩,
      ⟨same.imageLength.le, by simp [same.imageLength], by simp [same.hasRel], by simp,
        same.deletionFilled⟩, rfl⟩

theorem entryInRange_congr {symTable : List Elf32Sym} {rel : Elf32Rel}
    (same : symTable.map Elf32Sym.stShndx = elf.symTable.map Elf32Sym.stShndx)
    (h : EntryInRange elf rel) : EntryInRange { elf with symTable } rel := by
  obtain ⟨sym, t, found, inside⟩ := h
  obtain ⟨hsym, ht⟩ := target_eq_some.mp found
  have there := congrArg (·[rel.sym]?) same
  simp only [List.getElem?_map, hsym, Option.map_some, Option.map_eq_some_iff] at there
  obtain ⟨sym', hsym', index⟩ := there
  exact ⟨sym', t, target_eq_some.mpr ⟨hsym', by rw [index]; exact ht⟩, inside⟩

theorem storeOf_congr {symTable : List Elf32Sym} {rel : Elf32Rel} {p : (Nat × Nat) × UInt8}
    (same : symTable.map Elf32Sym.stShndx = elf.symTable.map Elf32Sym.stShndx)
    (h : p ∈ storeOf { elf with symTable } rel) : ∃ p' ∈ storeOf elf rel, p'.1 = p.1 := by
  unfold storeOf at h
  split at h
  next sym t found =>
    obtain ⟨hsym, ht⟩ := target_eq_some.mp found
    have there := congrArg (·[rel.sym]?) same.symm
    simp only [List.getElem?_map, hsym, Option.map_some, Option.map_eq_some_iff] at there
    obtain ⟨sym', hsym', index⟩ := there
    have found' : target elf rel = some (sym', t) :=
      target_eq_some.mpr ⟨hsym', by rw [index]; exact ht⟩
    split at h
    next type =>
      refine ⟨((t.shInfo.toNat, rel.rOffset.toNat), storedByte sym' t rel), ?_, ?_⟩
      · simp only [storeOf, found', if_pos type, List.mem_singleton]
      · rw [List.mem_singleton.mp h]
    next => cases h
  next => cases h

theorem correctABSReloc_returns {symTable : List Elf32Sym} (relocs : RelocShape elf)
    (h : IndicesInRange elf)
    (same : symTable.map Elf32Sym.stShndx = elf.symTable.map Elf32Sym.stShndx) :
    ∃ elf', correctABSReloc { elf with symTable } = .ok elf' := by
  have placed : ∀ p ∈ stores { elf with symTable }, (byteOf elf.sectionContent p.1).isSome := by
    intro p hp
    obtain ⟨rel, hrel, hp⟩ := List.mem_flatMap.mp hp
    obtain ⟨p', hp', place⟩ := storeOf_congr same hp
    rw [← place]
    exact h.places p' (List.mem_flatMap.mpr ⟨rel, hrel, hp'⟩)
  have relocs' : RelocShape { elf with symTable } := ⟨relocs.nbSections, relocs.tabNb⟩
  exact (correctABSReloc_returns_iff relocs').mpr
    ⟨fun rel hrel => entryInRange_congr same (h.entries rel hrel), placed⟩

theorem correctSymTable_returns (count : elf.nbSymboles.toNat = elf.symTable.length)
    (h : IndicesInRange elf) (f : CFile) (text data : UInt32) :
    ∃ symTable f', correctSymTable f elf text data = .ok ({ elf with symTable }, f') ∧
      symTable.map Elf32Sym.stShndx = elf.symTable.map Elf32Sym.stShndx := by
  by_cases empty : elf.symTable = []
  · have none : elf.nbSymboles.toNat = 0 := by rw [count, empty]; rfl
    exact ⟨elf.symTable, f, by rw [correctSymTable, none, forLoop_zero], rfl⟩
  · have hstrings := List.getElem?_eq_getElem (h.strings empty)
    obtain ⟨f', _, run⟩ := correctSymTable_eq hstrings count text data f h.sections
    refine ⟨_, f', run, ?_⟩
    apply List.ext_getElem
    · simp [nameAmounts_length]
    · intro k hk hk'
      simp [addValue]

theorem processOption_returns (relocs : RelocShape elf)
    (count : elf.nbSymboles.toNat = elf.symTable.length) (h : IndicesInRange elf) (f : CFile)
    (o : AddressOption) : ∃ s, processOption (elf, f) o = .ok s := by
  obtain ⟨symTable, f', first, same⟩ := correctSymTable_returns count h f o.forText o.forData
  obtain ⟨elf', second⟩ := correctABSReloc_returns relocs h same
  exact ⟨(elf', f'), processOption_eq_ok.mpr ⟨_, first, second⟩⟩

theorem runOption_returns {o : WritingOption} (h : Writable s.elf v)
    (inRange : ∀ a, o = .address a → IndicesInRange s.elf) (filled : o = .delete → DeletionFilled v) :
    ∃ s', runOption q s o = .ok s' := by
  have applies : ∃ s1, applyOption s o = .ok s1 := by
    cases o with
    | copy => exact ⟨s, rfl⟩
    | delete =>
      obtain ⟨elf', deleted⟩ := h.deleteRel_iff.mpr (filled rfl)
      exact ⟨{ s with elf := elf' }, by rw [applyOption, deleted, ok_bind]⟩
    | address o =>
      have count : s.elf.nbSymboles.toNat = s.elf.symTable.length := by
        rw [h.represents.nbSymboles, h.represents.symTable]
      obtain ⟨⟨elf', f'⟩, passed⟩ :=
        processOption_returns h.relocs count (inRange o rfl) s.source o
      exact ⟨{ s with elf := elf', source := f' }, by rw [applyOption, passed, ok_bind]⟩
  obtain ⟨s1, applied⟩ := applies
  obtain ⟨w, writable, -⟩ := applyOption_ok h applied
  obtain ⟨img, -, -, writes⟩ := writable.image
  exact ⟨_, by rw [runOption, applied, ok_bind, writes, ok_bind]⟩

/-- The image of the state is at the front of a destination file of `n` bytes. -/
structure Written (s : MainState) (v : View) (n : Nat) : Prop where
  writable : Writable s.elf v
  fits : imageLength v ≤ n
  front : ∃ img rest, IsImage s.elf img ∧ s.dest.bytes = img ++ rest
  length : s.dest.bytes.length = n

/-- Nothing but the image is in the file when it is as long as the image. -/
theorem Written.isImage_iff {n : Nat} (h : Written s v n) :
    IsImage s.elf s.dest.bytes ↔ imageLength v = n := by
  obtain ⟨img, length, unique, -⟩ := h.writable.image
  obtain ⟨img', rest, image, bytes⟩ := h.front
  obtain rfl := (unique img').mp image
  have total := h.length
  rw [bytes, List.length_append] at total
  rw [unique, bytes, List.append_right_eq_self, ← List.length_eq_zero_iff]
  omega

theorem fwrite_front (old img : List UInt8) (pos : Nat) :
    (((⟨old, pos⟩ : CFile).fseek 0).fwrite img).bytes = img ++ old.drop img.length := by
  simp [CFile.fseek, CFile.fwrite]

theorem runOption_ok {o : WritingOption} (h : Writable s.elf v) (run : runOption q s o = .ok s') :
    ∃ w, Applied o v w ∧ Written s' w (max (imageLength w) s.dest.bytes.length) := by
  obtain ⟨s1, applied, run⟩ := bind_eq_ok.mp run
  obtain ⟨w, writable, change, dest⟩ := applyOption_ok h applied
  obtain ⟨img, length, unique, writes⟩ := writable.image
  obtain ⟨out, written, run⟩ := bind_eq_ok.mp run
  cases run
  cases Except.ok.inj ((writes q s1.dest).symm.trans written)
  have bytes : ((s1.dest.fseek 0).fwrite img).bytes = img ++ s.dest.bytes.drop img.length := by
    rw [dest]
    exact fwrite_front s.dest.bytes img s.dest.pos
  refine ⟨w, change, writable, Nat.le_max_left _ _, ⟨img, _, (unique img).mpr rfl, bytes⟩, ?_⟩
  dsimp only
  rw [bytes, List.length_append, List.length_drop, length]
  omega

/-- Later options write over a part of the file, and its length stays. -/
theorem runOptions_ok {opts : List WritingOption} {n : Nat} (h : Written s v n)
    (run : runOptions q opts s = .ok s') : ∃ w, Written s' w n ∧ imageLength w ≤ imageLength v ∧
      (imageLength w = imageLength v ↔ .delete ∉ opts ∨ ¬HasRel v) ∧
      (.delete ∈ opts → DeletionFilled v) := by
  induction opts generalizing s v with
  | nil =>
    cases run
    exact ⟨v, h, le_rfl, by simp, by simp⟩
  | cons o opts ih =>
    obtain ⟨s1, first, rest⟩ := bind_eq_ok.mp run
    obtain ⟨u, change, written⟩ := runOption_ok h.writable first
    have fits := h.fits
    have shorter := change.shorter
    have length : max (imageLength u) s.dest.bytes.length = n := by
      rw [h.length]
      omega
    obtain ⟨w, written', le, same, needs⟩ := ih (length ▸ written) rest
    refine ⟨w, written', by omega, ?_, ?_⟩
    · have both : imageLength w = imageLength v ↔
          imageLength u = imageLength v ∧ imageLength w = imageLength u := by omega
      rw [both, change.same, same, change.hasRel, List.mem_cons, eq_comm (b := o)]
      tauto
    · intro deleted
      rcases List.mem_cons.mp deleted with rfl | later
      · exact change.needs rfl
      · exact change.filled.mp (needs later)

/-- With all indices in range the options return, if a deletion among them can. -/
theorem runOptions_returns {opts : List WritingOption} (h : Writable s.elf v)
    (inRange : InRange q opts s) (filled : .delete ∈ opts → DeletionFilled v) :
    ∃ s', runOptions q opts s = .ok s' := by
  induction opts generalizing s v with
  | nil => exact ⟨s, rfl⟩
  | cons o opts ih =>
    obtain ⟨s1, first⟩ := runOption_returns h inRange.1 (fun here => filled (by simp [here]))
    obtain ⟨w, change, written⟩ := runOption_ok h first
    obtain ⟨s2, rest⟩ := ih written.writable (inRange.2 s1 first)
      (fun later => change.filled.mpr (filled (List.mem_cons_of_mem _ later)))
    refine ⟨s2, ?_⟩
    rw [runOptions, List.foldlM_cons, first, ok_bind]
    exact rest

theorem loaded_writable {file : List UInt8} {f : CFile} (copyable : Copyable file)
    (hload : load file = .ok (elf, f)) : Writable elf (viewOf elf) := by
  have loaded := load_loaded hload
  have fromFile := copyable.arranged.loadedFrom hload
  have header : (viewOf elf).header = headerOf file := fromFile.header
  have inside := copyable.arranged.header_inside
  have pad : (viewOf elf).header.eIdent.eiPad.length = 7 := by
    rw [header]
    exact slice_length (by omega)
  exact ⟨viewOf_represents loaded, fromFile.layout copyable.arranged loaded, load_matched hload,
    header ▸ copyable.class32, pad, load_relocShape hload⟩

/-- The first option writes to an empty file. -/
theorem runOptions_image {f : CFile} {opts : List WritingOption} (writable : Writable elf v)
    (nonempty : opts ≠ []) (run : runOptions q opts ⟨elf, f, CFile.openWrite⟩ = .ok s') :
    (.delete ∈ opts → DeletionFilled v) ∧ (IsImage s'.elf s'.dest.bytes ↔
      .delete ∉ opts ∨ opts.head? = some .delete ∨ ¬HasRel v) := by
  obtain ⟨o, rest, rfl⟩ := List.exists_cons_of_ne_nil nonempty
  obtain ⟨s1, first, run⟩ := bind_eq_ok.mp run
  have start : Writable (MainState.elf ⟨elf, f, CFile.openWrite⟩) v := writable
  obtain ⟨u, change, written⟩ := runOption_ok start first
  have empty : max (imageLength u) CFile.openWrite.bytes.length = imageLength u :=
    Nat.max_eq_left (Nat.zero_le _)
  obtain ⟨w, written', -, same, needs⟩ := runOptions_ok (empty ▸ written) run
  constructor
  · intro deleted
    rcases List.mem_cons.mp deleted with rfl | later
    · exact change.needs rfl
    · exact change.filled.mp (needs later)
  · rw [written'.isImage_iff, same, change.hasRel, List.mem_cons, List.head?_cons,
      Option.some.injEq, eq_comm (b := o)]
    tauto

section loaded

variable {file : List UInt8} {f : CFile}

theorem hasRel_viewOf (copyable : Copyable file) (hload : load file = .ok (elf, f)) :
    HasRel (viewOf elf) ↔ ∃ e ∈ sectionsOf file, e.isRel = true := by
  rw [← (copyable.arranged.loadedFrom hload).sectHeader, ← (load_loaded hload).viewOf_heads]
  simp [HasRel]

theorem deletionFilled_viewOf (copyable : Copyable file) (hload : load file = .ok (elf, f)) :
    DeletionFilled (viewOf elf) ↔ Filled (fromFirstRel (sectionsOf file)) := by
  rw [DeletionFilled, (load_loaded hload).viewOf_heads,
    (copyable.arranged.loadedFrom hload).sectHeader]

/-- A deletion can use the pointers that it passes on, and does not shorten what an earlier option
wrote: it comes first, or there is nothing to delete. -/
structure DeletedFirst (file : List UInt8) (opts : List WritingOption) : Prop where
  filled : Filled (fromFirstRel (sectionsOf file))
  first : opts.head? = some .delete ∨ ∀ e ∈ sectionsOf file, e.isRel = false

/-- The options are processed and the destination file is the image of the last state exactly when
the block for the symbols has room for them and, if one of the options is `-d`, no section that it
passes on is empty and it comes first or has nothing to delete. -/
theorem runOptions_image_iff {opts : List WritingOption} (copyable : Copyable file)
    (nonempty : opts ≠ []) (inRange : ∀ elf f, load file = .ok (elf, f) →
      InRange q opts ⟨elf, f, CFile.openWrite⟩) :
    (∃ elf f s', load file = .ok (elf, f) ∧
      runOptions q opts ⟨elf, f, CFile.openWrite⟩ = .ok s' ∧ IsImage s'.elf s'.dest.bytes) ↔
    SymtabRoom file ∧ (.delete ∈ opts → DeletedFirst file opts) := by
  have none {elf : Elf32Main} {f : CFile} (hload : load file = .ok (elf, f)) :
      ¬HasRel (viewOf elf) ↔ ∀ e ∈ sectionsOf file, e.isRel = false := by
    rw [hasRel_viewOf copyable hload]
    simp
  constructor
  · rintro ⟨elf, f, s', hload, run, image⟩
    refine ⟨copyable.arranged.room hload, fun deleted => ?_⟩
    obtain ⟨needs, iff⟩ := runOptions_image (loaded_writable copyable hload) nonempty run
    rw [deletionFilled_viewOf copyable hload] at needs
    rw [none hload] at iff
    exact ⟨needs deleted, (iff.mp image).resolve_left (not_not.mpr deleted)⟩
  · rintro ⟨room, deleted⟩
    obtain ⟨elf, f, hload, _⟩ := copyable.arranged.load_returns room
    have writable := loaded_writable copyable hload
    have start : Writable (MainState.elf ⟨elf, f, CFile.openWrite⟩) (viewOf elf) := writable
    obtain ⟨s', run⟩ := runOptions_returns start (inRange elf f hload) fun here =>
      (deletionFilled_viewOf copyable hload).mpr (deleted here).filled
    refine ⟨elf, f, s', hload, run, (runOptions_image writable nonempty run).2.mpr ?_⟩
    rw [none hload]
    by_cases here : .delete ∈ opts
    · exact Or.inr (deleted here).first
    · exact Or.inl here

end loaded

theorem inRange_objectFile (s : MainState) : InRange insertionQsort [.delete, .copy] s := by
  simp [InRange]

theorem runOptions_image_objectFile :
    (∃ elf f s', load objectFile = .ok (elf, f) ∧
      runOptions insertionQsort [.delete, .copy] ⟨elf, f, CFile.openWrite⟩ = .ok s' ∧
      IsImage s'.elf s'.dest.bytes) ↔
    SymtabRoom objectFile ∧
      (WritingOption.delete ∈ [.delete, .copy] → DeletedFirst objectFile [.delete, .copy]) :=
  runOptions_image_iff objectFile_copyable (by decide) fun _ _ _ => inRange_objectFile _

/-- With `-w -d` the end of the copy stays behind the shorter file. -/
theorem runOptions_stale :
    ∃ elf f s', Copyable objectFile ∧ load objectFile = .ok (elf, f) ∧
      runOptions insertionQsort [.copy, .delete] ⟨elf, f, CFile.openWrite⟩ = .ok s' ∧
      ¬IsImage s'.elf s'.dest.bytes := by
  obtain ⟨elf, f, hload, _⟩ := objectFile_copyable.arranged.load_returns objectFile_room
  have writable := loaded_writable objectFile_copyable hload
  have start : Writable (MainState.elf ⟨elf, f, CFile.openWrite⟩) (viewOf elf) := writable
  have inRange : InRange insertionQsort [.copy, .delete] ⟨elf, f, CFile.openWrite⟩ := by
    simp [InRange]
  obtain ⟨s', run⟩ := runOptions_returns start inRange fun _ =>
    (deletionFilled_viewOf objectFile_copyable hload).mpr objectFile_filled
  refine ⟨elf, f, s', objectFile_copyable, hload, run, ?_⟩
  rw [(runOptions_image writable (by decide) run).2, hasRel_viewOf objectFile_copyable hload]
  decide

end options

end ArmRunner
