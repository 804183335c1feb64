import ArmRunner.Rewritten

namespace ArmRunner

open CRun WriteLog

/-- A run of the program with options that write: the file at its end is what a destination that
was empty at the start holds. -/
def processFile (q : Qsort) (file : List UInt8) (opts : List WritingOption) :
    Run (List UInt8) := do
  let (elf, f) ← load file
  let s ← runOptions q opts ⟨elf, f, CFile.openWrite⟩
  .ok s.dest.bytes

def WritingOption.address? : WritingOption → Option AddressOption
  | .copy => none
  | .delete => none
  | .address o => some o

/-- The addresses that a sequence of options gives. -/
def addresses (opts : List WritingOption) : List AddressOption :=
  opts.filterMap WritingOption.address?

/-- The stores are to bytes of sections that the loader and the comparison of names do not read
again, and the names end in the section of the names. -/
structure Undisturbed (elf : Elf32Main) : Prop where
  rels : ∀ s ∈ stores elf, ∀ e, elf.sectHeader[s.1.1]? = some e → e.isRel = false
  strings : ∀ s ∈ stores elf, s.1.1 ≠ elf.header.eShstrndx.toNat
  kind : ∀ e, elf.sectHeader[elf.header.eShstrndx.toNat]? = some e → e.shType ≠ shtSymtab
  names : ∀ sym ∈ elf.symTable, ∃ c, elf.sectionContent[elf.header.eShstrndx.toNat]? = some c ∧
    0 ∈ c.sectionBytes.drop (nameOf elf.sectHeader sym).toNat

/-- The files that the program can work on again and again. -/
structure Repeatable (file : List UInt8) : Prop where
  copyable : Copyable file
  loads : ∃ elf f, load file = .ok (elf, f) ∧ OptionsDefined elf ∧ Undisturbed elf

/-- The stores that are left of a sequence of options: those of its last pass. -/
def lastPass (file : List UInt8) (elf : Elf32Main) (opts : List AddressOption) :
    List ((Nat × Nat) × UInt8) :=
  if opts = [] then []
  else stores { elf with symTable := shifted file elf (textSum opts) (dataSum opts) }

/-- The state after a sequence of options, none or several. -/
structure Reached (file : List UInt8) (elf : Elf32Main) (opts : List AddressOption)
    (elf1 : Elf32Main) : Prop where
  rest : elf1 = { elf with symTable := shifted file elf (textSum opts) (dataSum opts),
                           sectionContent := elf1.sectionContent }
  content : replay contentMemory (lastPass file elf opts) elf.sectionContent =
    .ok elf1.sectionContent

section reached

variable {file : List UInt8} {elf elf1 : Elf32Main} {f : CFile} {opts opts' : List AddressOption}

theorem processOptions_reached (whole : Loaded elf) (shape : RelocShape elf)
    (defined : OptionsDefined elf) (unmodified : f.bytes = file) (opts : List AddressOption) :
    ∃ elf1 f1, processOptions opts (elf, f) = .ok (elf1, f1) ∧ Reached file elf opts elf1 := by
  by_cases none : opts = []
  · refine ⟨elf, f, by rw [none]; rfl, ?_, ?_⟩
    · simp only [none, textSum, dataSum, List.map_nil, List.sum_nil, shifted_zero]
    · rw [lastPass, if_pos none]
      rfl
  · obtain ⟨elf1, f1, run, settled⟩ :=
      processOptions_settled whole shape defined between_start unmodified none
    rw [UInt32.zero_add, UInt32.zero_add] at settled
    obtain ⟨_, content, replayed, same⟩ :=
      (correctABSReloc_eq_ok (shifted_shape shape (textSum opts) (dataSum opts))).mp settled
    refine ⟨elf1, f1, run, by rw [same], ?_⟩
    rw [lastPass, if_neg none, same]
    exact replayed

theorem Reached.edited (h : Reached file elf opts elf1) : Edited elf elf1 := by
  refine ⟨?_, ?_, replay_contentShape h.content⟩
  · rw [h.rest]
  · rw [h.rest, shifted, List.length_map]

/-- Every sequence of options stores to the places of the stores of the loaded file. -/
theorem lastPass_places {s : (Nat × Nat) × UInt8} (hs : s ∈ lastPass file elf opts) :
    ∃ t ∈ stores elf, t.1 = s.1 := by
  rw [lastPass] at hs
  split at hs
  next => cases hs
  next =>
    have there := List.mem_map_of_mem (f := Prod.fst) hs
    rw [shifted_places] at there
    exact List.mem_map.mp there

theorem lastPass_covers (nonempty : opts ≠ []) {t : (Nat × Nat) × UInt8} (ht : t ∈ stores elf) :
    ∃ s ∈ lastPass file elf opts, s.1 = t.1 := by
  have there := List.mem_map_of_mem (f := Prod.fst) ht
  rw [← shifted_places (textSum opts) (dataSum opts)] at there
  rw [lastPass, if_neg nonempty]
  exact List.mem_map.mp there

theorem textSum_append : textSum (opts ++ opts') = textSum opts + textSum opts' := by
  rw [textSum, List.map_append, List.sum_append, textSum, textSum]

theorem dataSum_append : dataSum (opts ++ opts') = dataSum opts + dataSum opts' := by
  rw [dataSum, List.map_append, List.sum_append, dataSum, dataSum]

theorem content_ext {content content' : List SectionContent} {i : Nat}
    (shapes : content'.map contentShape = content.map contentShape)
    (bytes : ∀ k, byteOf content' (i, k) = byteOf content (i, k)) : content'[i]? = content[i]? := by
  have shape := congrArg (·[i]?) shapes
  simp only [List.getElem?_map] at shape
  cases hc : content[i]? with
  | none =>
    rw [hc] at shape
    exact Option.map_eq_none_iff.mp shape
  | some c =>
    rw [hc] at shape
    obtain ⟨c', hc', same⟩ := Option.map_eq_some_iff.mp shape
    rw [hc']
    obtain ⟨size, _⟩ := Prod.mk.inj same
    have read : c'.sectionBytes = c.sectionBytes := by
      apply List.ext_getElem?
      intro k
      simpa [byteOf, hc, hc'] using bytes k
    cases c'
    cases c
    cases size
    cases read
    rfl

/-- A slot without a store is as it was loaded. -/
theorem Reached.untouched (h : Reached file elf opts elf1) {i : Nat}
    (apart : ∀ s ∈ stores elf, s.1.1 ≠ i) : elf1.sectionContent[i]? = elf.sectionContent[i]? := by
  apply content_ext (replay_contentShape h.content)
  intro k
  have none : lastWrite (lastPass file elf opts) (i, k) = none := by
    apply lastWrite_eq_none_iff.mpr
    intro s hs here
    obtain ⟨t, ht, same⟩ := lastPass_places hs
    exact apart t ht (by rw [same, here])
  exact read_untouched (M := contentMemory) h.content none

theorem Reached.rels (h : Reached file elf opts elf1) (rest : Undisturbed elf) {i : Nat}
    {e : Elf32Shdr} (he : elf.sectHeader[i]? = some e) (hrel : e.isRel = true) :
    elf1.sectionContent[i]? = elf.sectionContent[i]? := by
  apply h.untouched
  rintro s hs rfl
  have other := rest.rels s hs e he
  rw [hrel] at other
  cases other

end reached

section options

variable {elf elf' : Elf32Main} {v : View} {s : MainState} {f' : CFile} {q : Qsort}

theorem addresses_append (opts opts' : List WritingOption) :
    addresses (opts ++ opts') = addresses opts ++ addresses opts' :=
  List.filterMap_append

/-- The options do to the state what their addresses do, each of them writing the file. -/
theorem runOptions_addresses {opts : List WritingOption} (h : Writable s.elf v)
    (stays : .delete ∉ opts)
    (run : processOptions (addresses opts) (s.elf, s.source) = .ok (elf', f')) :
    ∃ s', runOptions q opts s = .ok s' ∧ s'.elf = elf' := by
  induction opts generalizing s v with
  | nil =>
    cases run
    exact ⟨s, rfl, rfl⟩
  | cons o opts ih =>
    have later : .delete ∉ opts := fun there => stays (List.mem_cons_of_mem _ there)
    have turn {s1 : MainState} (applied : applyOption s o = .ok s1)
        (rest : processOptions (addresses opts) (s1.elf, s1.source) = .ok (elf', f')) :
        ∃ s', runOptions q (o :: opts) s = .ok s' ∧ s'.elf = elf' := by
      obtain ⟨w, writable, -⟩ := applyOption_ok h applied
      obtain ⟨img, -, -, writes⟩ := writable.image
      have first : runOption q s o = .ok { s1 with dest := (s1.dest.fseek 0).fwrite img } := by
        rw [runOption, applied, ok_bind, writes, ok_bind]
      obtain ⟨s', later, same⟩ :=
        ih (s := { s1 with dest := (s1.dest.fseek 0).fwrite img }) writable later rest
      refine ⟨s', ?_, same⟩
      rw [runOptions, List.foldlM_cons, first, ok_bind]
      exact later
    cases o with
    | copy => exact turn rfl run
    | delete => exact absurd List.mem_cons_self stays
    | address a =>
      obtain ⟨⟨elf1, f1⟩, first, rest⟩ := bind_eq_ok.mp run
      have applied : applyOption s (.address a) = .ok { s with elf := elf1, source := f1 } := by
        rw [applyOption, first, ok_bind]
      exact turn applied rest

/-- What a run leaves in memory and in the file that it writes. -/
theorem processFile_reached {file : List UInt8} {f : CFile} (copyable : Copyable file)
    (hload : load file = .ok (elf, f)) (bytes : f.bytes = file) (defined : OptionsDefined elf)
    {opts : List WritingOption} (nonempty : opts ≠ []) (stays : .delete ∉ opts) :
    ∃ elf1 img, (∀ q, processFile q file opts = .ok img) ∧
      Reached file elf (addresses opts) elf1 ∧ ImageOf file elf1 img := by
  have writable := loaded_writable copyable hload
  obtain ⟨elf1, f1, run, reached⟩ := processOptions_reached (load_loaded hload)
    (load_relocShape hload) defined bytes (addresses opts)
  obtain ⟨img, image, unique, -⟩ := reached.edited.image copyable hload
  refine ⟨elf1, img, ?_, reached, image⟩
  intro q
  have start : Writable (MainState.elf ⟨elf, f, CFile.openWrite⟩) (viewOf elf) := writable
  obtain ⟨s', options, same⟩ := runOptions_addresses (q := q) start stays run
  have written := (runOptions_image writable nonempty options).2.mpr (Or.inl stays)
  rw [same] at written
  rw [processFile, hload, ok_bind]
  dsimp only
  rw [options, ok_bind, (unique _).mp written]

end options

section reloaded

variable {file img : List UInt8} {elf elf1 elf2 elfG elfG2 : Elf32Main} {f fG : CFile}
  {opts opts' : List AddressOption}

/-- The name of a symbol's section can be read from the written file as from the one before. -/
theorem ImageOf.names (image : ImageOf file elf1 img) (h : Edited elf elf1)
    (copyable : Copyable file) (hload : load file = .ok (elf, f)) (rest : Undisturbed elf)
    (kept : elf1.sectionContent[elf.header.eShstrndx.toNat]? =
      elf.sectionContent[elf.header.eShstrndx.toNat]?)
    (alike : Alike elf1 elfG) {sym : Elf32Sym} (hsym : sym ∈ elf.symTable) :
    sectionName img elfG sym = sectionName file elf sym := by
  have arranged := copyable.arranged
  have arrangedG := (image.heads.copyable copyable).arranged
  have fromFile := arranged.loadedFrom hload
  have header : elfG.header = elf.header := by rw [alike.rest, h.header]
  have sectHeader : elfG.sectHeader = elf.sectHeader := by rw [alike.rest, h.sectHeader]
  rw [sectionName, sectionName, header, sectHeader]
  cases hs : elf.sectHeader[elf.header.eShstrndx.toNat]? with
  | none => rfl
  | some strings =>
    rw [Option.elim_some, Option.elim_some]
    have inFile : (sectionsOf file)[elf.header.eShstrndx.toNat]? = some strings :=
      fromFile.sectHeader ▸ hs
    have head := List.mem_of_getElem? inFile
    have there := fromFile.content _ _ inFile
    rw [image.content h copyable hload hs (rest.kind strings hs), there] at kept
    have bytes : coveredBytes img strings = coveredBytes file strings :=
      congrArg SectionContent.sectionBytes (Option.some.inj kept)
    obtain ⟨c, hc, ends⟩ := rest.names sym hsym
    cases Option.some.inj (there.symm.trans hc)
    change 0 ∈ (coveredBytes file strings).drop (nameOf elf.sectHeader sym).toNat at ends
    have nonempty : strings.shSize ≠ 0 := by
      intro zero
      simp [coveredBytes, zero] at ends
    have inside : (nameOf elf.sectHeader sym).toNat < (coveredBytes file strings).length := by
      by_contra beyond
      rw [List.drop_eq_nil_of_le (by omega)] at ends
      cases ends
    have length := coveredBytes_length arranged nonempty
    have top := arranged.nextStart_le (s := strings)
    have small := arranged.shoff
    have position : (strings.shOffset + nameOf elf.sectHeader sym).toNat =
        strings.shOffset.toNat + (nameOf elf.sectHeader sym).toNat := by
      rw [UInt32.toNat_add]
      omega
    rw [position, fullName_covered arranged head ends,
      fullName_covered arrangedG (image.heads.sections ▸ head) (bytes ▸ ends), bytes]

theorem Reached.shifted_append (h : Reached file elf opts elf1) (alike : Alike elf1 elfG)
    (names : ∀ sym ∈ elf.symTable, sectionName img elfG sym = sectionName file elf sym) :
    shifted img elfG (textSum opts') (dataSum opts') =
      shifted file elf (textSum (opts ++ opts')) (dataSum (opts ++ opts')) := by
  have symTable : elfG.symTable = shifted file elf (textSum opts) (dataSum opts) := by
    rw [alike.rest, h.rest]
  rw [textSum_append, dataSum_append, ← shifted_shifted, ← symTable, shifted]
  apply List.map_congr_left
  intro sym hsym
  rw [symTable] at hsym
  obtain ⟨old, hold, rfl⟩ := List.mem_map.mp hsym
  have name (bytes : List UInt8) (elf : Elf32Main) (a : UInt32) :
      sectionName bytes elf (addValue old a) = sectionName bytes elf old := rfl
  rw [name, name, names old hold]

theorem Reached.lastPass_append (h : Reached file elf opts elf1) (alike : Alike elf1 elfG)
    (names : ∀ sym ∈ elf.symTable, sectionName img elfG sym = sectionName file elf sym)
    (nonempty : opts' ≠ []) : lastPass img elfG opts' = lastPass file elf (opts ++ opts') := by
  rw [lastPass, if_neg nonempty, lastPass, if_neg (by simp [nonempty]),
    h.shifted_append alike names, alike.rest, h.rest]
  rfl

/-- The stores of both runs, one after the other, leave what those of one run leave. -/
theorem Reached.lastWrite_append (h : Reached file elf opts elf1) (alike : Alike elf1 elfG)
    (names : ∀ sym ∈ elf.symTable, sectionName img elfG sym = sectionName file elf sym)
    (place : Nat × Nat) : lastWrite (lastPass file elf (opts ++ opts')) place =
      (lastWrite (lastPass img elfG opts') place).or (lastWrite (lastPass file elf opts) place) := by
  by_cases empty : opts' = []
  · have idle : lastPass img elfG opts' = [] := by rw [lastPass, if_pos empty]
    rw [idle, empty, List.append_nil]
    rfl
  · rw [h.lastPass_append alike names empty]
    cases hlast : lastWrite (lastPass file elf (opts ++ opts')) place with
    | some b => rfl
    | none =>
      have earlier : lastWrite (lastPass file elf opts) place = none := by
        apply lastWrite_eq_none_iff.mpr
        intro s hs here
        obtain ⟨t, ht, same⟩ := lastPass_places hs
        obtain ⟨u, hu, covers⟩ := @lastPass_covers file elf (opts ++ opts') (by simp [empty]) t ht
        exact lastWrite_eq_none_iff.mp hlast u hu (by rw [covers, same, here])
      rw [earlier]
      rfl

/-- The options of the second run, worked off on the file of the first one, reach a state like
that of one run with the options of both. -/
theorem Reached.append (h : Reached file elf opts elf1) (alike : Alike elf1 elfG)
    (names : ∀ sym ∈ elf.symTable, sectionName img elfG sym = sectionName file elf sym)
    (second : Reached img elfG opts' elfG2) (whole : Reached file elf (opts ++ opts') elf2) :
    Alike elf2 elfG2 := by
  have shapes : elfG2.sectionContent.map contentShape = elf2.sectionContent.map contentShape := by
    rw [replay_contentShape second.content, alike.contents, replay_contentShape h.content,
      replay_contentShape whole.content]
  refine ⟨?_, shapes, ?_⟩
  · have symbols : shifted img elfG (textSum opts') (dataSum opts') =
        shifted file elf (textSum (opts ++ opts')) (dataSum (opts ++ opts')) :=
      h.shifted_append alike names
    rw [second.rest, whole.rest, symbols, alike.rest, h.rest]
  · intro i e he type
    apply content_ext shapes
    intro k
    have sectHeader : elf1.sectHeader = elf2.sectHeader := by rw [h.rest, whole.rest]
    have same := alike.bytes i e (sectHeader ▸ he) type
    have start : byteOf elfG.sectionContent (i, k) = byteOf elf1.sectionContent (i, k) := by
      rw [byteOf, byteOf, same]
    have first := read_replay (M := contentMemory) h.content (i, k)
    have both := read_replay (M := contentMemory) whole.content (i, k)
    have last := read_replay (M := contentMemory) second.content (i, k)
    calc byteOf elfG2.sectionContent (i, k)
        = (lastWrite (lastPass img elfG opts') (i, k)).or
            (byteOf elfG.sectionContent (i, k)) := last
      _ = (lastWrite (lastPass img elfG opts') (i, k)).or
            ((lastWrite (lastPass file elf opts) (i, k)).or (byteOf elf.sectionContent (i, k))) := by
          rw [start]
          exact congrArg _ first
      _ = (lastWrite (lastPass file elf (opts ++ opts')) (i, k)).or
            (byteOf elf.sectionContent (i, k)) := by
          rw [h.lastWrite_append alike names, Option.or_assoc]
      _ = byteOf elf2.sectionContent (i, k) := both.symm

theorem byteOf_isSome_congr {content content' : List SectionContent} {place : Nat × Nat}
    (shapes : content'.map contentShape = content.map contentShape)
    (there : (byteOf content place).isSome) : (byteOf content' place).isSome := by
  obtain ⟨c, hc, inside⟩ := byteOf_isSome.mp there
  have shape := congrArg (·[place.1]?) shapes
  simp only [List.getElem?_map, hc, Option.map_some] at shape
  obtain ⟨c', hc', same⟩ := Option.map_eq_some_iff.mp shape
  obtain ⟨_, length⟩ := Prod.mk.inj same
  exact byteOf_isSome.mpr ⟨c', hc', by rw [length]; exact inside⟩

theorem Reached.reloaded (h : Reached file elf opts elf1) (alike : Alike elf1 elfG) :
    elfG = { elf with symTable := shifted file elf (textSum opts) (dataSum opts),
                      sectionContent := elfG.sectionContent } := by
  rw [alike.rest, h.rest]

theorem Reached.place (h : Reached file elf opts elf1) (alike : Alike elf1 elfG)
    {s : (Nat × Nat) × UInt8} (hs : s ∈ stores elfG) : ∃ t ∈ stores elf, t.1 = s.1 := by
  have places : (stores elfG).map Prod.fst = (stores elf).map Prod.fst := by
    rw [h.reloaded alike, ← @shifted_places file elf (textSum opts) (dataSum opts)]
    rfl
  exact List.mem_map.mp (places ▸ List.mem_map_of_mem hs)

theorem Reached.symbol (h : Reached file elf opts elf1) (alike : Alike elf1 elfG)
    {sym : Elf32Sym} (hsym : sym ∈ elfG.symTable) :
    ∃ old ∈ elf.symTable, ∃ a, sym = addValue old a := by
  rw [h.reloaded alike] at hsym
  obtain ⟨old, hold, rfl⟩ := List.mem_map.mp hsym
  exact ⟨old, hold, _, rfl⟩

theorem Reached.optionsDefined (h : Reached file elf opts elf1) (alike : Alike elf1 elfG)
    (defined : OptionsDefined elf) : OptionsDefined elfG := by
  have rest := h.reloaded alike
  have header : elfG.header = elf.header := by rw [rest]
  have sectHeader : elfG.sectHeader = elf.sectHeader := by rw [rest]
  have relTable : elfG.relTable = elf.relTable := by rw [rest]
  have count : elfG.nbSymboles = elf.nbSymboles := by rw [rest]
  refine ⟨⟨?sections, ?symbols, ?places⟩, ?targets, ?names⟩
  case sections =>
    intro sym hsym
    obtain ⟨old, hold, a, rfl⟩ := h.symbol alike hsym
    rw [header]
    exact defined.sections old hold
  case symbols =>
    intro rel hrel
    rw [count]
    exact defined.symbols rel (relTable ▸ hrel)
  case places =>
    intro s hs
    obtain ⟨t, ht, same⟩ := h.place alike hs
    have shapes : elfG.sectionContent.map contentShape = elf.sectionContent.map contentShape :=
      alike.contents.trans h.edited.contents
    rw [← same]
    exact byteOf_isSome_congr shapes (defined.places t ht)
  case targets =>
    intro rel hrel sym s found
    obtain ⟨hsym, hs⟩ := target_eq_some.mp found
    rw [rest, shifted, List.getElem?_map] at hsym
    obtain ⟨old, hold, rfl⟩ := Option.map_eq_some_iff.mp hsym
    rw [header]
    exact defined.targets rel (relTable ▸ hrel) old s
      (target_eq_some.mpr ⟨hold, sectHeader ▸ hs⟩)
  case names =>
    intro sym hsym
    obtain ⟨old, hold, a, rfl⟩ := h.symbol alike hsym
    rw [header, sectHeader]
    exact defined.names old hold

theorem Reached.undisturbed (h : Reached file elf opts elf1) (alike : Alike elf1 elfG)
    (loaded : Loaded elf) (rest : Undisturbed elf) : Undisturbed elfG := by
  have same := h.reloaded alike
  have header : elfG.header = elf.header := by rw [same]
  have sectHeader : elfG.sectHeader = elf.sectHeader := by rw [same]
  constructor
  case rels =>
    intro s hs e he
    obtain ⟨t, ht, place⟩ := h.place alike hs
    rw [sectHeader, ← place] at he
    exact rest.rels t ht e he
  case strings =>
    intro s hs
    obtain ⟨t, ht, place⟩ := h.place alike hs
    rw [header, ← place]
    exact rest.strings t ht
  case kind =>
    rw [header, sectHeader]
    exact rest.kind
  case names =>
    intro sym hsym
    obtain ⟨old, hold, a, rfl⟩ := h.symbol alike hsym
    obtain ⟨c, hc, ends⟩ := rest.names old hold
    have inside := (List.getElem?_eq_some_iff.mp hc).1
    rw [loaded.contents, ← loaded.heads] at inside
    have head := List.getElem?_eq_getElem inside
    have first := h.untouched rest.strings
    have again := alike.bytes _ _ (by rw [h.edited.sectHeader]; exact head) (rest.kind _ head)
    rw [header, sectHeader]
    exact ⟨c, by rw [again, first, hc], ends⟩

end reloaded

section runs

variable {file : List UInt8} {opts : List WritingOption} {runs : List (List WritingOption)}

/-- One run on a file of this kind writes a file of this kind, and a second run on that one writes
what one run with the options of both writes. -/
theorem Repeatable.processFile (h : Repeatable file) (nonempty : opts ≠ [])
    (stays : .delete ∉ opts) : ∃ img, (∀ q, processFile q file opts = .ok img) ∧ Repeatable img ∧
      ∀ (q : Qsort) (opts' : List WritingOption), opts' ≠ [] → .delete ∉ opts' →
        processFile q img opts' = processFile q file (opts ++ opts') := by
  obtain ⟨copyable, elf, f, hload, defined, rest⟩ := h
  have room := copyable.arranged.room hload
  obtain ⟨elf', f', hload', bytes, -⟩ := copyable.arranged.load_returns room
  cases Except.ok.inj (hload.symm.trans hload')
  obtain ⟨elf1, img, run, reached, image⟩ :=
    processFile_reached copyable hload bytes defined nonempty stays
  have copyableG := image.heads.copyable copyable
  obtain ⟨elfG, fG, hloadG, bytesG, -⟩ :=
    copyableG.arranged.load_returns (image.heads.room room)
  have alike := image.alike reached.edited copyable hload (fun _ _ => reached.rels rest) hloadG
  have definedG := reached.optionsDefined alike defined
  have restG := reached.undisturbed alike (load_loaded hload) rest
  refine ⟨img, run, ⟨copyableG, elfG, fG, hloadG, definedG, restG⟩, ?_⟩
  intro q opts' nonempty' stays'
  obtain ⟨elfG2, imgG, runG, reachedG, imageG⟩ :=
    processFile_reached copyableG hloadG bytesG definedG nonempty' stays'
  have nonempty2 : opts ++ opts' ≠ [] := by simp [nonempty]
  obtain ⟨elf2, img2, run2, reached2, image2⟩ :=
    processFile_reached copyable hload bytes defined nonempty2 (by simp [stays, stays'])
  rw [addresses_append] at reached2
  have names : ∀ sym ∈ elf.symTable, sectionName img elfG sym = sectionName file elf sym :=
    fun sym hsym => image.names reached.edited copyable hload rest
      (reached.untouched rest.strings) alike hsym
  have heads : SameHeads file imgG :=
    ⟨imageG.heads.header.trans image.heads.header, imageG.heads.sections.trans image.heads.sections,
      imageG.heads.length.trans image.heads.length⟩
  have same := image2.unique ⟨heads, imageG.covered⟩ reached2.edited
    (reached.append alike names reachedG reached2) copyable hload
  rw [runG, run2, same]

/-- However the options are spread over runs of the program, each on the file of the run before,
each of the files can be worked on again, and the last one is that of a single run with all of the
options. -/
theorem processFile_flatten (h : Repeatable file) (nonempty : runs ≠ [])
    (each : ∀ opts ∈ runs, opts ≠ [] ∧ .delete ∉ opts) (q q' : Qsort) :
    (∀ first, first <+: runs → ∃ img, first.foldlM (processFile q) file = .ok img ∧
        Repeatable img) ∧
      ∃ out, runs.foldlM (processFile q) file = .ok out ∧
        processFile q' file runs.flatten = .ok out := by
  induction runs generalizing file with
  | nil => exact absurd rfl nonempty
  | cons opts runs ih =>
    obtain ⟨some, stays⟩ := each opts List.mem_cons_self
    obtain ⟨img, run, again, joined⟩ := h.processFile some stays
    have rest : ∀ opts ∈ runs, opts ≠ [] ∧ .delete ∉ opts :=
      fun opts hopts => each opts (List.mem_cons_of_mem _ hopts)
    have front {later : List (List WritingOption)} {out : List UInt8}
        (after : later.foldlM (ArmRunner.processFile q) img = .ok out) :
        (opts :: later).foldlM (ArmRunner.processFile q) file = .ok out := by
      rw [List.foldlM_cons, run, ok_bind, after]
    by_cases last : runs = []
    · subst last
      refine ⟨?_, img, front rfl, ?_⟩
      · intro first before
        rcases List.prefix_cons_iff.mp before with rfl | ⟨later, rfl, none⟩
        · exact ⟨file, rfl, h⟩
        · rw [List.prefix_nil.mp none]
          exact ⟨img, front rfl, again⟩
      · rw [List.flatten_cons, List.flatten_nil, List.append_nil, run]
    · obtain ⟨outputs, out, later, single⟩ := ih again last rest
      refine ⟨?_, out, front later, ?_⟩
      · intro first before
        rcases List.prefix_cons_iff.mp before with rfl | ⟨between, rfl, inner⟩
        · exact ⟨file, rfl, h⟩
        · obtain ⟨img', reached, again'⟩ := outputs between inner
          exact ⟨img', front reached, again'⟩
      · rw [List.flatten_cons, ← joined q' runs.flatten, single]
        · obtain ⟨opts', hopts⟩ := List.exists_mem_of_ne_nil runs last
          intro none
          exact (rest opts' hopts).1 (List.flatten_eq_nil_iff.mp none opts' hopts)
        · intro there
          obtain ⟨opts', hopts, within⟩ := List.mem_flatten.mp there
          exact (rest opts' hopts).2 within

/-- An object file with one symbol in `.text` and one relocation of it that stores to `.text`. -/
def relocatedFile : List UInt8 :=
  assemble (objectHeader 88 5 4)
    ([0, 0, 0, 0] ++ [0, 0, 0, 0, 0, 0, 0, 8] ++ symBytes optionsSymbol ++ optionsStrings)
    [objectShdr 0 0 0 0 0 0, objectShdr 0 1 52 4 0 1, objectShdr 0 shtRel 56 8 3 1,
      objectShdr 0 shtSymtab 64 16 4 0, objectShdr 0 3 80 8 0 0]

def relocatedElf : Elf32Main where
  header := objectHeader 88 5 4
  sectHeader := [objectShdr 0 0 0 0 0 0, objectShdr 0 1 52 4 0 1, objectShdr 0 shtRel 56 8 3 1,
    objectShdr 0 shtSymtab 64 16 4 0, objectShdr 0 3 80 8 0 0]
  symTable := [optionsSymbol]
  relTable := [[⟨0, 8⟩]]
  sectionContent := [⟨0, []⟩, ⟨4, [0, 0, 0, 0]⟩, ⟨8, [0, 0, 0, 0, 0, 0, 0, 8]⟩,
    ⟨16, symBytes optionsSymbol⟩, ⟨8, optionsStrings⟩]
  tabSecRel := ⟨[1], 1⟩
  nbSymboles := 1

theorem load_relocatedFile :
    load relocatedFile = .ok (relocatedElf, ⟨relocatedFile, 88⟩) := by
  decide +kernel

theorem relocatedElf_defined : OptionsDefined relocatedElf := by
  refine ⟨⟨by decide, by decide, by decide⟩, ?_, ?_⟩
  · intro rel hrel sym s found
    obtain rfl : rel = ⟨0, 8⟩ := by simpa [relocatedElf] using hrel
    have computed : target relocatedElf ⟨0, 8⟩ = some (optionsSymbol, objectShdr 0 1 52 4 0 1) := by
      decide
    cases computed.symm.trans found
    decide
  · intro sym hsym
    obtain rfl : sym = optionsSymbol := by simpa [relocatedElf] using hsym
    exact ⟨objectShdr 0 3 80 8 0 0, by decide, by decide⟩

theorem relocatedElf_undisturbed : Undisturbed relocatedElf := by
  refine ⟨?_, by decide, ?_, ?_⟩
  · intro s hs e he
    have place : s.1.1 = 1 := by
      have all : ∀ s ∈ stores relocatedElf, s.1.1 = 1 := by decide
      exact all s hs
    rw [place] at he
    cases he
    rfl
  · intro e he
    cases he
    decide
  · intro sym hsym
    obtain rfl : sym = optionsSymbol := by simpa [relocatedElf] using hsym
    exact ⟨⟨8, optionsStrings⟩, by decide, by decide⟩

theorem relocatedFile_repeatable : Repeatable relocatedFile :=
  ⟨by decide +kernel, relocatedElf, _, load_relocatedFile, relocatedElf_defined,
    relocatedElf_undisturbed⟩

theorem processFile_flatten_relocatedFile :
    (∀ first, first <+: [[WritingOption.address (.text 16)], [.copy, .address (.data 32)]] →
        ∃ img, first.foldlM (processFile insertionQsort) relocatedFile = .ok img ∧
          Repeatable img) ∧
      ∃ out, [[WritingOption.address (.text 16)], [.copy, .address (.data 32)]].foldlM
          (processFile insertionQsort) relocatedFile = .ok out ∧
        processFile insertionQsort relocatedFile
          [[WritingOption.address (.text 16)], [.copy, .address (.data 32)]].flatten = .ok out :=
  processFile_flatten relocatedFile_repeatable (by decide) (by decide) insertionQsort insertionQsort

end runs

end ArmRunner
