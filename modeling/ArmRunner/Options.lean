import ArmRunner.Encode
import ArmRunner.Names
import ArmRunner.Relocate
import Mathlib.Data.UInt

namespace ArmRunner

open CRun WriteLog

/-- An option that gives a load address. -/
inductive AddressOption
  | text (addr : UInt32)
  | data (addr : UInt32)
  deriving DecidableEq, Repr

def AddressOption.forText : AddressOption → UInt32
  | .text addr => addr
  | .data _ => 0

def AddressOption.forData : AddressOption → UInt32
  | .text _ => 0
  | .data addr => addr

/-- The cases 202 and 203 of the loop over the options, up to the writes of the result. -/
def processOption (s : Elf32Main × CFile) : AddressOption → Run (Elf32Main × CFile)
  | .text addr => do
    let (elf, f) ← correctSymTable s.2 s.1 addr 0
    let elf ← correctABSReloc elf
    .ok (elf, f)
  | .data addr => do
    let (elf, f) ← correctSymTable s.2 s.1 0 addr
    let elf ← correctABSReloc elf
    .ok (elf, f)

/-- Both options make the same two passes. -/
theorem processOption_eq_ok {s s' : Elf32Main × CFile} {o : AddressOption} :
    processOption s o = .ok s' ↔ ∃ elf1, correctSymTable s.2 s.1 o.forText o.forData =
      .ok (elf1, s'.2) ∧ correctABSReloc elf1 = .ok s'.1 := by
  have passes : processOption s o = (do
      let (elf, f) ← correctSymTable s.2 s.1 o.forText o.forData
      let elf ← correctABSReloc elf
      .ok (elf, f)) := by
    cases o <;> rfl
  rw [passes]
  constructor
  · intro run
    obtain ⟨⟨elf1, f1⟩, first, rest⟩ := bind_eq_ok.mp run
    obtain ⟨elf2, second, done⟩ := bind_eq_ok.mp rest
    cases done
    exact ⟨elf1, first, second⟩
  · rintro ⟨elf1, first, second⟩
    rw [first, ok_bind]
    dsimp only
    rw [second, ok_bind]

def processOptions (opts : List AddressOption) (s : Elf32Main × CFile) :
    Run (Elf32Main × CFile) :=
  opts.foldlM processOption s

/-- The name of a symbol's section, in full. -/
def sectionName (file : List UInt8) (elf : Elf32Main) (sym : Elf32Sym) : List UInt8 :=
  (elf.sectHeader[elf.header.eShstrndx.toNat]?).elim [] fun strings =>
    fullName file (strings.shOffset + nameOf elf.sectHeader sym).toNat

/-- The symbols with an address added to those of `.text` and one to those of `.data`. -/
def shifted (file : List UInt8) (elf : Elf32Main) (text data : UInt32) : List Elf32Sym :=
  elf.symTable.map fun sym => addValue sym (amount text data (sectionName file elf sym))

def textSum (opts : List AddressOption) : UInt32 := (opts.map AddressOption.forText).sum

def dataSum (opts : List AddressOption) : UInt32 := (opts.map AddressOption.forData).sum

/-- What a sequence of options should leave: sums added to the values of the symbols, the contents
of one relocation pass over the original contents, and nothing else changed. -/
structure AddressesAdded (file : List UInt8) (elf : Elf32Main) (opts : List AddressOption)
    (elf' : Elf32Main) : Prop where
  header : elf'.header = elf.header
  sectHeader : elf'.sectHeader = elf.sectHeader
  symTable : elf'.symTable = shifted file elf (textSum opts) (dataSum opts)
  content : correctABSReloc { elf with symTable := elf'.symTable } = .ok elf'

/-- The sections of the symbols, the symbols of the entries and the places of the stores exist. -/
structure StoresPlaced (elf : Elf32Main) : Prop where
  sections : ∀ sym ∈ elf.symTable, sym.stShndx < elf.header.eShnum
  symbols : ∀ rel ∈ elf.relTable.flatten, (rel.sym : Int) < elf.nbSymboles
  places : ∀ s ∈ stores elf, (byteOf elf.sectionContent s.1).isSome

/-- Besides, the content looked up for an entry of any type exists, and the name of a symbol's
section is at a position that an `int` can hold. -/
structure OptionsDefined (elf : Elf32Main) : Prop extends StoresPlaced elf where
  targets : ∀ rel ∈ elf.relTable.flatten, ∀ sym s, target elf rel = some (sym, s) →
    s.shInfo.toNat < elf.header.eShnum.toNat
  names : ∀ sym ∈ elf.symTable, ∃ strings,
    elf.sectHeader[elf.header.eShstrndx.toNat]? = some strings ∧
      (strings.shOffset + nameOf elf.sectHeader sym).toNat < 2 ^ 31

section symbols

variable {elf : Elf32Main} {g : Elf32Sym → Elf32Sym} {rel : Elf32Rel}

theorem target_map (hg : ∀ sym, (g sym).stShndx = sym.stShndx) :
    target { elf with symTable := elf.symTable.map g } rel =
      (target elf rel).map fun p => (g p.1, p.2) := by
  unfold target
  rw [List.getElem?_map]
  cases elf.symTable[rel.sym]? with
  | none => rfl
  | some sym =>
    simp only [Option.map_some, Option.bind_eq_bind, Option.bind_some, hg]
    cases elf.sectHeader[sym.stShndx.toNat]? with
    | none => rfl
    | some s => rfl

/-- The place of a store does not depend on the value of the symbol. -/
theorem storeOf_places (hg : ∀ sym, (g sym).stShndx = sym.stShndx) :
    (storeOf { elf with symTable := elf.symTable.map g } rel).map Prod.fst =
      (storeOf elf rel).map Prod.fst := by
  unfold storeOf
  rw [target_map hg]
  cases target elf rel with
  | none => rfl
  | some p =>
    dsimp only [Option.map_some]
    split <;> rfl

theorem stores_places (hg : ∀ sym, (g sym).stShndx = sym.stShndx) :
    (stores { elf with symTable := elf.symTable.map g }).map Prod.fst =
      (stores elf).map Prod.fst := by
  simp only [stores, List.map_flatMap, storeOf_places hg]

theorem entryInRange_map (hg : ∀ sym, (g sym).stShndx = sym.stShndx) (h : EntryInRange elf rel) :
    EntryInRange { elf with symTable := elf.symTable.map g } rel := by
  obtain ⟨sym, s, found, inside⟩ := h
  refine ⟨g sym, s, ?_, inside⟩
  rw [target_map hg, found]
  rfl

end symbols

section options

variable {file : List UInt8} {elf elf1 elf2 : Elf32Main} {f : CFile} {text data : UInt32}

theorem zipWith_map_right {α β : Type} (g : α → β → α) (h : α → β) (xs : List α) :
    List.zipWith g xs (xs.map h) = xs.map fun x => g x (h x) := by
  rw [List.zipWith_map_right, List.zipWith_self]

theorem shifted_zero : shifted file elf 0 0 = elf.symTable := by
  have same : (fun sym => addValue sym (amount 0 0 (sectionName file elf sym))) = id := by
    funext sym
    simp [amount, addValue]
  rw [shifted, same, List.map_id]

theorem shifted_shifted (text' data' : UInt32) :
    (shifted file elf text data).map (fun sym =>
      addValue sym (amount text' data' (sectionName file elf sym))) =
      shifted file elf (text + text') (data + data') := by
  rw [shifted, List.map_map]
  apply List.map_congr_left
  intro sym _
  have name (a : UInt32) : sectionName file elf (addValue sym a) = sectionName file elf sym := rfl
  rw [Function.comp_apply, name, ← amount_add]
  simp only [addValue, UInt32.add_assoc]

/-- A state between two options: the stores made so far were all to places of the stores of any
relocation pass. -/
def Between (file : List UInt8) (elf : Elf32Main) (text data : UInt32) (elf1 : Elf32Main) : Prop :=
  ∃ log content, (∀ s ∈ log, s.1 ∈ (stores elf).map Prod.fst) ∧
    replay contentMemory log elf.sectionContent = .ok content ∧
    elf1 = { elf with symTable := shifted file elf text data, sectionContent := content }

/-- A state as one relocation pass over the original contents leaves it. -/
def Settled (file : List UInt8) (elf : Elf32Main) (text data : UInt32) (elf1 : Elf32Main) : Prop :=
  correctABSReloc { elf with symTable := shifted file elf text data } = .ok elf1

theorem between_start : Between file elf 0 0 elf :=
  ⟨[], elf.sectionContent, by simp, rfl, by rw [shifted_zero]⟩

theorem shifted_places (text data : UInt32) :
    (stores { elf with symTable := shifted file elf text data }).map Prod.fst =
      (stores elf).map Prod.fst :=
  stores_places fun _ => rfl

theorem shifted_shape (shape : RelocShape elf) (text data : UInt32) :
    RelocShape { elf with symTable := shifted file elf text data } :=
  ⟨shape.nbSections, shape.tabNb⟩

theorem settled_between (shape : RelocShape elf) (h : Settled file elf text data elf1) :
    Between file elf text data elf1 := by
  obtain ⟨_, content, replayed, same⟩ :=
    (correctABSReloc_eq_ok (shifted_shape shape text data)).mp h
  refine ⟨_, content, ?_, replayed, same⟩
  intro s hs
  rw [← shifted_places text data]
  exact List.mem_map_of_mem hs

theorem entry_inRange (whole : Loaded elf) (defined : OptionsDefined elf) {rel : Elf32Rel}
    (h : rel ∈ elf.relTable.flatten) : EntryInRange elf rel := by
  have counted := defined.symbols rel h
  have count := whole.nbSymboles
  have there : rel.sym < elf.symTable.length := by omega
  have sym := List.getElem?_eq_getElem there
  have low := UInt16.lt_iff_toNat_lt.mp (defined.sections _ (List.getElem_mem there))
  rw [← whole.heads] at low
  have found := target_eq_some.mpr ⟨sym, List.getElem?_eq_getElem low⟩
  have inside := defined.targets rel h _ _ found
  rw [← whole.contents] at inside
  exact ⟨_, _, found, inside⟩

/-- The relocation pass of an option leaves what a pass over the original contents does: the
stores of the earlier passes were to the same places. -/
theorem relocated_settled (whole : Loaded elf) (shape : RelocShape elf)
    (defined : OptionsDefined elf) (h : Between file elf text data elf1) (text' data' : UInt32) :
    ∃ elf2, correctABSReloc { elf1 with symTable := shifted file elf text' data' } = .ok elf2 ∧
      Settled file elf text' data' elf2 := by
  obtain ⟨log, content, earlier, replayed, rfl⟩ := h
  have places : (stores { elf with symTable := shifted file elf text' data' }).map Prod.fst =
      (stores elf).map Prod.fst := shifted_places text' data'
  have shape' : RelocShape { elf with symTable := shifted file elf text' data' } :=
    shifted_shape shape text' data'
  have inRange : ∀ rel ∈ elf.relTable.flatten,
      EntryInRange { elf with symTable := shifted file elf text' data' } rel := by
    intro rel hrel
    exact entryInRange_map (fun _ => rfl) (entry_inRange whole defined hrel)
  unfold Settled
  generalize shifted file elf text' data' = symTable at places shape' inRange ⊢
  have placed : ∀ s ∈ stores { elf with symTable }, (byteOf elf.sectionContent s.1).isSome := by
    intro s hs
    obtain ⟨t, ht, same⟩ := List.mem_map.mp (places ▸ List.mem_map_of_mem hs)
    rw [← same]
    exact defined.places t ht
  have covered : ∀ s ∈ log, ∃ t ∈ stores { elf with symTable }, t.1 = s.1 := by
    intro s hs
    exact List.mem_map.mp (places.symm ▸ earlier s hs)
  obtain ⟨content', replayed'⟩ := (replay_returns_iff (M := contentMemory)).mpr placed
  have again := replay_covered replayed covered replayed'
  have shape1 : RelocShape { elf with symTable, sectionContent := content } :=
    ⟨shape.nbSections, shape.tabNb⟩
  have settled : correctABSReloc { elf with symTable } =
      .ok { elf with symTable, sectionContent := content' } :=
    (correctABSReloc_eq_ok shape').mpr ⟨inRange, content', replayed', rfl⟩
  refine ⟨_, (correctABSReloc_eq_ok shape1).mpr ⟨?_, content', again, rfl⟩, settled⟩
  intro rel hrel
  obtain ⟨sym, s, found, inside⟩ := inRange rel hrel
  refine ⟨sym, s, found, ?_⟩
  rw [replay_length replayed]
  exact inside

/-- The names are read at positions that do not depend on where the stream stands. -/
theorem correctSymTable_shifted (whole : Loaded elf) (defined : OptionsDefined elf)
    (h : Between file elf text data elf1) (unmodified : f.bytes = file) (text' data' : UInt32) :
    ∃ f2, f2.bytes = file ∧ correctSymTable f elf1 text' data' =
      .ok ({ elf1 with symTable := shifted file elf (text + text') (data + data') }, f2) := by
  obtain ⟨log, content, _, _, rfl⟩ := h
  by_cases empty : elf.symTable = []
  · have count : elf.nbSymboles.toNat = 0 := by rw [whole.nbSymboles, empty]; rfl
    refine ⟨f, unmodified, ?_⟩
    rw [correctSymTable, count, forLoop_zero]
    simp only [shifted, empty, List.map_nil]
  · obtain ⟨sym0, hsym0⟩ := List.exists_mem_of_ne_nil _ empty
    obtain ⟨strings, hstrings, _⟩ := defined.names sym0 hsym0
    have keeps : ∀ sym ∈ shifted file elf text data, ∃ old ∈ elf.symTable,
        sym.stShndx = old.stShndx := by
      intro sym hsym
      obtain ⟨old, hold, rfl⟩ := List.mem_map.mp hsym
      exact ⟨old, hold, rfl⟩
    have sections : ∀ sym ∈ shifted file elf text data,
        sym.stShndx.toNat < elf.sectHeader.length := by
      intro sym hsym
      obtain ⟨old, hold, same⟩ := keeps sym hsym
      rw [same, whole.heads]
      exact UInt16.lt_iff_toNat_lt.mp (defined.sections old hold)
    have offsets : ∀ o ∈ (shifted file elf text data).map
        (fun sym => strings.shOffset + nameOf elf.sectHeader sym), o.toNat < 2 ^ 31 := by
      intro o ho
      obtain ⟨sym, hsym, rfl⟩ := List.mem_map.mp ho
      obtain ⟨old, hold, same⟩ := keeps sym hsym
      obtain ⟨strings', hstrings', small⟩ := defined.names old hold
      cases hstrings.symm.trans hstrings'
      rwa [nameOf, same]
    have count : elf.nbSymboles.toNat = (shifted file elf text data).length := by
      rw [shifted, List.length_map, whole.nbSymboles]
    let elf1 : Elf32Main :=
      { elf with symTable := shifted file elf text data, sectionContent := content }
    have hstrings1 : elf1.sectHeader[elf1.header.eShstrndx.toNat]? = some strings := hstrings
    obtain ⟨f2, bytes, run⟩ := correctSymTable_eq hstrings1 count text' data' f sections
    refine ⟨f2, bytes.trans unmodified, ?_⟩
    rw [run, nameAmounts_eq text' data' offsets, List.map_map, zipWith_map_right,
      ← shifted_shifted text' data', unmodified]
    have name (sym : Elf32Sym) : sectionName file elf sym =
        fullName file (strings.shOffset + nameOf elf.sectHeader sym).toNat := by
      rw [sectionName, hstrings, Option.elim_some]
    simp only [name, Function.comp_def]
    rfl

theorem processOption_settled (whole : Loaded elf) (shape : RelocShape elf)
    (defined : OptionsDefined elf) (h : Between file elf text data elf1)
    (unmodified : f.bytes = file) (o : AddressOption) :
    ∃ elf2 f2, processOption (elf1, f) o = .ok (elf2, f2) ∧ f2.bytes = file ∧
      Settled file elf (text + o.forText) (data + o.forData) elf2 := by
  obtain ⟨f2, bytes, run⟩ :=
    correctSymTable_shifted whole defined h unmodified o.forText o.forData
  obtain ⟨elf2, pass, settled⟩ :=
    relocated_settled whole shape defined h (text + o.forText) (data + o.forData)
  exact ⟨elf2, f2, processOption_eq_ok.mpr ⟨_, run, pass⟩, bytes, settled⟩

/-- The run of a sequence of options, by induction on the sequence. -/
theorem processOptions_settled (whole : Loaded elf) (shape : RelocShape elf)
    (defined : OptionsDefined elf) (h : Between file elf text data elf1)
    (unmodified : f.bytes = file) {opts : List AddressOption} (nonempty : opts ≠ []) :
    ∃ elf2 f2, processOptions opts (elf1, f) = .ok (elf2, f2) ∧
      Settled file elf (text + textSum opts) (data + dataSum opts) elf2 := by
  induction opts generalizing text data elf1 f with
  | nil => exact absurd rfl nonempty
  | cons o opts ih =>
    obtain ⟨elf2, f2, run, bytes, settled⟩ :=
      processOption_settled whole shape defined h unmodified o
    rw [processOptions, List.foldlM_cons, run, ok_bind]
    by_cases last : opts = []
    · refine ⟨elf2, f2, ?_, ?_⟩
      · rw [last]
        rfl
      · simpa [last, textSum, dataSum] using settled
    · obtain ⟨elf3, f3, rest, final⟩ := ih (settled_between shape settled) bytes last
      refine ⟨elf3, f3, rest, ?_⟩
      simpa [textSum, dataSum, UInt32.add_assoc] using final

end options

/-- Options that give addresses add up, whatever their number and their order. -/
theorem processOptions_addresses {file : List UInt8} {elf : Elf32Main} {f0 f : CFile}
    (hload : load file = .ok (elf, f0)) (unmodified : f.bytes = file)
    (defined : OptionsDefined elf) {opts : List AddressOption} (nonempty : opts ≠ []) :
    ∃ elf', AddressesAdded file elf opts elf' ∧ ∀ opts', opts'.Perm opts →
      ∃ f', processOptions opts' (elf, f) = .ok (elf', f') := by
  have whole := load_loaded hload
  have shape := load_relocShape hload
  have run {opts : List AddressOption} (nonempty : opts ≠ []) :
      ∃ elf2 f2, processOptions opts (elf, f) = .ok (elf2, f2) ∧
        Settled file elf (textSum opts) (dataSum opts) elf2 := by
    simpa using processOptions_settled whole shape defined between_start unmodified nonempty
  obtain ⟨elf', f', _, settled⟩ := run nonempty
  obtain ⟨_, content, _, same⟩ :=
    (correctABSReloc_eq_ok (shifted_shape shape (textSum opts) (dataSum opts))).mp settled
  have symTable : elf'.symTable = shifted file elf (textSum opts) (dataSum opts) := by rw [same]
  refine ⟨elf', ⟨by rw [same], by rw [same], symTable, symTable ▸ settled⟩, ?_⟩
  intro opts' perm
  have nonempty' : opts' ≠ [] := fun h => nonempty (List.nil_perm.mp (h ▸ perm))
  obtain ⟨elf2, f2, run', settled'⟩ := run nonempty'
  have sums : textSum opts' = textSum opts ∧ dataSum opts' = dataSum opts :=
    ⟨(perm.map _).sum_eq, (perm.map _).sum_eq⟩
  rw [sums.1, sums.2] at settled'
  cases settled.symm.trans settled'
  exact ⟨f2, run'⟩

def optionsSections (name info : UInt32) : List Elf32Shdr :=
  [objectShdr 0 0 0 0 0 0, objectShdr name 1 52 4 0 info, objectShdr 0 3 80 8 0 0,
    objectShdr 0 1 88 0 0 0, objectShdr 0 shtRel 56 8 5 1, objectShdr 0 shtSymtab 64 16 2 0,
    objectShdr 0 1 88 0 0 0]

def optionsSymbol : Elf32Sym := ⟨0, 1, 0, 0, 0, 1⟩

/-- `.text`, padded. -/
def optionsStrings : List UInt8 := textName ++ [0, 0, 0]

/-- An object file with one symbol in section 1, one relocation of that symbol, and the name
`.text` at the start of section 2. -/
def optionsFile (shstrndx : UInt16) (name info : UInt32) (type : UInt8) : List UInt8 :=
  assemble (objectHeader 88 7 shstrndx)
    ([0, 0, 0, 0] ++ [0, 0, 0, 0, 0, 0, 0, type] ++ symBytes optionsSymbol ++ optionsStrings)
    (optionsSections name info)

def optionsElf (shstrndx : UInt16) (name info : UInt32) (type : UInt8) : Elf32Main where
  header := objectHeader 88 7 shstrndx
  sectHeader := optionsSections name info
  symTable := [optionsSymbol]
  relTable := [[⟨0, type.toUInt32⟩]]
  sectionContent := [⟨0, []⟩, ⟨4, [0, 0, 0, 0]⟩, ⟨8, optionsStrings⟩, ⟨0, []⟩,
    ⟨8, [0, 0, 0, 0, 0, 0, 0, type]⟩, ⟨16, symBytes optionsSymbol⟩, ⟨0, []⟩]
  tabSecRel := ⟨[1], 1⟩
  nbSymboles := 1

theorem load_optionsFile :
    load (optionsFile 2 0 1 8) = .ok (optionsElf 2 0 1 8, ⟨optionsFile 2 0 1 8, 80⟩) := by
  decide +kernel

theorem optionsElf_defined : OptionsDefined (optionsElf 2 0 1 8) where
  sections := by decide
  symbols := by decide
  places := by decide
  targets := by
    intro rel hrel sym s found
    obtain rfl : rel = ⟨0, 8⟩ := by simpa [optionsElf] using hrel
    have computed : target (optionsElf 2 0 1 8) ⟨0, 8⟩ =
        some (optionsSymbol, objectShdr 0 1 52 4 0 1) := by decide
    cases computed.symm.trans found
    decide
  names := by
    intro sym hsym
    obtain rfl : sym = optionsSymbol := by simpa [optionsElf] using hsym
    exact ⟨objectShdr 0 3 80 8 0 0, by decide, by decide⟩

theorem processOptions_addresses_optionsFile :
    ∃ elf', AddressesAdded (optionsFile 2 0 1 8) (optionsElf 2 0 1 8) [.text 16, .data 32] elf' ∧
      ∀ opts', opts'.Perm [.text 16, .data 32] → ∃ f',
        processOptions opts' (optionsElf 2 0 1 8, ⟨optionsFile 2 0 1 8, 80⟩) = .ok (elf', f') :=
  processOptions_addresses load_optionsFile rfl optionsElf_defined (by decide)

/-- The stores of a loaded file are placed, and yet `--text` does not add its address. -/
def AddressMissed (file : List UInt8) : Prop :=
  ∃ elf f, load file = .ok (elf, f) ∧ StoresPlaced elf ∧ ¬∃ elf' f',
    processOptions [.text 1] (elf, f) = .ok (elf', f') ∧ AddressesAdded file elf [.text 1] elf'

/-- A section of names that does not exist, a name at an offset that `fseek` refuses, and an entry
of type `R_ARM_CALL` whose content does not exist. -/
theorem processOptions_undefined :
    AddressMissed (optionsFile 7 0 1 8) ∧ AddressMissed (optionsFile 2 0x80000000 1 8) ∧
      AddressMissed (optionsFile 2 0 9 28) := by
  refine ⟨?_, ?_, ?_⟩
  · refine ⟨optionsElf 7 0 1 8, ⟨optionsFile 7 0 1 8, 80⟩, by decide +kernel,
      ⟨by decide, by decide, by decide⟩, ?_⟩
    rintro ⟨elf', f', run, _⟩
    have stops : processOptions [.text 1] (optionsElf 7 0 1 8, ⟨optionsFile 7 0 1 8, 80⟩) =
        .error .fault := by decide
    cases stops.symm.trans run
  · refine ⟨optionsElf 2 0x80000000 1 8, ⟨optionsFile 2 0x80000000 1 8, 80⟩, by decide +kernel,
      ⟨by decide, by decide, by decide⟩, ?_⟩
    rintro ⟨elf', f', run, added⟩
    have values : (processOptions [.text 1] (optionsElf 2 0x80000000 1 8,
        ⟨optionsFile 2 0x80000000 1 8, 80⟩)).map (fun s => s.1.symTable) =
        .ok [addValue optionsSymbol 1] := by decide
    rw [run] at values
    have same := added.symTable.symm.trans (Except.ok.inj values)
    exact absurd same (by decide)
  · refine ⟨optionsElf 2 0 9 28, ⟨optionsFile 2 0 9 28, 80⟩, by decide +kernel,
      ⟨by decide, by decide, by decide⟩, ?_⟩
    rintro ⟨elf', f', run, _⟩
    have stops : processOptions [.text 1] (optionsElf 2 0 9 28, ⟨optionsFile 2 0 9 28, 80⟩) =
        .error .fault := by decide
    cases stops.symm.trans run

end ArmRunner
