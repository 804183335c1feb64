import ArmRunner.Destination
import ArmRunner.PrintReloc

namespace ArmRunner

open CRun WriteLog

/-- The bytes that an entry is about, for the types that the program names. -/
def fieldWidth (type : Nat) : Option Nat :=
  if type = rArmAbs32 ∨ type = rArmCall ∨ type = rArmJump24 then some 4
  else if type = rArmAbs16 then some 2
  else if type = rArmAbs8 then some 1
  else none

/-- A big-endian relocatable file whose tables refer to each other as they should. -/
structure ValidIndices (elf : Elf32Main) : Prop where
  class32 : elf.header.eIdent.eiClass = 1
  bigEndian : elf.header.eIdent.eiData = 2
  relocatable : elf.header.eType = 1
  strings : elf.header.eShstrndx < elf.header.eShnum
  sections : ∀ sym ∈ elf.symTable, sym.stShndx < elf.header.eShnum ∨ 0xff00 ≤ sym.stShndx
  symbols : ∀ rel ∈ elf.relTable.flatten, (rel.sym : Int) < elf.nbSymboles
  fields : ∀ p ∈ (elf.sectHeader.filter Elf32Shdr.isRel).zip elf.relTable, ∀ rel ∈ p.2,
    ∀ w ∈ fieldWidth rel.type, ∃ s ∈ elf.sectHeader[p.1.shInfo.toNat]?,
      rel.rOffset.toNat + w ≤ s.shSize.toNat

/-- The passes over the symbols and the relocations return, called alone or as an option does. -/
structure PassesReturn (elf : Elf32Main) : Prop where
  symbols : ∀ f text data, ∃ r, correctSymTable f elf text data = .ok r
  relocs : ∃ elf', correctABSReloc elf = .ok elf'
  option : ∀ f o, ∃ r, processOption (elf, f) o = .ok r
  lines : ∀ f, ∃ r, printRelocTable f elf = .ok r

/-- The links that the passes follow from a relocation by its symbol and the section of that
symbol to a byte are in range, and so is the section before that of the names where it is used. -/
structure ChainsInRange (elf : Elf32Main) : Prop where
  sections : ∀ sym ∈ elf.symTable, sym.stShndx < elf.header.eShnum
  targets : ∀ rel ∈ elf.relTable.flatten, ∀ sym s, target elf rel = some (sym, s) →
    s.shInfo.toNat < elf.header.eShnum.toNat
  places : ∀ rel ∈ elf.relTable.flatten, ∀ sym s c, target elf rel = some (sym, s) →
    elf.sectionContent[s.shInfo.toNat]? = some c → rel.type = rArmAbs16 ∨ rel.type = rArmAbs8 →
      rel.rOffset.toNat < c.sectionBytes.length
  names : elf.header.eShstrndx ≠ 0 ∨ ∀ rel ∈ elf.relTable.flatten, ∀ sym,
    elf.symTable[rel.sym]? = some sym → sym.stValue = 0

/-- What the passes meet: tables that are full, and the indices of a valid file that they do not
have to follow through another table. -/
structure PassInput (elf : Elf32Main) : Prop where
  heads : elf.sectHeader.length = elf.header.eShnum.toNat
  contents : elf.sectionContent.length = elf.header.eShnum.toNat
  count : elf.nbSymboles.toNat = elf.symTable.length
  relocs : RelocShape elf
  strings : elf.header.eShstrndx < elf.header.eShnum
  symbols : ∀ rel ∈ elf.relTable.flatten, (rel.sym : Int) < elf.nbSymboles

section passes

variable {elf elf' : Elf32Main}

/-- A pass over the symbols looks at the section of each of them. -/
theorem correctSymTable_sections {f f' : CFile} {text data : UInt32}
    (count : elf.nbSymboles.toNat = elf.symTable.length)
    (run : correctSymTable f elf text data = .ok (elf', f')) :
    ∀ sym ∈ elf.symTable, sym.stShndx.toNat < elf.sectHeader.length := by
  have visited := forLoop_partial (I := fun k s => s.1.sectHeader = elf.sectHeader ∧
    s.1.symTable.map Elf32Sym.stShndx = elf.symTable.map Elf32Sym.stShndx ∧
    ∀ j < k, ∀ sym, elf.symTable[j]? = some sym → sym.stShndx.toNat < elf.sectHeader.length)
    run ⟨rfl, rfl, by omega⟩ ?_
  · obtain ⟨-, -, all⟩ := visited
    intro sym hsym
    obtain ⟨j, hj⟩ := List.mem_iff_getElem?.mp hsym
    have low := (List.getElem?_eq_some_iff.mp hj).1
    exact all j (by omega) sym hj
  · rintro k ⟨elf1, f1⟩ ⟨elf2, f2⟩ _ _ ⟨heads, indices, earlier⟩ turn
    obtain ⟨strings, _, turn⟩ := bind_eq_ok.mp turn
    obtain ⟨here, hhere, turn⟩ := bind_eq_ok.mp turn
    obtain ⟨s, hs, turn⟩ := bind_eq_ok.mp turn
    obtain ⟨symTable, assigned, turn⟩ := bind_eq_ok.mp turn
    cases turn
    have at_k := fetch_eq_ok.mp hhere
    obtain ⟨inside, rfl⟩ := assign_eq_ok.mp assigned
    refine ⟨heads, ?_, ?_⟩
    · refine Eq.trans (map_set_of_same at_k ?_) indices
      rfl
    · intro j hj sym hsym
      by_cases last : j = k
      · have there := congrArg (·[k]?) indices
        simp only [List.getElem?_map, at_k, last ▸ hsym, Option.map_some, Option.some.injEq]
          at there
        rw [← there, ← heads]
        exact fetch_returns.mp ⟨s, hs⟩
      · exact earlier j (by omega) sym hsym

theorem target_exists (input : PassInput elf)
    (sections : ∀ sym ∈ elf.symTable, sym.stShndx < elf.header.eShnum) {rel : Elf32Rel}
    (h : rel ∈ elf.relTable.flatten) :
    ∃ sym s, elf.symTable[rel.sym]? = some sym ∧ target elf rel = some (sym, s) := by
  have counted := input.symbols rel h
  have count := input.count
  have there : rel.sym < elf.symTable.length := by omega
  have low := UInt16.lt_iff_toNat_lt.mp (sections _ (List.getElem_mem there))
  rw [← input.heads] at low
  have sym := List.getElem?_eq_getElem there
  exact ⟨_, _, sym, target_eq_some.mpr ⟨sym, List.getElem?_eq_getElem low⟩⟩

/-- The stores of a pass are those of the entries of two types, each behind its three links. -/
theorem stores_placed_iff (inRange : ∀ rel ∈ elf.relTable.flatten, EntryInRange elf rel) :
    (∀ s ∈ stores elf, (byteOf elf.sectionContent s.1).isSome) ↔
      ∀ rel ∈ elf.relTable.flatten, ∀ sym s c, target elf rel = some (sym, s) →
        elf.sectionContent[s.shInfo.toNat]? = some c →
          rel.type = rArmAbs16 ∨ rel.type = rArmAbs8 →
            rel.rOffset.toNat < c.sectionBytes.length := by
  constructor
  · intro placed rel hrel sym s c found hc type
    have stored : ((s.shInfo.toNat, rel.rOffset.toNat), storedByte sym s rel) ∈ stores elf := by
      refine List.mem_flatMap.mpr ⟨rel, hrel, ?_⟩
      simp only [storeOf, found, if_pos type, List.mem_singleton]
    obtain ⟨c', hc', inside⟩ := byteOf_isSome.mp (placed _ stored)
    cases hc.symm.trans hc'
    exact inside
  · intro places p hp
    obtain ⟨rel, hrel, hp⟩ := List.mem_flatMap.mp hp
    obtain ⟨sym, s, found, inside⟩ := inRange rel hrel
    simp only [storeOf, found] at hp
    split at hp
    next type =>
      rw [List.mem_singleton.mp hp]
      have hc := List.getElem?_eq_getElem inside
      exact byteOf_isSome.mpr ⟨_, hc, places rel hrel sym s _ found hc type⟩
    next => cases hp

theorem nameInRange_iff (input : PassInput elf) {sym : Elf32Sym}
    (section' : sym.stShndx < elf.header.eShnum) :
    NameInRange elf sym ↔ elf.header.eShstrndx ≠ 0 ∨ sym.stValue = 0 := by
  have strings := UInt16.lt_iff_toNat_lt.mp input.strings
  have there := UInt16.lt_iff_toNat_lt.mp section'
  rw [← input.heads] at strings there
  unfold NameInRange
  by_cases zero : sym.stValue = 0
  · simp [zero, strings, there]
  · simp [zero, strings.le]

/-- The indices of the state in which an option or a listing starts decide whether it returns. -/
theorem passesReturn_iff (input : PassInput elf) : PassesReturn elf ↔ ChainsInRange elf := by
  have strings := UInt16.lt_iff_toNat_lt.mp input.strings
  rw [← input.heads] at strings
  constructor
  · intro returns
    obtain ⟨⟨elf1, f1⟩, run⟩ := returns.symbols (CFile.openRead []) 0 0
    have visited := correctSymTable_sections input.count run
    have sections : ∀ sym ∈ elf.symTable, sym.stShndx < elf.header.eShnum := by
      intro sym hsym
      have inside := visited sym hsym
      rw [input.heads] at inside
      exact UInt16.lt_iff_toNat_lt.mpr inside
    obtain ⟨inRange, placed⟩ := (correctABSReloc_returns_iff input.relocs).mp returns.relocs
    have printed := (printRelocTable_returns input.relocs _).mp
      (returns.lines (CFile.openRead []))
    refine ⟨sections, ?_, (stores_placed_iff inRange).mp placed, ?_⟩
    · intro rel hrel sym s found
      obtain ⟨sym', s', found', inside⟩ := inRange rel hrel
      cases found.symm.trans found'
      rwa [← input.contents]
    · by_contra neither
      obtain ⟨none, some_value⟩ := not_or.mp neither
      apply some_value
      intro rel hrel sym hsym
      obtain ⟨sym', hsym', name⟩ := printed rel hrel
      cases hsym.symm.trans hsym'
      have here := sections sym (List.mem_of_getElem? hsym)
      exact ((nameInRange_iff input here).mp name).resolve_left none
  · intro chains
    have inRange : ∀ rel ∈ elf.relTable.flatten, EntryInRange elf rel := by
      intro rel hrel
      obtain ⟨sym, s, _, found⟩ := target_exists input chains.sections hrel
      refine ⟨sym, s, found, ?_⟩
      rw [input.contents]
      exact chains.targets rel hrel sym s found
    have placed := (stores_placed_iff inRange).mpr chains.places
    have indices : IndicesInRange elf := by
      refine ⟨fun _ => strings, ?_, inRange, placed⟩
      intro sym hsym
      rw [input.heads]
      exact UInt16.lt_iff_toNat_lt.mp (chains.sections sym hsym)
    refine ⟨?_, (correctABSReloc_returns_iff input.relocs).mpr ⟨inRange, placed⟩, ?_, ?_⟩
    · intro f text data
      obtain ⟨symTable, f', run, _⟩ := correctSymTable_returns input.count indices f text data
      exact ⟨_, run⟩
    · intro f o
      exact processOption_returns input.relocs input.count indices f o
    · intro f
      refine (printRelocTable_returns input.relocs f).mpr ?_
      intro rel hrel
      obtain ⟨sym, s, hsym, _⟩ := target_exists input chains.sections hrel
      have here := chains.sections sym (List.mem_of_getElem? hsym)
      refine ⟨sym, hsym, (nameInRange_iff input here).mpr ?_⟩
      exact chains.names.imp id fun zero => zero rel hrel sym hsym

theorem load_passInput {file : List UInt8} {f : CFile} (h : load file = .ok (elf, f))
    (valid : ValidIndices elf) : PassInput elf :=
  have whole := load_loaded h
  ⟨whole.heads, whole.contents, whole.nbSymboles, load_relocShape h, valid.strings, valid.symbols⟩

/-- An option with an address keeps what the passes meet. -/
theorem processOption_passInput {f f' : CFile} {o : AddressOption} (h : PassInput elf)
    (run : processOption (elf, f) o = .ok (elf', f')) : PassInput elf' := by
  obtain ⟨symTable, content, symbols, contents, rfl⟩ := processOption_ok h.relocs run
  have count : content.length = elf.sectionContent.length := by
    simpa using congrArg List.length contents
  exact ⟨h.heads, count.trans h.contents, h.count.trans symbols.symm,
    ⟨h.relocs.nbSections, h.relocs.tabNb⟩, h.strings, h.symbols⟩

theorem processOptions_passInput {f f' : CFile} {opts : List AddressOption} (h : PassInput elf)
    (run : processOptions opts (elf, f) = .ok (elf', f')) : PassInput elf' := by
  induction opts generalizing elf f with
  | nil =>
    cases run
    exact h
  | cons o opts ih =>
    obtain ⟨⟨elf1, f1⟩, first, rest⟩ := bind_eq_ok.mp run
    exact ih (processOption_passInput h first) rest

end passes

/-- In whatever state options with addresses leave a valid file, the passes stay inside the tables
and the contents exactly when these chains of indices do. -/
theorem passes_inRange_iff {file : List UInt8} {elf elf' : Elf32Main} {f f0 f' : CFile}
    (hload : load file = .ok (elf, f)) (valid : ValidIndices elf) {opts : List AddressOption}
    (run : processOptions opts (elf, f0) = .ok (elf', f')) :
    PassesReturn elf' ↔ ChainsInRange elf' :=
  passesReturn_iff (processOptions_passInput (load_passInput hload valid) run)

theorem optionsElf_valid (shstrndx : UInt16) (info : UInt32) (strings : shstrndx < 7) :
    ValidIndices (optionsElf shstrndx 0 info 8) where
  class32 := rfl
  bigEndian := rfl
  relocatable := rfl
  strings := strings
  sections := by
    intro sym hsym
    obtain rfl : sym = optionsSymbol := by simpa [optionsElf] using hsym
    exact Or.inl (by decide : (1 : UInt16) < 7)
  symbols := by
    intro rel hrel
    obtain rfl : rel = ⟨0, 8⟩ := by simpa [optionsElf] using hrel
    exact (by decide : (0 : Int) < 1)
  fields := by
    intro p hp rel hrel w hw
    have rels : (optionsSections 0 info).filter Elf32Shdr.isRel =
        [objectShdr 0 shtRel 56 8 5 1] := rfl
    obtain rfl : p = (objectShdr 0 shtRel 56 8 5 1, [⟨0, 8⟩]) := by
      simpa [optionsElf, rels] using hp
    obtain rfl : rel = ⟨0, 8⟩ := by simpa using hrel
    cases hw
    exact ⟨_, rfl, (by decide : 0 + 1 ≤ 4)⟩

/-- The state after `--text 10`: the symbol is at 17, and its lowest byte is stored. -/
def textAdded : Elf32Main :=
  { optionsElf 2 0 1 8 with
    symTable := [addValue optionsSymbol 16]
    sectionContent := (optionsElf 2 0 1 8).sectionContent.set 1 ⟨4, [17, 0, 0, 0]⟩ }

theorem passes_inRange_optionsFile : PassesReturn textAdded ↔ ChainsInRange textAdded :=
  @passes_inRange_iff (optionsFile 2 0 1 8) (optionsElf 2 0 1 8) textAdded
    ⟨optionsFile 2 0 1 8, 80⟩ ⟨optionsFile 2 0 1 8, 80⟩ ⟨optionsFile 2 0 1 8, 86⟩
    load_optionsFile (optionsElf_valid 2 1 (by decide)) [.text 16] (by decide +kernel)

/-- A valid file with which a pass leaves a table or a content. -/
def Misindexed (file : List UInt8) : Prop :=
  ∃ elf f, load file = .ok (elf, f) ∧ ValidIndices elf ∧ ¬PassesReturn elf

/-- A symbol in no section, a symbol whose section has 0 as its `sh_info`, and a name looked up in
the section before the first one. -/
theorem passes_outOfRange :
    Misindexed absoluteFile ∧ Misindexed (optionsFile 2 0 0 8) ∧
      Misindexed (optionsFile 0 0 1 8) := by
  refine ⟨?_, ?_, ?_⟩
  · refine ⟨absoluteElf, _, load_absoluteFile, ⟨rfl, rfl, rfl, by decide, by decide,
      by decide, by decide⟩, fun returns => ?_⟩
    obtain ⟨r, run⟩ := returns.symbols (CFile.openRead absoluteFile) 16 0
    have stops : correctSymTable (CFile.openRead absoluteFile) absoluteElf 16 0 =
        .error .fault := by decide
    cases stops.symm.trans run
  · refine ⟨optionsElf 2 0 0 8, ⟨optionsFile 2 0 0 8, 80⟩, by decide +kernel,
      optionsElf_valid 2 0 (by decide), fun returns => ?_⟩
    obtain ⟨r, run⟩ := returns.relocs
    have stops : correctABSReloc (optionsElf 2 0 0 8) = .error .fault := by decide
    cases stops.symm.trans run
  · refine ⟨optionsElf 0 0 1 8, ⟨optionsFile 0 0 1 8, 80⟩, by decide +kernel,
      optionsElf_valid 0 1 (by decide), fun returns => ?_⟩
    obtain ⟨r, run⟩ := returns.lines (CFile.openRead (optionsFile 0 0 1 8))
    have stops : printRelocTable (CFile.openRead (optionsFile 0 0 1 8)) (optionsElf 0 0 1 8) =
        .error .fault := by decide
    cases stops.symm.trans run

end ArmRunner
