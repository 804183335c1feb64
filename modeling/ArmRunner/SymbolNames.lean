import ArmRunner.Decode
import ArmRunner.PrintSym
import ArmRunner.WellFormed

namespace ArmRunner

open CRun

/-- What a listing keeps of the string at a position of the file. -/
def shortName (file : List UInt8) (p : Nat) : List UInt8 := (fullName file p).take 17

/-- The section that the `sh_link` of the symbol table designates. -/
def linkedStrings (file : List UInt8) : Option Elf32Shdr := do
  let symtab ← (sectionsOf file).find? Elf32Shdr.isSymtab
  (sectionsOf file)[symtab.shLink.toNat]?

/-- The position of a symbol's own name. -/
def ownPlace (file : List UInt8) (sym : Elf32Sym) : Option Nat :=
  (linkedStrings file).map fun strings => strings.shOffset.toNat + sym.stName.toNat

/-- The position of the name of a symbol's section. -/
def ownSectionPlace (file : List UInt8) (sym : Elf32Sym) : Option Nat := do
  let strings ← (sectionsOf file)[(headerOf file).eShstrndx.toNat]?
  let s ← (sectionsOf file)[sym.stShndx.toNat]?
  some (strings.shOffset.toNat + s.shName.toNat)

def sttSection : UInt8 := 3

/-- The position of the name that belongs to an entry. -/
def ownRelocPlace (file : List UInt8) (elf : Elf32Main) (rel : Elf32Rel) : Option Nat := do
  let sym ← elf.symTable[rel.sym]?
  if sym.type = sttSection then ownSectionPlace file sym else ownPlace file sym

/-- The turn of the loop of `printRelocSection` for entry `j`. -/
def relocTurn (elf : Elf32Main) (i j : Nat) (s : Printed) : Run Printed := do
  let table ← fetch elf.relTable i
  let rel ← fetch table j
  printReloc elf rel s

/-- The turn that starts where `before` ends prints these fields and this name. -/
def Prints (before : Run Printed) (turn : Printed → Run Printed) (fields name : List UInt8) :
    Prop :=
  ∃ s f', before = .ok s ∧ turn s = .ok (f', s.2 ++ fields ++ name ++ charBytes "\t\n")

/-- The turn of `printSymTable` for symbol `j` is made and shows the symbol's own name, as far as
17 bytes. -/
def SymbolListed (f : CFile) (elf : Elf32Main) (j : Nat) (sym : Elf32Sym) : Prop :=
  j < elf.nbSymboles.toNat ∧ ∃ q, ownPlace f.bytes sym = some q ∧
    Prints (forLoop (printSymbol elf) 0 j (f, [])) (printSymbol elf j) (symFields j sym)
      (shortName f.bytes q)

/-- The turn of `printRelocTable` for entry `j` of table `i` is made and shows the entry's name. -/
def RelocListed (f : CFile) (elf : Elf32Main) (i j : Nat) (rel : Elf32Rel) : Prop :=
  i < elf.tabSecRel.nbSections ∧ (∃ count, elf.tabSecRel.tabNb[i]? = some count ∧ j < count) ∧
    ∃ sym q, elf.symTable[rel.sym]? = some sym ∧ ownRelocPlace f.bytes elf rel = some q ∧
      Prints (forLoop (printRelocSection elf) 0 i (f, []) >>= forLoop (relocTurn elf i) 0 j)
        (relocTurn elf i j) (relocFields rel sym) (fullName f.bytes q)

/-- In both listings every line shows the name that belongs to it. -/
structure NamesListed (f : CFile) (elf : Elf32Main) : Prop where
  symbols : ∀ (j : Nat) (sym : Elf32Sym), elf.symTable[j]? = some sym → SymbolListed f elf j sym
  relocs : ∀ (i j : Nat) (table : List Elf32Rel) (rel : Elf32Rel), elf.relTable[i]? = some table →
    table[j]? = some rel → RelocListed f elf i j rel

/-- The stream after the names at these offsets have been read. -/
def afterNames (f : CFile) (offsets : List UInt32) : CFile :=
  offsets.foldl (fun f o => (printName f (asInt o)).2) f

/-- The position that the name at an offset is read from, after others: below `2 ^ 31` it is the
offset, otherwise the stream stays where the last name ended. -/
def readPlace (f : CFile) (before : List UInt32) (offset : UInt32) : Nat :=
  ((afterNames f before).fseek (asInt offset)).pos

/-- The string that the program finds at an offset, after others, begins with this name. -/
def NameFound (f : CFile) (before : List UInt32) (offset : Option UInt32) (name : List UInt8) :
    Prop :=
  ∃ o, offset = some o ∧ shortName f.bytes (readPlace f before o) = name

def SymbolFound (f : CFile) (elf : Elf32Main) (j : Nat) (sym : Elf32Sym) : Prop :=
  ∃ q, ownPlace f.bytes sym = some q ∧
    NameFound f ((elf.symTable.take j).filterMap (symbolPlace elf)) (symbolPlace elf sym)
      (shortName f.bytes q)

/-- Entry `j` of `table`, which is table `i`. -/
def RelocFound (f : CFile) (elf : Elf32Main) (i j : Nat) (table : List Elf32Rel)
    (rel : Elf32Rel) : Prop :=
  ∃ q, ownRelocPlace f.bytes elf rel = some q ∧
    NameFound f (((elf.relTable.take i).flatten ++ table.take j).filterMap (relocPlace elf))
      (relocPlace elf rel) (fullName f.bytes q)

section reading

variable {f : CFile}

theorem printName_name (f : CFile) (o : UInt32) :
    (printName f (asInt o)).1 = shortName f.bytes (f.fseek (asInt o)).pos := by
  rw [printName, scanName_eq, CFile.fseek_bytes, shortName]

theorem afterNames_bytes (offsets : List UInt32) : (afterNames f offsets).bytes = f.bytes := by
  induction offsets generalizing f with
  | nil => rfl
  | cons o offsets ih => exact ih.trans (printName_bytes f (asInt o))

theorem afterNames_append (xs ys : List UInt32) :
    afterNames f (xs ++ ys) = afterNames (afterNames f xs) ys := List.foldl_append

theorem readPlace_of_lt (before : List UInt32) {o : UInt32} (h : o.toNat < 2 ^ 31) :
    readPlace f before o = o.toNat := by
  rw [readPlace, asInt_of_lt h, CFile.fseek_natCast]

/-- What a step of a listing does to the stream: the name at one place is read, and without the
place there is no step. -/
structure ReadsName (step : Printed → Run Printed) (place : Option UInt32) : Prop where
  stream : ∀ s s', step s = .ok s' → s'.1 = afterNames s.1 place.toList
  place : ∀ s, (∃ s', step s = .ok s') ↔ place.isSome

theorem readsName_of_line {step : Printed → Run Printed} {place : Option UInt32}
    {fields : List UInt8} (line : ∀ s s', step s = .ok s' ↔
      ∃ o, place = some o ∧ s' = printLine fields o s) : ReadsName step place := by
  refine ⟨?_, ?_⟩
  · intro s s' run
    obtain ⟨o, rfl, rfl⟩ := (line s s').mp run
    rfl
  · intro s
    constructor
    · rintro ⟨s', run⟩
      obtain ⟨o, rfl, _⟩ := (line s s').mp run
      rfl
    · intro there
      obtain ⟨o, ho⟩ := Option.isSome_iff_exists.mp there
      exact ⟨_, (line s _).mpr ⟨o, ho, rfl⟩⟩

/-- What the first `n` turns of a loop with one line for each entry do to the stream. -/
theorem loop_reads {α : Type} {body : Nat → Printed → Run Printed} {xs : List α}
    {place : α → Option UInt32} (turn : ∀ k x, xs[k]? = some x → ReadsName (body k) (place x))
    {n : Nat} (hn : n ≤ xs.length) {s s' : Printed} (run : forLoop body 0 n s = .ok s') :
    s'.1 = afterNames s.1 ((xs.take n).filterMap place) := by
  have all := forLoop_partial
    (I := fun k (t : Printed) => t.1 = afterNames s.1 ((xs.take k).filterMap place)) run rfl ?_
  · rwa [Nat.zero_add] at all
  · intro k t t' _ hk ht step
    have here : xs[k]? = some xs[k] := List.getElem?_eq_getElem (by omega)
    have one : [xs[k]].filterMap place = (place xs[k]).toList := by
      cases h : place xs[k] <;> simp [h]
    rw [List.take_add_one, here, List.filterMap_append, afterNames_append, ← ht, Option.toList_some,
      one]
    exact (turn k _ here).stream t t' step

theorem loop_returns {α : Type} {body : Nat → Printed → Run Printed} {xs : List α}
    {place : α → Option UInt32} (turn : ∀ k x, xs[k]? = some x → ReadsName (body k) (place x))
    {n : Nat} (hn : n ≤ xs.length) (all : ∀ k < n, ∀ x, xs[k]? = some x → (place x).isSome)
    (s : Printed) : ∃ s', forLoop body 0 n s = .ok s' := by
  apply forLoop_returns
  intro k t _ hk
  have here : xs[k]? = some xs[k] := List.getElem?_eq_getElem (by omega)
  exact ((turn k _ here).place t).mpr (all k (by omega) _ here)

/-- A line shows a name exactly when the string at the place it is read from begins with it. -/
theorem prints_iff {before : Run Printed} {turn : Printed → Run Printed} {place : Option UInt32}
    {offsets : List UInt32} {fields name : List UInt8} {s : Printed}
    (line : ∀ s', turn s = .ok s' ↔ ∃ o, place = some o ∧ s' = printLine fields o s)
    (run : before = .ok s) (stream : s.1 = afterNames f offsets) :
    Prints before turn fields name ↔
      NameFound f offsets place name := by
  have shown (o : UInt32) : (printName s.1 (asInt o)).1 =
      shortName f.bytes (readPlace f offsets o) := by
    rw [printName_name, readPlace, stream, afterNames_bytes]
  constructor
  · rintro ⟨t, f', run', step⟩
    cases run.symm.trans run'
    obtain ⟨o, ho, same⟩ := (line _).mp step
    refine ⟨o, ho, ?_⟩
    have out := congrArg Prod.snd same
    simp only [printLine, List.append_assoc, List.append_cancel_left_eq,
      List.append_cancel_right_eq] at out
    rw [out, shown]
  · rintro ⟨o, ho, rfl⟩
    refine ⟨s, (printName s.1 (asInt o)).2, run, ?_⟩
    rw [line]
    exact ⟨o, ho, by rw [← shown]; rfl⟩

end reading

section listings

variable {f : CFile} {elf : Elf32Main}

theorem printSymbol_reads {j : Nat} {sym : Elf32Sym} (hsym : elf.symTable[j]? = some sym) :
    ReadsName (printSymbol elf j) (symbolPlace elf sym) :=
  readsName_of_line fun _ _ => printSymbol_eq_ok hsym

theorem symbol_prints_iff {j : Nat} {sym : Elf32Sym} (hj : elf.symTable[j]? = some sym)
    {s : Printed} (run : forLoop (printSymbol elf) 0 j (f, []) = .ok s) (name : List UInt8) :
    Prints (forLoop (printSymbol elf) 0 j (f, [])) (printSymbol elf j) (symFields j sym) name ↔
      NameFound f ((elf.symTable.take j).filterMap (symbolPlace elf)) (symbolPlace elf sym) name :=
  prints_iff (fun _ => printSymbol_eq_ok hj) run
    (loop_reads (fun _ _ => printSymbol_reads)
      (Nat.le_of_lt (List.getElem?_eq_some_iff.mp hj).1) run)

theorem symbols_listed_iff (count : elf.nbSymboles.toNat = elf.symTable.length) :
    (∀ (j : Nat) (sym : Elf32Sym), elf.symTable[j]? = some sym → SymbolListed f elf j sym) ↔
      ∀ (j : Nat) (sym : Elf32Sym), elf.symTable[j]? = some sym → SymbolFound f elf j sym := by
  constructor
  · intro listed j sym hj
    obtain ⟨_, q, hq, prints⟩ := listed j sym hj
    obtain ⟨s, _, run, _⟩ := id prints
    exact ⟨q, hq, (symbol_prints_iff hj run _).mp prints⟩
  · intro agrees j sym hj
    obtain ⟨q, hq, found⟩ := agrees j sym hj
    have inside := (List.getElem?_eq_some_iff.mp hj).1
    have earlier (k : Nat) (_ : k < j) (t : Elf32Sym) (ht : elf.symTable[k]? = some t) :
        (symbolPlace elf t).isSome := by
      obtain ⟨_, _, o, ho, _⟩ := agrees k t ht
      rw [ho]
      rfl
    obtain ⟨s, run⟩ := loop_returns (fun _ _ => printSymbol_reads) (Nat.le_of_lt inside) earlier
      (f, [])
    exact ⟨by omega, q, hq, (symbol_prints_iff hj run _).mpr found⟩

theorem relocTurn_eq {i j : Nat} {table : List Elf32Rel} {rel : Elf32Rel}
    (ht : elf.relTable[i]? = some table) (hj : table[j]? = some rel) (s : Printed) :
    relocTurn elf i j s = printReloc elf rel s := by
  rw [relocTurn, fetch_eq_ok.mpr ht, ok_bind, fetch_eq_ok.mpr hj, ok_bind]

theorem printReloc_reads (rel : Elf32Rel) :
    ReadsName (printReloc elf rel) (relocPlace elf rel) := by
  cases hsym : elf.symTable[rel.sym]? with
  | some sym => exact readsName_of_line fun _ _ => printReloc_eq_ok hsym
  | none =>
    have nowhere : relocPlace elf rel = none := by
      rw [relocPlace, hsym]
      rfl
    have stops (s : Printed) : printReloc elf rel s = .error .fault := by
      rw [printReloc]
      dsimp only
      rw [fetch, hsym]
      rfl
    refine ⟨?_, ?_⟩
    · intro s s' run
      cases (stops s).symm.trans run
    · intro s
      simp [stops, nowhere]

theorem relocTurn_reads {i : Nat} {table : List Elf32Rel} (ht : elf.relTable[i]? = some table)
    (k : Nat) (rel : Elf32Rel) (hk : table[k]? = some rel) :
    ReadsName (relocTurn elf i k) (relocPlace elf rel) := by
  have same : relocTurn elf i k = printReloc elf rel := funext (relocTurn_eq ht hk)
  rw [same]
  exact printReloc_reads rel

theorem printRelocSection_turns (shape : RelocShape elf) {i : Nat} {table : List Elf32Rel}
    (ht : elf.relTable[i]? = some table) (s : Printed) :
    printRelocSection elf i s = (do
      let (f, out) ← forLoop (relocTurn elf i) 0 table.length s
      .ok (f, out ++ charBytes "\n") : Run Printed) := by
  rw [printRelocSection, fetch_eq_ok.mpr (shape.count_at ht), ok_bind]
  rfl

theorem tables_read (shape : RelocShape elf) {i : Nat} (hi : i ≤ elf.relTable.length)
    {s : Printed} (run : forLoop (printRelocSection elf) 0 i (f, []) = .ok s) :
    s.1 = afterNames f ((elf.relTable.take i).flatten.filterMap (relocPlace elf)) := by
  have all := forLoop_partial (I := fun k (t : Printed) =>
    t.1 = afterNames f ((elf.relTable.take k).flatten.filterMap (relocPlace elf))) run rfl ?_
  · rwa [Nat.zero_add] at all
  · intro k t t' _ hk ht step
    have here : elf.relTable[k]? = some elf.relTable[k] := List.getElem?_eq_getElem (by omega)
    rw [printRelocSection_turns shape here] at step
    obtain ⟨⟨g, out⟩, inner, step⟩ := bind_eq_ok.mp step
    cases step
    have entries := loop_reads (relocTurn_reads here) (Nat.le_refl _) inner
    rw [List.take_length] at entries
    rw [List.take_add_one, here, List.flatten_append, List.filterMap_append, afterNames_append,
      ← ht, Option.toList_some, List.flatten_singleton]
    exact entries

theorem tables_return (shape : RelocShape elf) {i : Nat} (hi : i ≤ elf.relTable.length)
    (all : ∀ k < i, ∀ table : List Elf32Rel, elf.relTable[k]? = some table →
      ∀ (j : Nat) (rel : Elf32Rel), table[j]? = some rel → (relocPlace elf rel).isSome)
    (s : Printed) :
    ∃ s', forLoop (printRelocSection elf) 0 i s = .ok s' := by
  apply forLoop_returns
  intro k t _ hk
  have here : elf.relTable[k]? = some elf.relTable[k] := List.getElem?_eq_getElem (by omega)
  obtain ⟨t', inner⟩ := loop_returns (relocTurn_reads here) (Nat.le_refl _)
    (fun j _ rel hj => all k (by omega) _ here j rel hj) t
  rw [printRelocSection_turns shape here, inner, ok_bind]
  exact ⟨_, rfl⟩

theorem reloc_prints_iff (shape : RelocShape elf) {i j : Nat} {table : List Elf32Rel}
    {rel : Elf32Rel} {sym : Elf32Sym} (ht : elf.relTable[i]? = some table)
    (hj : table[j]? = some rel) (hsym : elf.symTable[rel.sym]? = some sym) {t : Printed}
    (run : (forLoop (printRelocSection elf) 0 i (f, []) >>= forLoop (relocTurn elf i) 0 j) = .ok t)
    (name : List UInt8) :
    Prints (forLoop (printRelocSection elf) 0 i (f, []) >>= forLoop (relocTurn elf i) 0 j)
        (relocTurn elf i j) (relocFields rel sym) name ↔
      NameFound f (((elf.relTable.take i).flatten ++ table.take j).filterMap (relocPlace elf))
        (relocPlace elf rel) name := by
  have line (t' : Printed) : relocTurn elf i j t = .ok t' ↔
      ∃ o, relocPlace elf rel = some o ∧ t' = printLine (relocFields rel sym) o t := by
    rw [relocTurn_eq ht hj]
    exact printReloc_eq_ok hsym
  refine prints_iff line run ?_
  obtain ⟨s, tables, entries⟩ := bind_eq_ok.mp run
  rw [loop_reads (relocTurn_reads ht) (Nat.le_of_lt (List.getElem?_eq_some_iff.mp hj).1) entries,
    tables_read shape (Nat.le_of_lt (List.getElem?_eq_some_iff.mp ht).1) tables,
    List.filterMap_append, afterNames_append]

theorem relocs_listed_iff (shape : RelocShape elf) :
    (∀ (i j : Nat) (table : List Elf32Rel) (rel : Elf32Rel), elf.relTable[i]? = some table →
      table[j]? = some rel → RelocListed f elf i j rel) ↔
      ∀ (i j : Nat) (table : List Elf32Rel) (rel : Elf32Rel), elf.relTable[i]? = some table →
        table[j]? = some rel → RelocFound f elf i j table rel := by
  constructor
  · intro listed i j table rel ht hj
    obtain ⟨_, _, sym, q, hsym, hq, prints⟩ := listed i j table rel ht hj
    obtain ⟨t, _, run, _⟩ := id prints
    exact ⟨q, hq, (reloc_prints_iff shape ht hj hsym run _).mp prints⟩
  · intro agrees i j table rel ht hj
    have inside := (List.getElem?_eq_some_iff.mp ht).1
    have below := (List.getElem?_eq_some_iff.mp hj).1
    have placed (k : Nat) (table : List Elf32Rel) (hk : elf.relTable[k]? = some table) (m : Nat)
        (rel : Elf32Rel) (hm : table[m]? = some rel) : (relocPlace elf rel).isSome := by
      obtain ⟨_, _, o, ho, _⟩ := agrees k m table rel hk hm
      rw [ho]
      rfl
    obtain ⟨q, hq, found⟩ := agrees i j table rel ht hj
    obtain ⟨sym, hsym, _⟩ := Option.bind_eq_some_iff.mp hq
    obtain ⟨s, tables⟩ := tables_return shape (Nat.le_of_lt inside) (fun k _ => placed k) (f, [])
    obtain ⟨t, entries⟩ := loop_returns (relocTurn_reads ht) (Nat.le_of_lt below)
      (fun m _ => placed i table ht m) s
    have run : (forLoop (printRelocSection elf) 0 i (f, []) >>=
        forLoop (relocTurn elf i) 0 j) = .ok t := by
      rw [tables, ok_bind, entries]
    refine ⟨by rwa [shape.nbSections], ⟨_, shape.count_at ht, below⟩, sym, q, hsym, hq, ?_⟩
    exact (reloc_prints_iff shape ht hj hsym run _).mpr found

end listings

end ArmRunner
