import ArmRunner.Correct
import ArmRunner.Lib.ArrayLoop

namespace ArmRunner

open CRun

/-- The string at a position of the file. -/
def fullName (file : List UInt8) (p : Nat) : List UInt8 := (file.drop p).takeWhile (· ≠ 0)

theorem scanName_bytes (n : Nat) (f : CFile) : (scanName n f).2.bytes = f.bytes := by
  have step (f : CFile) : f.fgetc.2.bytes = f.bytes := by
    unfold CFile.fgetc
    split <;> rfl
  induction n generalizing f with
  | zero => exact step f
  | succ n ih =>
    unfold scanName
    have next := step f
    split
    next c g hc =>
      rw [hc] at next
      split
      · exact (ih g).trans next
      · exact next
    next g hc =>
      rw [hc] at next
      exact next

/-- The loop keeps at most `n` characters of the string at the stream's position. -/
theorem scanName_eq (n : Nat) (f : CFile) :
    (scanName n f).1 = (fullName f.bytes f.pos).take n := by
  induction n generalizing f with
  | zero => rfl
  | succ n ih =>
    unfold scanName CFile.fgetc fullName
    cases hc : f.bytes[f.pos]? with
    | none =>
      have past : f.bytes.length ≤ f.pos := List.getElem?_eq_none_iff.mp hc
      simp [List.drop_eq_nil_of_le past]
    | some c =>
      obtain ⟨hlt, rfl⟩ := List.getElem?_eq_some_iff.mp hc
      rw [List.drop_eq_getElem_cons hlt]
      by_cases zero : f.bytes[f.pos] ≠ 0
      · have rest := ih ⟨f.bytes, f.pos + 1⟩
        simp only [zero, ne_eq, not_false_eq_true, if_true, List.takeWhile_cons, decide_true,
          List.take_succ_cons, rest, fullName]
      · have ends : f.bytes[f.pos] = 0 := not_not.mp zero
        simp [ends]

theorem printName_bytes (f : CFile) (offset : Int) : (printName f offset).2.bytes = f.bytes := by
  rw [printName, scanName_bytes, CFile.fseek_bytes]

theorem take_eq_short {α : Type} {xs ys : List α} {n : Nat} (h : ys.length < n) :
    xs.take n = ys ↔ xs = ys := by
  constructor
  · intro same
    have length := congrArg List.length same
    rw [List.length_take] at length
    rw [← same, List.take_of_length_le (by omega)]
  · rintro rfl
    exact List.take_of_length_le (Nat.le_of_lt h)

/-- The names compared are shorter than what is kept of a name, so they are compared in full. -/
theorem amount_take (text data : UInt32) (name : List UInt8) :
    amount text data (name.take 17) = amount text data name := by
  have isText : name.take 17 = textName ↔ name = textName := take_eq_short (by decide)
  have isData : name.take 17 = dataName ↔ name = dataName := take_eq_short (by decide)
  simp only [amount, isText, isData]

theorem amount_printName {f : CFile} {offset : UInt32} (h : offset.toNat < 2 ^ 31)
    (text data : UInt32) :
    amount text data (printName f (asInt offset)).1 =
      amount text data (fullName f.bytes offset.toNat) := by
  rw [printName, scanName_eq, amount_take, asInt_of_lt h, CFile.fseek_natCast]

theorem amount_add (text data text' data' : UInt32) (name : List UInt8) :
    amount text data name + amount text' data' name =
      amount (text + text') (data + data') name := by
  unfold amount
  split
  · rfl
  · split
    · rfl
    · rfl

/-- What the names at these offsets, read one after another, add. -/
def nameAmounts (text data : UInt32) : CFile → List UInt32 → List UInt32
  | _, [] => []
  | f, offset :: offsets =>
    let (nomSection, f) := printName f (asInt offset)
    amount text data nomSection :: nameAmounts text data f offsets

theorem nameAmounts_length (text data : UInt32) (f : CFile) (offsets : List UInt32) :
    (nameAmounts text data f offsets).length = offsets.length := by
  induction offsets generalizing f with
  | nil => rfl
  | cons offset offsets ih =>
    rw [nameAmounts, List.length_cons, List.length_cons, ih]

/-- Names at offsets that `fseek` accepts do not depend on where the stream stands. -/
theorem nameAmounts_eq {f : CFile} {offsets : List UInt32} (text data : UInt32)
    (h : ∀ o ∈ offsets, o.toNat < 2 ^ 31) :
    nameAmounts text data f offsets =
      offsets.map fun o => amount text data (fullName f.bytes o.toNat) := by
  induction offsets generalizing f with
  | nil => rfl
  | cons offset offsets ih =>
    rw [nameAmounts, List.map_cons]
    dsimp only
    rw [amount_printName (h offset List.mem_cons_self),
      ih (fun o ho => h o (List.mem_cons_of_mem _ ho)), printName_bytes]

/-- What is added for a name at an offset that `fseek` accepts depends on no other name. -/
theorem nameAmounts_getElem? (text data : UInt32) {f : CFile} {offsets : List UInt32} {j : Nat}
    {o : UInt32} (h : offsets[j]? = some o) (low : o.toNat < 2 ^ 31) :
    (nameAmounts text data f offsets)[j]? =
      some (amount text data (fullName f.bytes o.toNat)) := by
  induction offsets generalizing f j with
  | nil => cases h
  | cons offset offsets ih =>
    rw [nameAmounts]
    dsimp only
    cases j with
    | zero =>
      cases h
      rw [List.getElem?_cons_zero, amount_printName low]
    | succ j =>
      rw [List.getElem?_cons_succ, ih h, printName_bytes]

def addValue (sym : Elf32Sym) (a : UInt32) : Elf32Sym := { sym with stValue := sym.stValue + a }

/-- The `sh_name` of a symbol's section. -/
def nameOf (sectHeader : List Elf32Shdr) (sym : Elf32Sym) : UInt32 :=
  (sectHeader[sym.stShndx.toNat]?).elim 0 fun s => s.shName

section symTable

variable {elf : Elf32Main} {strings : Elf32Shdr}

theorem correctSymbols_eq (hstrings : elf.sectHeader[elf.header.eShstrndx.toNat]? = some strings)
    (text data : UInt32) (done : List Elf32Sym) {todo : List Elf32Sym} (f : CFile)
    (sections : ∀ sym ∈ todo, sym.stShndx.toNat < elf.sectHeader.length) :
    ∃ f', f'.bytes = f.bytes ∧
      forLoop (correctSymbol text data) done.length todo.length
        ({ elf with symTable := done ++ todo }, f) =
      .ok ({ elf with
        symTable := done ++ List.zipWith addValue todo (nameAmounts text data f
          (todo.map fun sym => strings.shOffset + nameOf elf.sectHeader sym)) }, f') := by
  induction todo generalizing done f with
  | nil => exact ⟨f, rfl, rfl⟩
  | cons sym todo ih =>
    obtain ⟨s, hs⟩ : ∃ s, elf.sectHeader[sym.stShndx.toNat]? = some s :=
      ⟨_, List.getElem?_eq_getElem (sections sym List.mem_cons_self)⟩
    have name : nameOf elf.sectHeader sym = s.shName := by rw [nameOf, hs]; rfl
    have bytes := printName_bytes f (asInt (strings.shOffset + s.shName))
    generalize hread : printName f (asInt (strings.shOffset + s.shName)) = read at bytes
    obtain ⟨nomSection, g⟩ := read
    have turn : correctSymbol text data done.length
        ({ elf with symTable := done ++ sym :: todo }, f) = .ok ({ elf with
          symTable := done ++ addValue sym (amount text data nomSection) :: todo }, g) := by
      rw [correctSymbol]
      dsimp only
      rw [fetch_eq_ok.mpr hstrings, ok_bind, fetch_append_cons, ok_bind, fetch_eq_ok.mpr hs,
        ok_bind, hread]
      dsimp only
      rw [assign_append_cons, ok_bind, addValue]
    obtain ⟨f', hf', rest⟩ := ih (done ++ [addValue sym (amount text data nomSection)]) g
      (fun t ht => sections t (List.mem_cons_of_mem _ ht))
    refine ⟨f', hf'.trans bytes, ?_⟩
    rw [List.length_cons, forLoop_succ, turn, ok_bind, List.map_cons, name, nameAmounts, hread]
    simpa using rest

/-- The symbols are corrected one after another, and nothing else changes. -/
theorem correctSymTable_eq (hstrings : elf.sectHeader[elf.header.eShstrndx.toNat]? = some strings)
    (count : elf.nbSymboles.toNat = elf.symTable.length) (text data : UInt32) (f : CFile)
    (sections : ∀ sym ∈ elf.symTable, sym.stShndx.toNat < elf.sectHeader.length) :
    ∃ f', f'.bytes = f.bytes ∧ correctSymTable f elf text data =
      .ok ({ elf with
        symTable := List.zipWith addValue elf.symTable (nameAmounts text data f
          (elf.symTable.map fun sym => strings.shOffset + nameOf elf.sectHeader sym)) }, f') := by
  have := correctSymbols_eq hstrings text data [] f sections
  rwa [List.length_nil, List.nil_append, ← count] at this

end symTable

end ArmRunner
