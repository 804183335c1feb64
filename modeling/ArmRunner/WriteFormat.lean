import ArmRunner.Encode
import ArmRunner.Write

namespace ArmRunner

open CRun Words

theorem writeHalf_eq (f : CFile) (x : UInt16) : writeHalf f x = f.fwrite (halfBytes x) := by
  rw [writeHalf, leBytes_bswap16, halfBytes]

theorem writeWord_eq (f : CFile) (x : UInt32) : writeWord f x = f.fwrite (wordBytes x) := by
  rw [writeWord, leBytes_bswap32, wordBytes]

theorem writeHeader_eq {h : Elf32Ehdr} (class32 : h.eIdent.eiClass = 1) (f : CFile) :
    writeHeader h f = (f.fseek 0).fwrite (headerBytes h) := by
  simp only [writeHeader, writeByte, writeAddress, class32, if_true, writeHalf_eq, writeWord_eq,
    CFile.fwrite_fwrite, headerBytes, identBytes]

theorem writeSym_eq (f : CFile) (sym : Elf32Sym) : writeSym f sym = f.fwrite (symBytes sym) := by
  simp only [writeSym, writeByte, writeHalf_eq, writeWord_eq, CFile.fwrite_fwrite, symBytes]

theorem writeShdr_eq (f : CFile) (s : Elf32Shdr) : writeShdr f s = f.fwrite (shdrBytes s) := by
  simp only [writeShdr, writeWord_eq, CFile.fwrite_fwrite, shdrBytes]

theorem flatMap_filterMap {α β γ : Type} (xs : List α) (f : α → Option β) (g : β → List γ) :
    (xs.filterMap f).flatMap g = xs.flatMap fun x => (f x).elim [] g := by
  induction xs with
  | nil => rfl
  | cons x xs ih => cases hx : f x <;> simp [hx, ih]

/-- The bytes that a section takes in a written file. -/
def contentOf (v : View) (s : Section) : List UInt8 :=
  if s.1.shType = shtSymtab then v.symTable.flatMap symBytes else s.2.sectionBytes

/-- The pairs to sort, one for each section. -/
def View.entries (v : View) : List TempTab :=
  v.sections.zipIdx.map fun p => ⟨p.2, asInt p.1.1.shOffset⟩

section writes

variable {elf : Elf32Main} {v : View} {f : CFile}

theorem sortTable_eq (h : Represents elf v) : sortTable elf = .ok v.entries := by
  have run : ∃ tab, sortTable elf = .ok tab ∧ tab =
      (v.sections.take (0 + elf.header.eShnum.toNat)).zipIdx.map fun p =>
        (⟨p.2, asInt p.1.1.shOffset⟩ : TempTab) := by
    apply forLoop_total (I := fun i tab => tab = (v.sections.take i).zipIdx.map fun p =>
      (⟨p.2, asInt p.1.1.shOffset⟩ : TempTab)) rfl
    intro k tab _ hk htab
    rw [Nat.zero_add, h.count] at hk
    have here : v.sections[k]? = some v.sections[k] := List.getElem?_eq_getElem hk
    refine ⟨_, by rw [h.fetch_head here, ok_bind], ?_⟩
    rw [htab, List.take_add_one, here, List.zipIdx_append, List.map_append]
    simp [Nat.min_eq_left (Nat.le_of_lt hk)]
  obtain ⟨tab, hrun, htab⟩ := run
  rw [Nat.zero_add, h.count, List.take_length] at htab
  rw [hrun, htab, View.entries]

theorem View.mem_entries {e : TempTab} (he : e ∈ v.entries) :
    ∃ s, v.sections[e.indice]? = some s ∧ e.offset = asInt s.1.shOffset := by
  obtain ⟨p, hp, rfl⟩ := List.mem_map.mp he
  exact ⟨p.1, List.mem_zipIdx_iff_getElem?.mp hp, rfl⟩

/-- Following the indices of the pairs leads to the sections, each once. -/
theorem View.entries_sections (v : View) :
    v.entries.filterMap (fun e => v.sections[e.indice]?) = v.sections := by
  have each : ∀ p ∈ v.sections.zipIdx, v.sections[p.2]? = some p.1 :=
    fun p hp => List.mem_zipIdx_iff_getElem?.mp hp
  rw [View.entries, List.filterMap_map]
  calc v.sections.zipIdx.filterMap (fun p => v.sections[p.2]?)
      = v.sections.zipIdx.filterMap (fun p => some p.1) := List.filterMap_congr each
    _ = v.sections.zipIdx.map Prod.fst := List.filterMap_eq_map ▸ rfl
    _ = v.sections := List.zipIdx_map_fst 0 v.sections

theorem writeOneSection_eq (h : Represents elf v) {i : Nat} {s : Section}
    (hs : v.sections[i]? = some s) (filled : s.2.Filled) (fits : f.pos ≤ f.bytes.length) :
    writeOneSection elf i f = .ok (f.fwrite (contentOf v s)) := by
  rw [writeOneSection, h.fetch_head hs, ok_bind, contentOf]
  by_cases ht : s.1.shType = shtSymtab
  · rw [if_pos ht, if_pos ht, h.nbSymboles]
    apply CFile.forLoop_fwrite fits
    intro k sym g hk _
    rw [h.symTable, fetch_eq_ok.mpr hk, ok_bind, writeSym_eq]
  · rw [if_neg ht, if_neg ht, h.fetch_content hs, ok_bind]
    have size : s.2.size = s.2.sectionBytes.length := filled
    by_cases hz : s.2.size ≠ 0
    · have read : s.2.read = .ok s.2.sectionBytes := by
        rw [SectionContent.read, if_pos (by omega), size, Int.toNat_natCast, List.take_length]
      rw [if_pos hz, read, ok_bind]
    · have empty : s.2.sectionBytes = [] := List.length_eq_zero_iff.mp (by omega)
      rw [if_neg hz, empty, CFile.fwrite_nil fits]

/-- The contents are written one after another, in some order by increasing offset. -/
theorem writeSectionContent_eq (q : Qsort) (h : Represents elf v)
    (filled : ∀ s ∈ v.sections, s.2.Filled) (fits : f.pos ≤ f.bytes.length) :
    ∃ order : List Section, order.Perm v.sections ∧
      order.Pairwise (fun s t => asInt s.1.shOffset ≤ asInt t.1.shOffset) ∧
      writeSectionContent q elf f = .ok (f.fwrite (order.flatMap (contentOf v))) := by
  have perm := q.perm v.entries
  set tab := q.sort v.entries with htab
  have length : elf.header.eShnum.toNat = tab.length := by
    rw [h.count, perm.length_eq, View.entries, List.length_map, List.length_zipIdx]
  refine ⟨tab.filterMap fun e => v.sections[e.indice]?, ?_, ?_, ?_⟩
  · have := perm.filterMap fun e => v.sections[e.indice]?
    rwa [v.entries_sections] at this
  · apply List.pairwise_filterMap.mpr
    refine (q.sorted v.entries).imp_of_mem ?_
    intro e1 e2 h1 h2 le s hs t ht
    obtain ⟨s', hs', hoff⟩ := View.mem_entries (perm.mem_iff.mp h1)
    obtain ⟨t', ht', hoff'⟩ := View.mem_entries (perm.mem_iff.mp h2)
    cases Option.some.inj (hs'.symm.trans hs)
    cases Option.some.inj (ht'.symm.trans ht)
    rw [← hoff, ← hoff']
    unfold compare at le
    split at le
    next he => exact le_of_eq he
    next =>
      split at le
      next hlt => exact le_of_lt hlt
      next => omega
  · rw [writeSectionContent, sortTable_eq h, ok_bind, flatMap_filterMap]
    dsimp only
    rw [← htab, length]
    apply CFile.forLoop_fwrite fits
    intro k e g hk hg
    obtain ⟨s, hs, _⟩ := View.mem_entries (perm.mem_iff.mp (List.mem_of_getElem? hk))
    rw [fetch_eq_ok.mpr hk, ok_bind, hs]
    exact writeOneSection_eq h hs (filled s (List.mem_of_getElem? hs)) hg

theorem writeSectionHeader_eq (h : Represents elf v) (fits : f.pos ≤ f.bytes.length) :
    writeSectionHeader elf f = .ok (f.fwrite (v.sections.flatMap fun s => shdrBytes s.1)) := by
  rw [writeSectionHeader, h.count]
  apply CFile.forLoop_fwrite fits
  intro k s g hk _
  rw [h.fetch_head hk, ok_bind, writeShdr_eq]

/-- The three writes put the header, the contents by increasing offset and the section header
table one after another. -/
theorem writeElf_eq (q : Qsort) (h : Represents elf v) (class32 : v.header.eIdent.eiClass = 1)
    (filled : ∀ s ∈ v.sections, s.2.Filled) :
    ∃ order : List Section, order.Perm v.sections ∧
      order.Pairwise (fun s t => asInt s.1.shOffset ≤ asInt t.1.shOffset) ∧
      writeElf q elf f = .ok ((f.fseek 0).fwrite (headerBytes v.header ++
        order.flatMap (contentOf v) ++ v.sections.flatMap fun s => shdrBytes s.1)) := by
  obtain ⟨order, perm, sorted, run⟩ := writeSectionContent_eq q h filled
    (f := (f.fseek 0).fwrite (headerBytes v.header)) (CFile.fwrite_pos_le _ _)
  refine ⟨order, perm, sorted, ?_⟩
  rw [writeElf, writeHeader_eq (h.header ▸ class32), h.header]
  rw [run, ok_bind, writeSectionHeader_eq h (CFile.fwrite_pos_le _ _), CFile.fwrite_fwrite,
    CFile.fwrite_fwrite, List.append_assoc]

end writes

end ArmRunner
