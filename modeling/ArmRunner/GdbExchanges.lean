import ArmRunner.GdbLink

namespace ArmRunner

open CRun Wire Lexer

theorem store_append (t : Target) (address : UInt32) (xs ys : List UInt8) :
    t.store address (xs ++ ys) =
      (t.store address xs).store (address + UInt32.ofNat xs.length) ys := by
  induction xs generalizing t address with
  | nil =>
    have zero : address + UInt32.ofNat ([] : List UInt8).length = address := UInt32.add_zero address
    rw [zero]
    rfl
  | cons x xs ih =>
    have next : address + UInt32.ofNat (x :: xs).length =
        address + 1 + UInt32.ofNat xs.length := by
      rw [List.length_cons, UInt32.ofNat_add, UInt32.add_assoc,
        UInt32.add_comm (UInt32.ofNat xs.length)]
      rfl
    rw [List.cons_append, Target.store, ih, next]
    rfl

/-- A part of the program sends these payloads one after the other, whatever is damaged. -/
def Exchanges (run : Client → Option Client) (payloads : List (List UInt8)) : Prop :=
  ∀ (c : Client) (rs : List Round) (rest : List UInt8), c.data.buffer = [] →
    rs.map Round.payload = payloads → (∀ r ∈ rs, r.Answered) →
    c.tokens = scan ((rs.flatMap Round.arrived).flatten ++ rest) →
    ∃ c', run c = some c' ∧ c'.data.buffer = [] ∧ c'.tokens = scan rest ∧
      c'.data.gdb.transmitted = c.data.gdb.transmitted ++ rs.flatMap Round.written

section program

variable {f : Client → Option Client} {payload : List UInt8} {payloads : List (List UInt8)}
  {memory : Nat → UInt8}

theorem exchanges_nil : Exchanges some [] := by
  intro c rs rest buffer same answered tokens
  obtain rfl := List.map_eq_nil_iff.mp same
  exact ⟨c, rfl, buffer, tokens, by simp⟩

theorem Exchanges.bind {g : Client → Option Client} {qs : List (List UInt8)}
    (hf : Exchanges f payloads) (hg : Exchanges g qs) :
    Exchanges (fun c => f c >>= g) (payloads ++ qs) := by
  intro c rs rest buffer same answered tokens
  obtain ⟨rs1, rs2, rfl, first, second⟩ := List.map_eq_append_iff.mp same
  rw [List.flatMap_append, List.flatten_append, List.append_assoc] at tokens
  obtain ⟨c1, run1, buffer1, tokens1, transmitted1⟩ := hf c rs1 _ buffer first
    (fun r hr => answered r (by simp [hr])) tokens
  obtain ⟨c2, run2, buffer2, tokens2, transmitted2⟩ := hg c1 rs2 rest buffer1 second
    (fun r hr => answered r (by simp [hr])) tokens1
  refine ⟨c2, Option.bind_eq_some_iff.mpr ⟨c1, run1, run2⟩, buffer2, tokens2, ?_⟩
  rw [transmitted2, transmitted1, List.flatMap_append, List.append_assoc]

theorem sends_window {gdb gdb' : GdbProtocolData} {r : Round} (sends : Sends gdb gdb')
    (transmitted : gdb'.transmitted = gdb.transmitted ++ [frame payload])
    (same : r.payload = payload) : gdb'.window 0 gdb'.len = r.packet := by
  have both := sends.symm.trans transmitted
  rw [Round.packet, same]
  simpa using both

theorem exchanges_packet (send : GdbProtocolData → Option GdbProtocolData)
    (sends : ∀ gdb, ∃ gdb', send gdb = some gdb' ∧ Sends gdb gdb' ∧
      gdb'.transmitted = gdb.transmitted ++ [frame payload]) :
    Exchanges (fun c => (send c.data.gdb).map fun gdb => (gdbGetAnswer (c.sent gdb)).1)
      [payload] := by
  intro c rs rest buffer same answered tokens
  obtain ⟨r, rfl, hr⟩ := List.map_eq_singleton_iff.mp same
  obtain ⟨gdb, run, sends, transmitted⟩ := sends c.data.gdb
  rw [List.flatMap_singleton] at tokens
  obtain ⟨-, tokens', buffer', transmitted'⟩ := gdbGetAnswer_round buffer sends
    (sends_window sends transmitted hr) (answered r (by simp)) tokens
  refine ⟨_, congrArg (Option.map fun gdb => (gdbGetAnswer (c.sent gdb)).1) run, buffer', tokens',
    ?_⟩
  rw [transmitted', List.flatMap_singleton]

/-- How many bytes a packet takes does not depend on what the packet held before. -/
theorem copyBytes_same {size d d' src : Nat} {gdb gdb' : GdbProtocolData} {s : CopyState}
    (run : copyBytes memory size ⟨gdb, d, src, 0, 0⟩ = some s) :
    ∃ s', copyBytes memory size ⟨gdb', d', src, 0, 0⟩ = some s' ∧
      s'.srcBuffer = s.srcBuffer := by
  have follows : ∃ s', copyBytes memory size ⟨gdb', d', src, 0, 0⟩ = some s' ∧
      s'.srcBuffer = s.srcBuffer ∧ s'.bytesCopied = s.bytesCopied ∧
        s'.bufferSize = s.bufferSize := by
    unfold copyBytes at run ⊢
    refine whileLoop_simulates (fun s' s : CopyState => s'.srcBuffer = s.srcBuffer ∧
      s'.bytesCopied = s.bytesCopied ∧ s'.bufferSize = s.bufferSize) ?_ ?_ ?_ run
    · rintro s' s ⟨-, copied, size⟩
      rw [copied, size]
    · rintro s' s t ⟨source, copied, size⟩ turn
      cases turn
      refine ⟨_, rfl, ?_⟩
      simp only [copyByte, source, copied, size]
      split <;> exact ⟨rfl, rfl, rfl⟩
    · exact ⟨rfl, rfl, rfl⟩
  obtain ⟨s', run', same, -⟩ := follows
  exact ⟨s', run', same⟩

theorem writeChunk_same {address : UInt32} {src size : Nat} (nonempty : 0 < size) :
    ∃ k, 0 < k ∧ ∀ gdb, ∃ s', writeChunk memory ⟨gdb, address, src, size⟩ = some s' ∧
      Sends gdb s'.gdb ∧ Turn memory ⟨gdb, address, src, size⟩ k s' := by
  obtain ⟨k, s, run, turn⟩ :=
    @writeChunk_turn memory ⟨⟨fun _ => 0, 0, [], []⟩, address, src, size⟩ nonempty
  refine ⟨k, turn.positive, fun gdb => ?_⟩
  obtain ⟨k', s', run', turn'⟩ := @writeChunk_turn memory ⟨gdb, address, src, size⟩ nonempty
  obtain ⟨s'', run'', sends, -⟩ := @writeChunk_sends memory ⟨gdb, address, src, size⟩ nonempty
  obtain rfl := Option.some.inj (run'.symm.trans run'')
  have same : s'.srcBuffer = s.srcBuffer := by
    obtain ⟨c, copy, rest⟩ := Option.bind_eq_some_iff.mp run
    obtain ⟨c', copy', rest'⟩ := Option.bind_eq_some_iff.mp run'
    have again : ∃ c', copyBytes memory size ⟨gdb, bufferStart + 19, src, 0, 0⟩ = some c' ∧
        c'.srcBuffer = c.srcBuffer := copyBytes_same copy
    obtain ⟨c'', copy'', source⟩ := again
    obtain rfl := Option.some.inj (copy'.symm.trans copy'')
    cases rest
    cases rest'
    exact source
  have here := turn.srcBuffer
  have here' := turn'.srcBuffer
  obtain rfl : k' = k := by
    dsimp only at here here'
    omega
  exact ⟨s', run', sends, turn'⟩

/-- The outer loop of `gdb_write_memory`, when some writes have been cut off before. -/
theorem exchanges_memory {start : UInt32} {total : Nat} (size : Nat) {fuel src : Nat}
    {address : UInt32} {writes : List MemoryWrite} (enough : size < fuel)
    (cut : Cutting start (chunk memory 0 total) writes address size)
    (source : src = (writes.flatMap MemoryWrite.data).length) :
    ∃ more : List MemoryWrite,
      Exchanges (fun c => (whileLoop (fun s => 0 < s.size) (memoryTurn memory) fuel
        ⟨c, address, src, size⟩).map MemoryState.client) (more.map MemoryWrite.payload) ∧
      Chunks start (chunk memory 0 total) (writes ++ more) := by
  induction size using Nat.strong_induction_on generalizing address src fuel writes with
  | _ size ih =>
    obtain ⟨fuel, rfl⟩ : ∃ n, fuel = n + 1 := ⟨fuel - 1, by omega⟩
    by_cases nonempty : 0 < size
    · obtain ⟨k, positive, each⟩ := @writeChunk_same memory address src size nonempty
      have turn (gdb : GdbProtocolData) : ∃ gdb',
          writeChunk memory ⟨gdb, address, src, size⟩ =
            some ⟨gdb', address + UInt32.ofNat k, src + k, size - k⟩ ∧ Sends gdb gdb' ∧
          gdb'.transmitted = gdb.transmitted ++
            [frame (MemoryWrite.payload ⟨address, chunk memory src k⟩)] := by
        obtain ⟨s', run, sends, turn⟩ := each gdb
        refine ⟨s'.gdb, ?_, sends, turn.transmitted⟩
        rw [run, ← turn.address, ← turn.size, ← turn.srcBuffer]
      obtain ⟨cut', source'⟩ : Cutting start (chunk memory 0 total)
          (writes ++ [⟨address, chunk memory src k⟩]) (address + UInt32.ofNat k) (size - k) ∧
          src + k = ((writes ++ [(⟨address, chunk memory src k⟩ : MemoryWrite)]).flatMap
            MemoryWrite.data).length := by
        obtain ⟨s', -, -, turn⟩ := each ⟨fun _ => 0, 0, [], []⟩
        obtain ⟨cut', source'⟩ := Cutting.turn cut source turn
        rw [turn.address, turn.size] at cut'
        rw [turn.srcBuffer] at source'
        exact ⟨cut', source'⟩
      obtain ⟨more, exchanges, chunks⟩ :=
        ih (size - k) (by omega) (show size - k < fuel by omega) cut' source'
      have first : Exchanges (fun c => ((writeChunk memory ⟨c.data.gdb, address, src, size⟩).map
          WriteState.gdb).map fun gdb => (gdbGetAnswer (c.sent gdb)).1)
          [MemoryWrite.payload ⟨address, chunk memory src k⟩] := by
        apply exchanges_packet fun gdb =>
          (writeChunk memory ⟨gdb, address, src, size⟩).map WriteState.gdb
        intro gdb
        obtain ⟨gdb', run, sends, transmitted⟩ := turn gdb
        exact ⟨gdb', by rw [run]; rfl, sends, transmitted⟩
      have loop (c : Client) : (whileLoop (fun s => 0 < s.size) (memoryTurn memory) (fuel + 1)
          ⟨c, address, src, size⟩).map MemoryState.client =
          (((writeChunk memory ⟨c.data.gdb, address, src, size⟩).map WriteState.gdb).map fun gdb =>
            (gdbGetAnswer (c.sent gdb)).1) >>= fun c =>
              (whileLoop (fun s => 0 < s.size) (memoryTurn memory) fuel
                ⟨c, address + UInt32.ofNat k, src + k, size - k⟩).map MemoryState.client := by
        obtain ⟨gdb', run, -, -⟩ := turn c.data.gdb
        have goes : memoryTurn memory ⟨c, address, src, size⟩ = some
            ⟨(gdbGetAnswer (c.sent gdb')).1, address + UInt32.ofNat k, src + k, size - k⟩ := by
          rw [memoryTurn, run]
          rfl
        rw [whileLoop, if_pos (by simpa using nonempty), goes, run]
        rfl
      refine ⟨⟨address, chunk memory src k⟩ :: more, ?_, ?_⟩
      · rw [funext loop]
        exact first.bind exchanges
      · rwa [List.append_assoc] at chunks
    · obtain rfl : size = 0 := by omega
      refine ⟨[], exchanges_nil, ?_⟩
      rw [List.append_nil]
      exact cut.chunks_of_done

/-- A request is a sequence of packets that does not depend on what arrives. -/
theorem exchanges_request (host target : Bool) (r : Request) : ∃ payloads,
    Exchanges (fun c => c.perform host target r) payloads ∧ r.Payloads target payloads := by
  cases r with
  | writeRegister num value =>
    refine ⟨[registerPayload target num value], ?_, rfl⟩
    have sends (gdb : GdbProtocolData) : ∃ gdb', gdbWriteRegister host target gdb num value =
        some gdb' ∧ Sends gdb gdb' ∧ gdb'.transmitted =
          gdb.transmitted ++ [frame (registerPayload target num value)] := by
      obtain ⟨gdb', run, sends⟩ := gdbWriteRegister_sends host target gdb num value
      obtain ⟨gdb'', run', transmitted⟩ := gdbWriteRegister_transmitted host target gdb num value
      cases run.symm.trans run'
      exact ⟨gdb', run, sends, transmitted⟩
    have same (c : Client) : c.perform host target (.writeRegister num value) =
        (gdbWriteRegister host target c.data.gdb num value).map fun gdb =>
          (gdbGetAnswer (c.sent gdb)).1 := by
      rw [Client.perform, Option.map_eq_bind]
      rfl
    rw [funext same]
    exact exchanges_packet _ sends
  | writeMemory address memory size =>
    have cut := cut_start address (chunk memory 0 size)
    rw [chunk_length] at cut
    obtain ⟨writes, exchanges, chunks⟩ := exchanges_memory size (Nat.lt_succ_self size) cut rfl
    rw [List.nil_append, chunk, ← List.range_eq_range'] at chunks
    exact ⟨writes.map MemoryWrite.payload, exchanges, writes, chunks, rfl⟩
  | cont =>
    exact ⟨[[0x63]], exchanges_packet (fun gdb => some (gdbCont gdb)) fun gdb =>
      ⟨_, rfl, gdbSendData_sends gdb _, gdbSendData_transmitted gdb _⟩, rfl⟩
  | step =>
    exact ⟨[[0x73]], exchanges_packet (fun gdb => some (gdbStep gdb)) fun gdb =>
      ⟨_, rfl, gdbSendData_sends gdb _, gdbSendData_transmitted gdb _⟩, rfl⟩

theorem exchanges_requests (host target : Bool) (requests : List Request) : ∃ parts,
    Exchanges (fun c => requests.foldlM (Client.perform host target) c) parts.flatten ∧
      List.Forall₂ (Request.Payloads target) requests parts := by
  induction requests with
  | nil => exact ⟨[], exchanges_nil, .nil⟩
  | cons r rs ih =>
    obtain ⟨payloads, first, sent⟩ := exchanges_request host target r
    obtain ⟨parts, rest, sent'⟩ := ih
    refine ⟨payloads :: parts, ?_, .cons sent sent'⟩
    simp only [List.foldlM_cons]
    exact first.bind rest

/-- The run with which a session ends, after an answer of the simulator or without one. -/
theorem perform_cont (host target : Bool) {c : Client} {r : Round} (buffer : c.data.buffer = [])
    (cont : r.payload = [0x63]) (ends : r.Answered ∨ r.answer = none)
    (tokens : c.tokens = scan r.arrived.flatten) : ∃ c', c.perform host target .cont = some c' ∧
      c'.data.gdb.transmitted = c.data.gdb.transmitted ++ r.written := by
  refine ⟨_, rfl, ?_⟩
  have sends := gdbSendData_sends c.data.gdb [0x63]
  have window := sends_window sends (gdbSendData_transmitted c.data.gdb [0x63]) cont
  rcases ends with answered | exits
  · rw [← List.append_nil r.arrived.flatten] at tokens
    exact (gdbGetAnswer_round buffer sends window answered tokens).2.2.2
  · exact gdbGetAnswer_exit buffer sends window exits tokens

end program

theorem plain_cont : Plain [0x63] := Plain.cons (by decide) plain_nil

theorem plain_step : Plain [0x73] := Plain.cons (by decide) plain_nil

section payloads

variable {target : Bool} {r : Request} {payloads : List (List UInt8)}

theorem escaped_le_of_fits {address : UInt32} {memory : Nat → UInt8} {size : Nat}
    {writes : List MemoryWrite} (fits : (Request.writeMemory address memory size).Fits)
    (chunks : Chunks address ((List.range size).map memory) writes) {w : MemoryWrite}
    (hw : w ∈ writes) : (escaped w.data).length ≤ 1000 := by
  have part : w.data.Sublist ((List.range size).map memory) := by
    rw [← chunks.data, List.flatMap_def]
    exact List.sublist_flatten_of_mem (List.mem_map_of_mem hw)
  have count := part.countP_le (p := special)
  have length := part.length_le
  rw [List.length_map, List.length_range] at length
  rw [escaped, escape_length]
  have room : size + ((List.range size).map memory).countP special ≤ 1000 := fits
  omega

theorem shortPayload_memoryWrite {w : MemoryWrite} (short : (escaped w.data).length ≤ 1000) :
    ShortPayload w.payload := by
  refine ⟨plain_memoryWrite w, ?_⟩
  rw [MemoryWrite.payload, List.length_append, chunkHeader_length, List.length_cons]
  omega

/-- The packets before the run are those that the simulator answers. -/
theorem Request.Served.short (served : r.Served) (sent : r.Payloads target payloads) :
    ∀ p ∈ payloads, ShortPayload p ∧ p ≠ [0x63] := by
  intro p hp
  cases r with
  | writeRegister num value =>
    rw [show payloads = [registerPayload target num value] from sent, List.mem_singleton] at hp
    subst hp
    refine ⟨⟨plain_registerPayload target num value, ?_⟩, ?_⟩
    · have length : (registerPayload target num value).length = 12 := by cases target <;> rfl
      omega
    · simp [registerPayload]
  | writeMemory address memory size =>
    obtain ⟨writes, chunks, rfl⟩ := sent
    obtain ⟨w, hw, rfl⟩ := List.mem_map.mp hp
    exact ⟨shortPayload_memoryWrite (escaped_le_of_fits served chunks hw),
      by simp [MemoryWrite.payload, chunkHeader]⟩
  | cont => exact served.elim
  | step =>
    rw [show payloads = [[0x73]] from sent, List.mem_singleton] at hp
    subst hp
    exact ⟨⟨plain_step, by decide⟩, by decide⟩

theorem stores_writes {address : UInt32} {bytes : List UInt8} {writes : List MemoryWrite}
    (chunks : Chunks address bytes writes) (t : Target) :
    writes.foldl (fun t w => t.store w.address w.data) t = t.store address bytes := by
  obtain ⟨data, addresses, -, -, -⟩ := chunks
  subst data
  induction writes using List.reverseRecOn with
  | nil => rfl
  | append_singleton writes w ih =>
    have before := ih fun k v hv => by
      have inside := (List.getElem?_eq_some_iff.mp hv).1
      have all := addresses k v (by rw [List.getElem?_append_left inside, hv])
      rwa [List.take_append_of_le_length (Nat.le_of_lt inside)] at all
    have last := addresses writes.length w (by simp)
    rw [List.take_left] at last
    rw [List.foldl_append, before, List.flatMap_append, store_append, ← last]
    simp

end payloads

end ArmRunner
