import ArmRunner.Lib.Outlet
import ArmRunner.GdbClient

namespace ArmRunner

open CRun Lexer History

/-- The variables of `rio_writen`, with an index for the pointer. -/
structure WritenState where
  outlet : Outlet UInt8
  nleft : Nat
  bufp : Nat

/-- The loop of `rio_writen`. It has no result as long as a call of `write` has not returned. -/
def writenLoop (usrbuf : List UInt8) : Nat → WritenState → WritenState × Option Int
  | 0, s => (s, none)
  | turns + 1, s =>
    if s.nleft = 0 then (s, some usrbuf.length)
    else
      match s.outlet.write ((usrbuf.drop s.bufp).take s.nleft) with
      | none => (s, none)
      | some (nwritten, outlet) =>
        if nwritten ≤ 0 then
          -- errno may be left from an earlier call when nothing is taken
          if outlet.errno = .EINTR then writenLoop usrbuf turns { s with outlet := outlet }
          else ({ s with outlet := outlet }, some (-1))
        else
          writenLoop usrbuf turns ⟨outlet, s.nleft - nwritten.toNat, s.bufp + nwritten.toNat⟩

/-- `rio_writen` of all the bytes. A turn takes one of the coming results, and the last turn none. -/
def rioWriten (usrbuf : List UInt8) (outlet : Outlet UInt8) : Outlet UInt8 × Option Int :=
  let (s, result) := writenLoop usrbuf (outlet.coming.length + 1) ⟨outlet, usrbuf.length, 0⟩
  (s.outlet, result)

/-- Why the client is not yet behind a call: it is still in it, or the call has ended it. -/
inductive Halt
  | waits
  | exits
  deriving DecidableEq, Repr

/-- `Rio_writen`: `unix_error` ends the client. -/
def Wrapper.rioWriten (usrbuf : List UInt8) (outlet : Outlet UInt8) :
    Except (Outlet UInt8 × Halt) (Outlet UInt8) :=
  match ArmRunner.rioWriten usrbuf outlet with
  | (outlet, none) => .error (outlet, .waits)
  | (outlet, some result) =>
    if result ≠ usrbuf.length then .error (outlet, .exits) else .ok outlet

/-- The texts that a client writes, one after the other. -/
def writeAll (texts : List (List UInt8)) (outlet : Outlet UInt8) :
    Except (Outlet UInt8 × Halt) (Outlet UInt8) :=
  texts.foldlM (fun outlet text => Wrapper.rioWriten text outlet) outlet

/-- The packets that a scanner finds. -/
def packets (s : List UInt8) : List (List UInt8) :=
  ((scan s).filter (·.rule == .packet)).map Token.text

/-- The texts that arrived whole, and the part of the next one that did. -/
def Cut (texts whole : List (List UInt8)) (broken : List UInt8) : Prop :=
  ∃ text rest, texts = whole ++ text :: rest ∧ broken <+: text ∧ broken.length < text.length

section writen

variable {usrbuf base text : List UInt8} {s s' : WritenState} {o o' : Outlet UInt8}
  {result : Option Int} {turns : Nat}

/-- A part of the bytes has been taken, behind those that were taken before. -/
structure Partway (usrbuf base : List UInt8) (s : WritenState) : Prop where
  taken : s.outlet.taken = base ++ usrbuf.take s.bufp
  left : s.bufp + s.nleft = usrbuf.length

/-- One call of `write` moves the pointer over what is taken. -/
theorem Partway.write {nwritten : Int} (h : Partway usrbuf base s)
    (run : s.outlet.write ((usrbuf.drop s.bufp).take s.nleft) = some (nwritten, o)) :
    Partway usrbuf base ⟨o, s.nleft - nwritten.toNat, s.bufp + nwritten.toNat⟩ := by
  obtain ⟨few, taken⟩ := Outlet.write_taken run
  have left := h.left
  rw [List.length_take, List.length_drop] at few
  have inside : nwritten.toNat ≤ s.nleft := by omega
  refine ⟨?_, by simp only; omega⟩
  rw [taken, h.taken, List.append_assoc, List.take_take, Nat.min_eq_left inside, List.take_add]

/-- The loop ends with all of the bytes taken, or before. -/
theorem writenLoop_partway (h : Partway usrbuf base s)
    (run : writenLoop usrbuf turns s = (s', result)) : Partway usrbuf base s' ∧
      (s'.nleft = 0 ∧ result = some (usrbuf.length : Int) ∨
        (result = none ∨ 0 < s'.nleft ∧ result = some (-1))) := by
  induction turns generalizing s with
  | zero =>
    cases run
    exact ⟨h, Or.inr (Or.inl rfl)⟩
  | succ turns ih =>
    rw [writenLoop] at run
    split_ifs at run with done
    · cases run
      exact ⟨h, Or.inl ⟨done, rfl⟩⟩
    split at run
    next =>
      cases run
      exact ⟨h, Or.inr (Or.inl rfl)⟩
    next nwritten outlet call =>
      have next := h.write call
      split_ifs at run with none interrupted
      · rw [Int.toNat_of_nonpos none] at next
        exact ih next run
      · cases run
        rw [Int.toNat_of_nonpos none] at next
        exact ⟨next, Or.inr (Or.inr ⟨Nat.pos_of_ne_zero done, rfl⟩)⟩
      · exact ih next run

theorem writenLoop_waits (enough : s.outlet.coming.length < turns)
    (run : writenLoop usrbuf turns s = (s', none)) :
    0 < s'.nleft ∧ s'.outlet.coming = [] := by
  induction turns generalizing s with
  | zero => omega
  | succ turns ih =>
    rw [writenLoop] at run
    split_ifs at run with done
    · cases run
    split at run
    next waits =>
      cases run
      exact ⟨Nat.pos_of_ne_zero done, Outlet.write_eq_none.mp waits⟩
    next nwritten outlet call =>
      obtain ⟨first, coming⟩ := Outlet.write_coming call
      have fewer : outlet.coming.length < turns := by
        rw [coming, List.length_cons] at enough
        omega
      split_ifs at run with none interrupted
      · exact ih fewer run
      · cases run
      · exact ih fewer run

/-- An end that is willing is never the reason for an exit, and takes a byte for each result that
stands for one. -/
theorem writenLoop_willing (h : Partway usrbuf base s) (willing : s.outlet.Willing)
    (run : writenLoop usrbuf turns s = (s', result)) : s'.outlet.Willing ∧ result ≠ some (-1) ∧
      s.outlet.weight + s.outlet.taken.length ≤
        s'.outlet.weight + s'.outlet.taken.length := by
  induction turns generalizing s with
  | zero =>
    cases run
    exact ⟨willing, by simp, Nat.le_refl _⟩
  | succ turns ih =>
    rw [writenLoop] at run
    split_ifs at run with done
    · cases run
      exact ⟨willing, by simp, Nat.le_refl _⟩
    split at run
    next =>
      cases run
      exact ⟨willing, by simp, Nat.le_refl _⟩
    next nwritten outlet call =>
      have nonempty : (usrbuf.drop s.bufp).take s.nleft ≠ [] := by
        have left := h.left
        rw [ne_eq, List.take_eq_nil_iff, List.drop_eq_nil_iff]
        omega
      obtain ⟨few, taken⟩ := Outlet.write_taken call
      obtain ⟨behind, some, weight⟩ := willing.write nonempty call
      have next := h.write call
      have grown : s.outlet.weight + s.outlet.taken.length ≤
          outlet.weight + outlet.taken.length := by
        rw [taken, List.length_append, List.length_take]
        omega
      split_ifs at run with none interrupted
      · rw [Int.toNat_of_nonpos none] at next
        obtain ⟨kept, result, more⟩ := ih next behind run
        exact ⟨kept, result, grown.trans more⟩
      · rcases some with some | some
        · omega
        · exact absurd some interrupted
      · obtain ⟨kept, result, more⟩ := ih next behind run
        exact ⟨kept, result, grown.trans more⟩

/-- `Rio_writen` returns when all of the bytes are taken; else a part of them is. -/
theorem rioWriten_spec (text : List UInt8) (o : Outlet UInt8) :
    (∃ o', Wrapper.rioWriten text o = .ok o' ∧ o'.taken = o.taken ++ text) ∨
      ∃ o' halt broken, Wrapper.rioWriten text o = .error (o', halt) ∧ broken <+: text ∧
        broken.length < text.length ∧ o'.taken = o.taken ++ broken ∧
        (halt = .waits → o'.coming = []) := by
  have start : Partway text o.taken ⟨o, text.length, 0⟩ := ⟨by simp, by simp⟩
  obtain ⟨⟨s, result⟩, run⟩ : ∃ out, writenLoop text (o.coming.length + 1) ⟨o, text.length, 0⟩ =
    out := ⟨_, rfl⟩
  obtain ⟨part, ends⟩ := writenLoop_partway start run
  have left := part.left
  have broken (more : 0 < s.nleft) : text.take s.bufp <+: text ∧
      (text.take s.bufp).length < text.length := by
    refine ⟨List.take_prefix _ _, ?_⟩
    rw [List.length_take]
    omega
  rw [Wrapper.rioWriten, ArmRunner.rioWriten, run]
  rcases ends with ⟨done, rfl⟩ | rfl | ⟨more, rfl⟩
  · refine Or.inl ⟨s.outlet, if_neg (not_not.mpr rfl), ?_⟩
    rw [part.taken, List.take_of_length_le (by omega)]
  · obtain ⟨more, last⟩ := writenLoop_waits (by simp) run
    obtain ⟨front, short⟩ := broken more
    exact Or.inr ⟨s.outlet, .waits, _, rfl, front, short, part.taken, fun _ => last⟩
  · obtain ⟨front, short⟩ := broken more
    refine Or.inr ⟨s.outlet, .exits, _, if_pos ?_, front, short, part.taken, by simp⟩
    omega

/-- A call that takes nothing is made again only because of a signal before it. -/
example : (rioWriten [1, 2, 3] ⟨[.failed .EINTR, .wrote 0, .wrote 5], .other, []⟩).2 = some 3 ∧
    (rioWriten [1, 2, 3] ⟨[.wrote 2, .wrote 0, .wrote 5], .other, []⟩).2 = some (-1) := by
  decide

theorem rioWriten_willing (text : List UInt8) (willing : o.Willing) :
    match Wrapper.rioWriten text o with
    | .ok o' => o'.Willing ∧ o.weight + o.taken.length ≤ o'.weight + o'.taken.length
    | .error (o', halt) => halt = .waits ∧
        o.weight + o.taken.length ≤ o'.weight + o'.taken.length := by
  have start : Partway text o.taken ⟨o, text.length, 0⟩ := ⟨by simp, by simp⟩
  obtain ⟨⟨s, result⟩, run⟩ : ∃ out, writenLoop text (o.coming.length + 1) ⟨o, text.length, 0⟩ =
    out := ⟨_, rfl⟩
  obtain ⟨-, ends⟩ := writenLoop_partway start run
  obtain ⟨kept, exits, weight⟩ := writenLoop_willing start willing run
  rw [Wrapper.rioWriten, ArmRunner.rioWriten, run]
  rcases ends with ⟨-, rfl⟩ | rfl | ⟨-, rfl⟩
  · simpa using ⟨kept, weight⟩
  · exact ⟨rfl, weight⟩
  · exact absurd rfl exits

/-- The texts arrive whole and in their order, but for a part of the one that is being written. -/
theorem writeAll_spec (texts : List (List UInt8)) (o : Outlet UInt8) :
    (∃ o', writeAll texts o = .ok o' ∧ o'.taken = o.taken ++ texts.flatten) ∨
      ∃ o' halt whole broken, writeAll texts o = .error (o', halt) ∧ Cut texts whole broken ∧
        o'.taken = o.taken ++ (whole.flatten ++ broken) ∧ (halt = .waits → o'.coming = []) := by
  induction texts generalizing o with
  | nil => exact Or.inl ⟨o, rfl, by simp⟩
  | cons text texts ih =>
    rw [writeAll, List.foldlM_cons]
    rcases rioWriten_spec text o with
      ⟨o1, first, taken⟩ | ⟨o1, halt, broken, first, front, short, taken, last⟩
    · rw [first]
      rcases ih o1 with ⟨o', rest, taken'⟩ | ⟨o', halt, whole, broken, rest, cut, taken', last⟩
      · exact Or.inl ⟨o', rest, by rw [taken', taken, List.flatten_cons, List.append_assoc]⟩
      · obtain ⟨next, behind, rfl, front, short⟩ := cut
        refine Or.inr ⟨o', halt, text :: whole, broken, rest, ⟨next, behind, rfl, front, short⟩,
          ?_, last⟩
        rw [taken', taken, List.flatten_cons]
        simp only [List.append_assoc]
    · rw [first]
      exact Or.inr ⟨o1, halt, [], broken, rfl, ⟨text, texts, rfl, front, short⟩, taken, last⟩

theorem writeAll_willing (texts : List (List UInt8)) (willing : o.Willing) :
    match writeAll texts o with
    | .ok _ => True
    | .error (o', halt) => halt = .waits ∧
        o.weight + o.taken.length ≤ o'.weight + o'.taken.length := by
  induction texts generalizing o with
  | nil => trivial
  | cons text texts ih =>
    have first := rioWriten_willing text willing
    rw [writeAll, List.foldlM_cons]
    generalize Wrapper.rioWriten text o = step at first ⊢
    cases step with
    | error halted => exact first
    | ok o1 =>
      obtain ⟨kept, weight⟩ := first
      have rest := ih kept
      rw [writeAll] at rest
      simp only [bind, Except.bind]
      generalize texts.foldlM (fun outlet text => Wrapper.rioWriten text outlet) o1 = out at rest ⊢
      cases out with
      | ok o' => trivial
      | error halted => exact ⟨rest.1, weight.trans rest.2⟩

theorem writeAll_returns (texts : List (List UInt8)) (willing : o.Willing)
    (enough : texts.flatten.length ≤ o.weight) : ∃ o', writeAll texts o = .ok o' := by
  rcases writeAll_spec texts o with
    ⟨o', run, -⟩ | ⟨o', halt, whole, broken, run, ⟨text, rest, rfl, -, short⟩, taken, last⟩
  · exact ⟨o', run⟩
  · have all := writeAll_willing (whole ++ text :: rest) willing
    rw [run] at all
    obtain ⟨waits, weight⟩ := all
    have none : o'.weight = 0 := by
      rw [Outlet.weight, last waits]
      rfl
    rw [taken, List.length_append, List.length_append] at weight
    rw [List.flatten_append, List.flatten_cons, List.length_append, List.length_append] at enough
    omega

end writen

/-- What a client writes: nothing, a single byte, or a packet. -/
inductive Message : List UInt8 → Prop
  | empty : Message []
  | ack : Message [0x2b]
  | retransmission : Message [0x2d]
  | packet (payload : List UInt8) (plain : Plain payload) : Message (frame payload)

/-- The text begins as a packet does. -/
def Framed (text : List UInt8) : Bool := text.head? == some 0x24

section packets

variable {text part rest : List UInt8} {texts whole : List (List UInt8)}

theorem packets_byte_cons {b : UInt8} (other : b ≠ 0x24) (rest : List UInt8) :
    packets (b :: rest) = packets rest := by
  have single : byteRule b ≠ .packet := by
    rw [byteRule]
    split_ifs <;> simp
  rw [packets, scan_byte_cons other, List.filter_cons_of_neg (by simpa using single), packets]

theorem packets_frame {payload : List UInt8} (plain : Plain payload) (rest : List UInt8) :
    packets (frame payload ++ rest) = frame payload :: packets rest := by
  rw [packets, (frame_token plain rest).1, List.filter_cons_of_pos (by rfl), packets]
  rfl

theorem packets_none (h : 0x24 ∉ text) : packets text = [] := by
  induction text with
  | nil => rfl
  | cons b bs ih =>
    rw [List.mem_cons, not_or] at h
    rw [packets_byte_cons (fun same => h.1 same.symm), ih h.2]

theorem Message.packets (h : Message text) (rest : List UInt8) :
    packets (text ++ rest) = (if Framed text then [text] else []) ++ packets rest := by
  cases h with
  | empty => rfl
  | ack => exact packets_byte_cons (by decide) rest
  | retransmission => exact packets_byte_cons (by decide) rest
  | packet payload plain => exact packets_frame plain rest

theorem frame_isPacket {payload : List UInt8} (plain : Plain payload) :
    IsPacket (frame payload) :=
  ⟨payload, _, _, plain, isHex_hexDigit (Nat.mod_lt _ (by omega)),
    isHex_hexDigit (Nat.mod_lt _ (by omega)), frame_eq_packetText payload⟩

/-- A message that breaks off is no packet, and there is none in it. -/
theorem Message.broken (h : Message text) (front : part <+: text)
    (short : part.length < text.length) : ArmRunner.packets part = [] := by
  cases h with
  | empty => simp at short
  | ack =>
    obtain rfl : part = [] := List.length_eq_zero_iff.mp (by simpa using short)
    rfl
  | retransmission =>
    obtain rfl : part = [] := List.length_eq_zero_iff.mp (by simpa using short)
    rfl
  | packet payload plain =>
    have opens := opens_dollar (frame payload) (firstMatch_ne_none.mpr (Or.inl (frame_isPacket plain)))
    cases part with
    | nil => rfl
    | cons b bs =>
      rw [frame_eq_packetText] at front short opens
      obtain ⟨rfl, behind⟩ := List.cons_prefix_cons.mp front
      have others : 0x24 ∉ bs := fun there => opens (behind.subset there)
      have single : ∀ w, w <+: 0x24 :: bs → ¬ IsPacket w := by
        rintro w hw ⟨q, d1, d2, hq, -, -, rfl⟩
        have same := packetText_unique (r := []) plain hq
          (by rw [List.append_nil]; exact hw.trans front)
        have length := hw.length_le
        rw [same] at length
        omega
      rw [ArmRunner.packets, scan, tokens_of_longest (longest_byte single) rfl,
        List.filter_cons_of_neg (by decide)]
      exact packets_none others

theorem packets_flatten (h : ∀ text ∈ texts, Message text) (rest : List UInt8) :
    packets (texts.flatten ++ rest) = texts.filter Framed ++ packets rest := by
  induction texts with
  | nil => rfl
  | cons text texts ih =>
    rw [List.flatten_cons, List.append_assoc, (h text (by simp)).packets,
      ih fun t ht => h t (by simp [ht]), List.filter_cons]
    split_ifs <;> simp

/-- The packets that are found are those that arrived whole. -/
theorem Cut.packets (h : Cut texts whole part) (messages : ∀ text ∈ texts, Message text) :
    packets (whole.flatten ++ part) = whole.filter Framed := by
  obtain ⟨text, rest, rfl, front, short⟩ := h
  rw [packets_flatten fun t ht => messages t (by simp [ht]),
    (messages text (by simp)).broken front short, List.append_nil]

end packets

section client

variable {stream : List UInt8} {c : Client}

/-- Between two requests, with only plain payloads framed so far. -/
structure Proper (stream : List UInt8) (c : Client) : Prop extends Idle stream c where
  plain : ∀ packet ∈ framedPackets c.history, ∃ payload, Plain payload ∧ packet = frame payload

theorem Request.Payloads.plain {target : Bool} {r : Request} {payloads : List (List UInt8)}
    (h : r.Payloads target payloads) : ∀ payload ∈ payloads, Plain payload := by
  intro payload there
  cases r with
  | writeRegister num value =>
    obtain rfl : payloads = _ := h
    rw [List.mem_singleton.mp there]
    exact plain_registerPayload target num value
  | writeMemory address memory size =>
    obtain ⟨writes, -, rfl⟩ := h
    obtain ⟨w, -, rfl⟩ := List.mem_map.mp there
    exact plain_memoryWrite w
  | cont =>
    obtain rfl : payloads = _ := h
    rw [List.mem_singleton.mp there]
    exact Plain.cons (by decide) plain_nil
  | step =>
    obtain rfl : payloads = _ := h
    rw [List.mem_singleton.mp there]
    exact Plain.cons (by decide) plain_nil

theorem forall₂_payloads_plain {target : Bool} {requests : List Request}
    {parts : List (List (List UInt8))}
    (h : List.Forall₂ (Request.Payloads target) requests parts) :
    ∀ payload ∈ parts.flatten, Plain payload := by
  induction h with
  | nil => simp
  | cons head tail ih =>
    intro payload there
    rw [List.flatten_cons] at there
    rcases List.mem_append.mp there with first | rest
    · exact head.plain payload first
    · exact ih payload rest

theorem requests_proper (host target : Bool) (packet : Nat → UInt8) (stream : List UInt8)
    (requests : List Request) : ∃ c parts,
      requests.foldlM (Client.perform host target) (Client.start packet stream) = some c ∧
      List.Forall₂ (Request.Payloads target) requests parts ∧ Proper stream c := by
  obtain ⟨c, parts, run, idle, sends, framed⟩ :=
    requests_idle host target (start_idle packet stream) requests
  refine ⟨c, parts, run, sends, idle, ?_⟩
  intro packet there
  rw [framed] at there
  obtain ⟨payload, found, rfl⟩ := List.mem_map.mp there
  exact ⟨payload, forall₂_payloads_plain sends payload found, rfl⟩

/-- Every text that is written answers an event. -/
theorem Proper.message (h : Proper stream c) {text : List UInt8}
    (there : text ∈ c.data.gdb.transmitted) : Message text := by
  rw [h.writes] at there
  obtain ⟨e, he, ht⟩ := List.mem_flatMap.mp there
  obtain ⟨before, after, split⟩ := List.append_of_mem he
  have framed : ∀ packet ∈ framedPackets before ++ e.framed?.toList, Message packet := by
    intro packet hp
    obtain ⟨payload, plain, rfl⟩ := h.plain packet (by
      rw [split, ← List.singleton_append, ← List.append_assoc, framedPackets,
        List.filterMap_append, ← framedPackets, framedPackets_concat]
      exact List.mem_append_left _ hp)
    exact .packet payload plain
  have garbage : ∀ text ∈ garbageRequest before, Message text := by
    intro text hd
    rw [garbageRequest] at hd
    split_ifs at hd
    · rw [List.mem_singleton.mp hd]
      exact .retransmission
    · simp at hd
  have last : Message ((framedPackets before).getLastD []) := by
    rcases List.eq_nil_or_concat (framedPackets before) with none | ⟨ps, p, some⟩
    · rw [none]
      exact .empty
    · rw [some, List.concat_eq_append, List.getLastD_concat]
      exact framed p (by simp [some])
  have answers := h.each before e after split
  obtain ⟨cause, writes⟩ := e
  cases cause with
  | framed packet =>
    rw [answers.1, List.mem_singleton] at ht
    rw [ht]
    exact framed packet (by simp [Event.framed?])
  | ended =>
    rw [answers.1] at ht
    exact garbage text ht
  | token t =>
    obtain ⟨rule, token⟩ := t
    cases rule with
    | ack =>
      rw [show writes = _ from answers] at ht
      exact garbage text ht
    | retransmission =>
      rw [show writes = _ from answers] at ht
      rcases List.mem_append.mp ht with dash | again
      · exact garbage text dash
      · rw [List.mem_singleton.mp again]
        exact last
    | packet =>
      rw [show writes = _ from answers] at ht
      rcases List.mem_append.mp ht with dash | answer
      · exact garbage text dash
      · rw [List.mem_singleton.mp answer]
        split_ifs
        · exact .ack
        · exact .retransmission
    | character =>
      rcases answers with none | dash
      · rw [show writes = _ from none] at ht
        simp at ht
      · rw [show writes = _ from dash, List.mem_singleton] at ht
        rw [ht]
        exact .retransmission
    | echo =>
      rw [show writes = _ from answers] at ht
      simp at ht

/-- Whatever the calls of `write` give, what the simulator receives of a run of requests is some of
the texts and a part of the next one, and the packets that it finds are those that were sent whole.
When nothing but signals gets in the way the client does not exit, and with enough calls it sends
everything. -/
theorem requests_written (host target : Bool) (packet : Nat → UInt8) (stream : List UInt8)
    (requests : List { r : Request // r.Fits }) (results : List WriteResult) (errno : Errno) : ∃ c,
      (requests.map Subtype.val).foldlM (Client.perform host target)
        (Client.start packet stream) = some c ∧
      let texts := c.data.gdb.transmitted
      let run := writeAll texts ⟨results, errno, []⟩
      ((∃ o, run = .ok o ∧ o.taken = texts.flatten ∧ packets o.taken = texts.filter Framed) ∨
        ∃ o halt whole part, run = .error (o, halt) ∧ Cut texts whole part ∧
          o.taken = whole.flatten ++ part ∧ packets o.taken = whole.filter Framed) ∧
      (∀ text ∈ texts, Framed text = true → Accepted text) ∧
      ((∀ result ∈ results, result.Willing) →
        (∀ o, run ≠ .error (o, .exits)) ∧
        (texts.flatten.length ≤ (results.map WriteResult.weight).sum → ∃ o, run = .ok o)) := by
  obtain ⟨c, -, done, -, proper⟩ :=
    requests_proper host target packet stream (requests.map Subtype.val)
  refine ⟨c, done, ?_⟩
  intro texts run
  have messages : ∀ text ∈ texts, Message text := fun text there => proper.message there
  refine ⟨?_, ?_, ?_⟩
  · rcases writeAll_spec texts ⟨results, errno, []⟩ with
      ⟨o, all, taken⟩ | ⟨o, halt, whole, part, halted, cut, taken, -⟩
    · refine Or.inl ⟨o, all, taken, ?_⟩
      have found := packets_flatten messages []
      rw [List.append_nil] at found
      rw [taken, List.nil_append, found]
      exact List.append_nil _
    · exact Or.inr ⟨o, halt, whole, part, halted, cut, taken, by
        rw [taken, List.nil_append, cut.packets messages]⟩
  · intro text there framed
    cases messages text there with
    | empty => cases framed
    | ack => cases framed
    | retransmission => cases framed
    | packet payload plain => exact frame_accepted plain
  · intro willing
    refine ⟨?_, @writeAll_returns ⟨results, errno, []⟩ texts willing⟩
    intro o exits
    have all := @writeAll_willing ⟨results, errno, []⟩ texts willing
    rw [show writeAll texts _ = _ from exits] at all
    cases all.1

end client

end ArmRunner
