import SockTestProgram.Socket.ReadChain

/-!
# Framing round trip

A session that reads the bytes written for a list of messages delivers the messages, however the
bytes are cut into chunks and whichever way the reads advance.  The invariant `Expects` says that
the bytes of the frame that is being read, the bytes that arrived and the ones still to arrive are
the frames of the messages still to deliver.
-/

open Memory Word Lts

namespace SockTestProgram

variable {P : Platform}

namespace Event

/-- An event of an undisturbed reader: bytes arrive, a read advances, a read handler runs. -/
def IsRead : Event → Prop
  | .arrive _ | .readSome _ _ | .runRead _ => True
  | _ => False

/-- An event of an undisturbed reader that needs no more bytes to arrive. -/
def IsInternal : Event → Prop
  | .readSome _ _ | .runRead _ => True
  | _ => False

instance : DecidablePred IsRead
  | .arrive _ | .readSome _ _ | .runRead _ => isTrue trivial
  | .connectDone _ | .readFail _ | .writeSome _ _ | .writeFail _ | .runWrite _ | .runClosed
  | .callWrite _ _ | .callClose => isFalse id

theorem IsInternal.isRead {e : Event} (h : e.IsInternal) : e.IsRead := by
  cases e <;> first | exact h | trivial

/-- The bytes that arrive in an event. -/
def arrived : Event → Bytes
  | .arrive chunk => chunk
  | _ => []

theorem IsInternal.arrived_eq {e : Event} (h : e.IsInternal) : e.arrived = [] := by
  cases e <;> first | rfl | exact h.elim

end Event

/-- The bytes that arrive in a run. -/
def arrived (es : List Event) : Bytes := es.flatMap Event.arrived

/-- The buffers that an effect list hands to `async_write`. -/
def Effect.written : Effect → Bytes
  | .asyncWrite buffer => buffer
  | _ => []

/-- What a session writes for a message. -/
def SockSession.sentFor (s : SockSession) (m : Message P) : Bytes :=
  (s.write P m.typeCode m.payload (BitVec.ofNat 32 m.payload.length)).2.flatMap Effect.written

/-- What a session writes for a list of messages. -/
def SockSession.sent (s : SockSession) (msgs : List (Message P)) : Bytes := msgs.flatMap s.sentFor

theorem sent_eq (s : SockSession) (msgs : List (Message P)) :
    s.sent msgs = msgs.flatMap Message.frame := by
  have h (m : Message P) : s.sentFor m = m.frame := by
    simp [SockSession.sentFor, SockSession.write, writeBuffer_eq, Effect.written]
  exact congrArg (msgs.flatMap ·) (funext h)

namespace Connection

variable {c c' : Connection} {future : Bytes} {todo : List (Message P)}

/-- The connection is about to read the frames of `todo`, and nothing else, from the bytes it has
and the bytes `future`. -/
inductive Expects (c : Connection) (future : Bytes) : List (Message P) → Prop
  | head {todo : List (Message P)} (got : Bytes) (finished : Option Bool) :
      c.reads = [⟨.read .head 4 got, finished⟩] → finished ≠ some true →
      got ++ c.inbox ++ future = todo.flatMap Message.frame → Expects c future todo
  | body {m : Message P} {todo : List (Message P)} (got : Bytes) (finished : Option Bool) :
      c.reads = [⟨.read .body (m.payload.length + 4) got, finished⟩] → finished ≠ some true →
      got ++ c.inbox ++ future = m.body ++ todo.flatMap Message.frame → Expects c future (m :: todo)

/-- The socket is in use and no exception has been thrown. -/
structure Healthy (c : Connection) : Prop where
  chain : c.Chain
  isOpen : c.isOpen = true
  connected : c.connected = true
  escaped : c.escaped = false

/-! ## The two read handlers -/

/-- Four bytes at the front of a frame are its header. -/
theorem eq_cons_of_frames {got rest : Bytes} (h4 : got.length = 4)
    (h : got ++ rest = todo.flatMap Message.frame) :
    ∃ m todo', todo = m :: todo' ∧ got = bytesBE m.header ∧
      rest = m.body ++ todo'.flatMap Message.frame := by
  cases todo with
  | nil =>
    have := congrArg List.length h
    simp [h4] at this
  | cons m todo' =>
    rw [List.flatMap_cons, Message.frame, List.append_assoc] at h
    obtain ⟨hgot, hrest⟩ := List.append_inj h (by simp [h4])
    exact ⟨m, todo', rfl, hgot, hrest⟩

theorem fill_head (s : SockSession) (size : ℕ) (got : Bytes) :
    (s.fill (.read .head size got)).headLength = got ++ s.headLength.drop got.length :=
  store_zero _ _

/-- The header of a message makes the session ask for the type code and the payload. -/
theorem bodySize_fill (hP : P.order = .little) (s : SockSession) (size : ℕ) (m : Message P) :
    ((s.fill (.read .head size (bytesBE m.header))).bodySize P).toInt = m.payload.length + 4 := by
  have hlt := m.length_lt
  have hlen : (s.fill (.read .head size (bytesBE m.header))).headerLength P = m.header := by
    rw [SockSession.headerLength, fill_head, hP, readInt32_view_bytesBE]
  have hsub : m.header - 4 - P.headerLengthFix = BitVec.ofNat 32 (m.payload.length + 4) := by
    rw [Message.header, BitVec.ofNat_add, show BitVec.ofNat 32 4 = 4 from rfl]
    ring
  rw [SockSession.bodySize, hlen, hsub, toInt_ofNat_of_lt (by omega)]
  rfl

/-- The body of a message is taken apart into its type code and its payload. -/
theorem body_fill (hP : P.order = .little) (s : SockSession) (size : ℕ) (m : Message P)
    (hb : s.buffer.length = m.payload.length + 4) :
    (s.fill (.read .body size m.body)).bodyTypecode P = m.typeCode ∧
      (s.fill (.read .body size m.body)).bodyPayload P = m.payload := by
  have hfill : s.fill (.read .body size m.body) = { s with buffer := m.body } := by
    rw [SockSession.fill, store_zero, List.drop_of_length_le (by simp [hb]), List.append_nil]
  rw [hfill]
  constructor
  · rw [SockSession.bodyTypecode, hP]
    exact readInt32_view_bytesBE _ _ _ _
  · simp only [SockSession.bodyPayload, Message.length_body]
    split_ifs with hlong
    · rw [P.heap.load_eq_slice (by simp; omega), Nat.add_sub_cancel]
      rw [slice, Message.body, List.drop_left' (length_bytesBE _), List.take_length]
    · exact (List.length_eq_zero_iff.1 (by omega)).symm

/-! ## One event -/

theorem Expects.arrive {chunk : Bytes} (h : c.Expects (chunk ++ future) todo) :
    Expects { c with inbox := c.inbox ++ chunk } future todo := by
  cases h with
  | head got finished hr hf heq =>
    exact .head got finished hr hf (by simpa [List.append_assoc] using heq)
  | body got finished hr hf heq =>
    exact .body got finished hr hf (by simpa [List.append_assoc] using heq)

/-- A read that advances takes its bytes from the inbox. -/
theorem Expects.readSome {target : Target} {size : ℕ} {got : Bytes}
    (hr : c.reads = [⟨.read target size got, none⟩]) (h : c.Expects future todo) (k : ℕ) :
    Expects { c with
      inbox := c.inbox.drop k
      reads := [⟨.read target size (got ++ c.inbox.take k),
        if got.length + k = size then some false else none⟩] } future todo := by
  have hmove : got ++ c.inbox.take k ++ c.inbox.drop k = got ++ c.inbox := by
    rw [List.append_assoc, List.take_append_drop]
  have hfin : (if got.length + k = size then some false else none) ≠ some true := by
    split_ifs <;> simp
  cases h with
  | head got' finished hr' hf heq =>
    obtain ⟨⟨rfl, rfl, rfl⟩, rfl⟩ : (target = .head ∧ size = 4 ∧ got = got') ∧ none = finished := by
      simpa using hr.symm.trans hr'
    exact .head (got ++ c.inbox.take k) _ rfl hfin (by simpa only [hmove] using heq)
  | body got' finished hr' hf heq =>
    obtain ⟨⟨rfl, rfl, rfl⟩, rfl⟩ :
        (target = .body ∧ size = _ ∧ got = got') ∧ none = finished := by
      simpa using hr.symm.trans hr'
    exact .body (got ++ c.inbox.take k) _ rfl hfin (by simpa only [hmove] using heq)

/-- The handler of a finished header starts the read of the body of the frame. -/
theorem Handled.expects_body (hP : P.order = .little) {s : SockSession} {m : Message P}
    (hhandled : Handled P c (s.fill (.read .head 4 (bytesBE m.header)))
      (.read .head 4 (bytesBE m.header)) false c') (hreads : c.reads = []) (hopen : c.isOpen = true)
    (hrest : c.inbox ++ future = m.body ++ todo.flatMap Message.frame) :
    c'.escaped = c.escaped ∧ c'.upcalls = c.upcalls ∧ c'.Expects future (m :: todo) := by
  have hlt := m.length_lt
  have hsize : sizeT ((s.fill (.read .head 4 (bytesBE m.header))).bodySize P).toInt =
      m.payload.length + 4 := by
    rw [bodySize_fill hP]
    exact sizeT_natCast (n := m.payload.length + 4) (by omega)
  cases hhandled with
  | header =>
    refine ⟨rfl, rfl,
      .body [] (c.begun (m.payload.length + 4)) (by simp [startRead, begun, hreads, hsize]) ?_ ?_⟩
    · simp [begun, hopen]
    · simpa [startRead] using hrest
  | thrown h =>
    rw [hsize] at h
    simp only [maxSize] at h
    omega

/-- The handler of a finished body delivers the message and starts the read of a header. -/
theorem Handled.expects_head (hP : P.order = .little) {s : SockSession} {m : Message P}
    (hbuffer : s.buffer.length = m.payload.length + 4)
    (hhandled : Handled P c (s.fill (.read .body (m.payload.length + 4) m.body))
      (.read .body (m.payload.length + 4) m.body) false c') (hreads : c.reads = [])
    (hopen : c.isOpen = true) (hrest : c.inbox ++ future = todo.flatMap Message.frame) :
    c'.escaped = c.escaped ∧ c'.upcalls = c.upcalls ++ [m.upcall] ∧ c'.Expects future todo := by
  obtain ⟨htype, hpayload⟩ := body_fill hP s (m.payload.length + 4) m hbuffer
  cases hhandled
  refine ⟨rfl, ?_, .head [] (c.begun 4) (by simp [startRead, begun, hreads]) ?_ ?_⟩
  · simp [startRead, htype, hpayload, Message.upcall]
  · simp [begun, hopen]
  · simpa [startRead] using hrest

/-- What an undisturbed reader does in one event: it delivers the messages `done`, none or one, and
expects the rest. -/
theorem Expects.step (hP : P.order = .little) {e : Event} (hc : c.Healthy)
    (h : c.Expects (e.arrived ++ future) todo) (he : e.IsRead) (hs : c.step P e = some c') :
    c'.Healthy ∧ ∃ done todo', todo = done ++ todo' ∧
      c'.upcalls = c.upcalls ++ done.map Message.upcall ∧ c'.Expects future todo' := by
  have hchain := chain_step hc.chain hs
  have hstep := hs
  obtain ⟨-, hs⟩ := step_eq_some_iff.1 hs
  cases e with
  | arrive chunk =>
    obtain ⟨-, -, rfl⟩ := hs
    exact ⟨⟨hchain, hc.isOpen, hc.connected, hc.escaped⟩, [], todo, rfl, by simp, h.arrive⟩
  | readSome i k =>
    obtain ⟨target, size, got, hi, -, rfl⟩ := hs
    obtain ⟨rfl, hr, -⟩ := hc.chain.eq_singleton hi
    refine ⟨⟨hchain, hc.isOpen, hc.connected, hc.escaped⟩, [], todo, rfl, by simp, ?_⟩
    have hset (p : Outstanding ReadOp) : c.reads.set 0 p = [p] := by rw [hr, List.set_cons_zero]
    rw [hset]
    exact h.readSome hr k
  | runRead i =>
    obtain ⟨op, error, hi, hhandled⟩ := handled_of_step hstep
    obtain ⟨rfl, hr, hok⟩ := hc.chain.eq_singleton hi
    obtain ⟨⟨hopen, hconn, -⟩, -⟩ := hhandled.frame
    have hnil : c.reads.eraseIdx 0 = [] := by simp [hr]
    cases h with
    | head got finished hr' hf heq =>
      obtain ⟨rfl, rfl⟩ : op = .read .head 4 got ∧ some error = finished := by
        simpa using hr.symm.trans hr'
      obtain rfl : error = false := by simpa using hf
      have h4 : got.length = 4 := hok.2.2.2 rfl
      rw [List.append_assoc] at heq
      obtain ⟨m, todo', rfl, rfl, hrest⟩ := eq_cons_of_frames h4 heq
      obtain ⟨hescaped, hup, hexpects⟩ := hhandled.expects_body hP hnil hc.isOpen hrest
      exact ⟨⟨hchain, hopen.trans hc.isOpen, hconn.trans hc.connected, hescaped.trans hc.escaped⟩,
        [], m :: todo', rfl, by simp [hup], hexpects⟩
    | @body m todo' got finished hr' hf heq =>
      obtain ⟨rfl, rfl⟩ : op = .read .body (m.payload.length + 4) got ∧ some error = finished := by
        simpa using hr.symm.trans hr'
      obtain rfl : error = false := by simpa using hf
      have hlen : got.length = m.payload.length + 4 := hok.2.2.2 rfl
      rw [List.append_assoc] at heq
      obtain ⟨rfl, hrest⟩ := List.append_inj heq (by simp [hlen])
      obtain ⟨hescaped, hup, hexpects⟩ :=
        hhandled.expects_head hP hok.1.symm hnil hc.isOpen hrest
      exact ⟨⟨hchain, hopen.trans hc.isOpen, hconn.trans hc.connected, hescaped.trans hc.escaped⟩,
        [m], todo', rfl, by simp [hup], hexpects⟩
  | _ => exact he.elim

/-- What an undisturbed reader does in a run: it delivers some messages and expects the rest. -/
theorem Expects.run (hP : P.order = .little) {es : List Event} (hc : c.Healthy)
    (h : c.Expects (SockTestProgram.arrived es ++ future) todo) (he : ∀ e ∈ es, e.IsRead)
    (hs : Lts.run (Connection.step P) c es = some c') :
    c'.Healthy ∧ ∃ done todo', todo = done ++ todo' ∧
      c'.upcalls = c.upcalls ++ done.map Message.upcall ∧ c'.Expects future todo' := by
  induction es generalizing c todo with
  | nil =>
    obtain rfl := Option.some.inj hs
    exact ⟨hc, [], todo, rfl, by simp, h⟩
  | cons e es ih =>
    obtain ⟨m, hm, hrest⟩ := run_cons_eq_some_iff.1 hs
    rw [SockTestProgram.arrived, List.flatMap_cons, List.append_assoc] at h
    obtain ⟨hc₁, done₁, todo₁, rfl, hup₁, h₁⟩ := h.step hP hc (he e (by simp)) hm
    obtain ⟨hc₂, done₂, todo₂, rfl, hup₂, h₂⟩ := ih hc₁ h₁ (fun f hf => he f (by simp [hf])) hrest
    exact ⟨hc₂, done₁ ++ done₂, todo₂, by simp, by simp [hup₁, hup₂], h₂⟩

/-! ## The reader comes to rest -/

/-- No read can advance and no read handler can run. -/
def Quiet (P : Platform) (c : Connection) : Prop := ∀ e : Event, e.IsInternal → c.step P e = none

/-- All messages are delivered, and the session waits for a header of which no byte arrived. -/
structure Delivered (c : Connection) (msgs : List (Message P)) : Prop where
  upcalls : c.upcalls = msgs.map Message.upcall
  reads : c.reads = [⟨.read .head 4 [], none⟩]
  inbox : c.inbox = []
  escaped : c.escaped = false

/-- How many handlers may run, starting with that of a finished operation, before a read lacks bytes
again. -/
def handlers : ReadOp → ℕ
  | .connect => 0
  | .read .head _ _ => 2
  | .read .body _ _ => 1

def weight (p : Outstanding ReadOp) : ℕ := if p.finished = none then 0 else handlers p.op

theorem weight_le (p : Outstanding ReadOp) : weight p ≤ handlers p.op := by
  unfold weight
  split_ifs
  · exact Nat.zero_le _
  · exact le_rfl

/-- A bound on the number of internal events that a reader can perform. -/
def work (c : Connection) : ℕ := 3 * c.inbox.length + (c.reads.map weight).sum

/-- The handler of a read that finished with success starts a read that lacks bytes, or the handler
of a header starts one of no bytes at all. -/
theorem Handled.work_lt {s : SockSession} {target : Target} {size : ℕ} {got : Bytes}
    (h : Handled P c s (.read target size got) false c') (hr : c.reads = [])
    (ho : c.isOpen = true) :
    c'.work < 3 * c.inbox.length + weight ⟨.read target size got, some false⟩ := by
  cases h with
  | header =>
    have hle := weight_le ⟨.read .body (sizeT (s.bodySize P).toInt) [],
      c.begun (sizeT (s.bodySize P).toInt)⟩
    simp only [work, startRead, hr, List.nil_append, List.map_cons, List.map_nil, List.sum_cons,
      List.sum_nil]
    exact Nat.add_lt_add_left (Nat.lt_succ_of_le hle) _
  | thrown => simp [work, hr, weight, handlers]
  | body => simp [work, startRead, hr, begun, ho, weight, handlers]

theorem Expects.work_lt {e : Event} (hc : c.Healthy) (h : c.Expects future todo)
    (he : e.IsInternal) (hs : c.step P e = some c') : c'.work < c.work := by
  cases e with
  | readSome i k =>
    obtain ⟨-, target, size, got, hi, ⟨-, hk, hin, -⟩, rfl⟩ := step_eq_some_iff.1 hs
    obtain ⟨rfl, hr, -⟩ := hc.chain.eq_singleton hi
    have hle (f : Option Bool) (g : Bytes) : weight ⟨.read target size g, f⟩ ≤ 2 := by
      refine (weight_le _).trans ?_
      cases target <;> simp [handlers]
    have h₁ := hle (if got.length + k = size then some false else none) (got ++ c.inbox.take k)
    simp only [work, hr, List.set_cons_zero, List.map_cons, List.map_nil, List.sum_cons,
      List.sum_nil, List.length_drop]
    omega
  | runRead i =>
    obtain ⟨op, error, hi, hhandled⟩ := handled_of_step hs
    obtain ⟨rfl, hr, -⟩ := hc.chain.eq_singleton hi
    obtain ⟨target, size, got, rfl, rfl⟩ :
        ∃ target size got, op = .read target size got ∧ error = false := by
      cases h with
      | head got finished hr' hf _ | body got finished hr' hf _ =>
        have hp := List.singleton_inj.1 (hr.symm.trans hr')
        obtain ⟨rfl, rfl⟩ := Outstanding.mk.injEq .. ▸ hp
        exact ⟨_, _, _, rfl, by simpa using hf⟩
    refine lt_of_lt_of_eq (hhandled.work_lt (by simp [hr]) hc.isOpen) ?_
    simp only [work, hr, List.map_cons, List.map_nil, List.sum_cons, List.sum_nil]
    rfl
  | _ => exact he.elim

/-- A reader that has all the bytes and is at rest has delivered everything. -/
theorem Expects.delivered_of_quiet (hc : c.Healthy) (h : c.Expects [] todo) (hq : c.Quiet P) :
    todo = [] ∧ c.reads = [⟨.read .head 4 [], none⟩] ∧ c.inbox = [] := by
  -- a finished read has a handler to run
  have hnone {op : ReadOp} {finished : Option Bool} (hr : c.reads = [⟨op, finished⟩]) :
      finished = none := by
    cases finished with
    | none => rfl
    | some error =>
      have := hq (.runRead 0) trivial
      simp [Connection.step, hc.escaped, act, hr] at this
  -- a read in progress can take a byte from the inbox
  have hempty {target : Target} {size : ℕ} {got : Bytes}
      (hr : c.reads = [⟨.read target size got, none⟩]) : got.length < size ∧ c.inbox = [] := by
    obtain ⟨-, -, hok⟩ := hc.chain.eq_singleton (i := 0) (p := ⟨.read target size got, none⟩)
      (by simp [hr])
    have hlt := hok.2.2.1 rfl
    refine ⟨hlt, ?_⟩
    by_contra hne
    have hpos : 1 ≤ c.inbox.length := List.length_pos_iff.2 hne
    have hstep : ∃ c', Stepped P c c' (.readSome 0 1) :=
      ⟨_, target, size, got, by simp [hr], ⟨hc.connected, one_pos, hpos, hlt⟩, rfl⟩
    obtain ⟨c', hstep⟩ := hstep
    exact absurd (hq (.readSome 0 1) trivial) (by simp [step_eq_some_iff.2 ⟨hc.escaped, hstep⟩])
  cases h with
  | head got finished hr hf heq =>
    obtain rfl := hnone hr
    obtain ⟨hlt, hin⟩ := hempty hr
    rw [hin, List.append_nil, List.append_nil] at heq
    cases todo with
    | nil =>
      obtain rfl : got = [] := heq
      exact ⟨rfl, hr, hin⟩
    | cons m todo =>
      have := congrArg List.length heq
      simp only [List.flatMap_cons, List.length_append, m.length_frame] at this
      omega
  | @body m todo got finished hr hf heq =>
    obtain rfl := hnone hr
    obtain ⟨hlt, hin⟩ := hempty hr
    have := congrArg List.length heq
    simp only [hin, List.length_append, List.length_nil, m.length_body] at this
    omega

theorem expects_reading (s : SockSession) (todo : List (Message P)) :
    (reading s).Expects (todo.flatMap Message.frame) todo :=
  .head [] none rfl (by simp) rfl

theorem healthy_reading (s : SockSession) : (reading s).Healthy :=
  ⟨chain_reading s, rfl, rfl, rfl⟩

/-- **Framing round trip.**  Let a session that starts to read get any part of what `write` sends
for the messages, in any chunks.  Then it has delivered the first of the messages, in order and
exactly.  When everything has arrived, a bounded number of events brings the session to rest, and at
rest it has delivered all the messages and waits for a header with no byte left over. -/
theorem framing_round_trip (hP : P.order = .little) (w s : SockSession) (msgs : List (Message P))
    (es : List Event) (hes : ∀ e ∈ es, e.IsRead) (harr : arrived es <+: w.sent msgs)
    (hrun : Lts.run (step P) (reading s) es = some c) :
    c.upcalls <+: msgs.map Message.upcall ∧
      (arrived es = w.sent msgs →
        (c.Quiet P → c.Delivered msgs) ∧
        (∀ fs c', (∀ e ∈ fs, e.IsInternal) → Lts.run (step P) c fs = some c' →
          fs.length ≤ c.work) ∧
        ∃ fs c', (∀ e ∈ fs, e.IsInternal) ∧ Lts.run (step P) c fs = some c' ∧ c'.Quiet P ∧
          c'.Delivered msgs) := by
  obtain ⟨rest, hrest⟩ := harr
  rw [sent_eq] at hrest ⊢
  obtain ⟨hc, done, todo, rfl, hup, h⟩ :=
    (hrest ▸ expects_reading s msgs).run hP (healthy_reading s) hes hrun
  have hup : c.upcalls = done.map Message.upcall := hup
  refine ⟨hup ▸ by simp, fun hall => ?_⟩
  obtain rfl : rest = [] := by simpa [hall] using hrest
  -- nothing is left to deliver once the reader is at rest
  have hdelivered {c' : Connection} {done todo' : List (Message P)} (hc' : c'.Healthy)
      (h' : c'.Expects [] todo') (hup' : c'.upcalls = done.map Message.upcall)
      (hq : c'.Quiet P) : c'.Delivered (done ++ todo') := by
    obtain ⟨rfl, hr, hin⟩ := h'.delivered_of_quiet hc' hq
    exact ⟨by rw [List.append_nil, hup'], hr, hin, hc'.escaped⟩
  have hinternal : ∀ d e d', (d.Healthy ∧ ∃ t : List (Message P), d.Expects [] t) →
      Event.IsInternal e → step P d e = some d' →
      (d'.Healthy ∧ ∃ t : List (Message P), d'.Expects [] t) ∧ d'.work < d.work := by
    rintro d e d' ⟨hd, t, ht⟩ he hd'
    have hnext : d.Expects (e.arrived ++ []) t := by simpa [he.arrived_eq] using ht
    obtain ⟨hd₁, -, t', -, -, ht'⟩ := hnext.step hP hd he.isRead hd'
    exact ⟨⟨hd₁, t', ht'⟩, ht.work_lt hd he hd'⟩
  refine ⟨hdelivered hc h hup, fun fs c' hfs hrun' => ?_, ?_⟩
  · have := run_length_le work hinternal hrun' ⟨hc, todo, h⟩ hfs
    omega
  · obtain ⟨fs, c', hfs, hrun', hq⟩ := exists_maximal_run work hinternal ⟨hc, todo, h⟩
    have harrived : arrived fs = [] := by
      simpa [arrived, List.flatMap_eq_nil_iff] using fun e he => (hfs e he).arrived_eq
    have hnext : c.Expects (arrived fs ++ []) todo := by rwa [harrived]
    obtain ⟨hc', done', todo', rfl, hup', h'⟩ :=
      hnext.run hP hc (fun e he => (hfs e he).isRead) hrun'
    refine ⟨fs, c', hfs, hrun', hq, ?_⟩
    rw [← List.append_assoc]
    exact hdelivered hc' h' (by rw [hup', hup, List.map_append]) hq

/-- Two messages, the second without payload, cut inside the first header and inside the second. -/
theorem framing_round_trip_two :
    let P : Platform := ⟨Heap.const 0, .little, headerLengthFix⟩
    let s := SockSession.create P "" "" ""
    let msgs : List (Message P) := [⟨7, [1, 2], by decide⟩, ⟨-1, [], by decide⟩]
    ∃ c, Lts.run (step P) (reading s)
        [.arrive [0, 0, 0], .readSome 0 2, .arrive [6, 0, 0, 0, 7, 1, 2, 0], .readSome 0 2,
          .runRead 0, .readSome 0 6, .runRead 0, .arrive [0, 0, 4, 255, 255, 255, 255]] = some c ∧
      ∃ fs c', (∀ e ∈ fs, e.IsInternal) ∧ Lts.run (step P) c fs = some c' ∧ c'.Quiet P ∧
        c'.Delivered msgs := by
  intro P s msgs
  obtain ⟨c, hrun⟩ : ∃ c, Lts.run (step P) (reading s)
      [.arrive [0, 0, 0], .readSome 0 2, .arrive [6, 0, 0, 0, 7, 1, 2, 0], .readSome 0 2,
        .runRead 0, .readSome 0 6, .runRead 0, .arrive [0, 0, 4, 255, 255, 255, 255]] = some c :=
    Option.isSome_iff_exists.1 (by decide +kernel)
  exact ⟨c, hrun, ((framing_round_trip rfl s s msgs _ (by decide) (by decide +kernel) hrun).2
    (by decide +kernel)).2.2⟩

end Connection

end SockTestProgram
