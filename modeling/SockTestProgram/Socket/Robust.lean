import SockTestProgram.Socket.Flags
import SockTestProgram.Socket.RoundTrip

/-!
# The reader against an arbitrary peer

The length of a body comes from the peer.  `handle_headerRead` hands it to `buffer_.resize` without
a look at its sign, and `handle_bodyRead` reads a type code of four bytes whatever the size of
`buffer_`.  Both are safe exactly as long as every header is, as a signed integer, at least 4
(`reader_safe_iff`).
-/

open Memory Word Lts

namespace SockTestProgram

variable {P : Platform}

/-- The `int` that a host reads from the four bytes of a header. -/
def headerInt (o : ByteOrder) (bytes : Bytes) : ℤ :=
  (networkToHostLong o
    (ofBytes (bytes.getD 3 0) (bytes.getD 2 0) (bytes.getD 1 0) (bytes.getD 0 0))).toInt

/-- On a little-endian host the header is a signed big-endian integer. -/
theorem headerInt_little (a b c d : UInt8) :
    headerInt .little [a, b, c, d] = (ofBytes a b c d).toInt :=
  congrArg BitVec.toInt (byteSwap_ofBytes a b c d)

namespace Effect

/-- A harmless effect of the handler of a read that received the given bytes: a size is not
negative, nothing is thrown, and no byte is read that was not received. -/
def Safe (received : Bytes) : Effect → Prop
  | .resize size => 0 ≤ size
  | .load offset length => offset + length ≤ received.length
  | .throw => False
  | _ => True

def IsCallback : Effect → Prop
  | .callback _ _ => True
  | _ => False

instance (received : Bytes) : DecidablePred (Safe received)
  | .resize size => inferInstanceAs (Decidable (0 ≤ size))
  | .load offset length => inferInstanceAs (Decidable (offset + length ≤ received.length))
  | .throw => isFalse id
  | .asyncConnect _ _ | .asyncReadHead | .asyncReadBody _ | .asyncWrite _ | .postClosed
  | .socketClose | .callback _ _ | .onConnected _ => isTrue trivial

instance : DecidablePred IsCallback
  | .callback _ _ => isTrue trivial
  | .resize _ | .load _ _ | .throw | .asyncConnect _ _ | .asyncReadHead | .asyncReadBody _
  | .asyncWrite _ | .postClosed | .socketClose | .onConnected _ => isFalse id

end Effect

namespace ReadOp

/-- The bytes that an operation received. -/
def received : ReadOp → Bytes
  | .connect => []
  | .read _ _ got => got

/-- A header that cannot be the size of a body with a type code. -/
def TooShort (o : ByteOrder) : ReadOp → Prop
  | .read .head _ got => headerInt o got < 4
  | _ => False

instance (o : ByteOrder) : DecidablePred (TooShort o)
  | .read .head _ got => inferInstanceAs (Decidable (headerInt o got < 4))
  | .read .body _ _ | .connect => isFalse id

end ReadOp

/-- What the handler of a read may do: its effects are harmless, and a header that is too short
makes the session failed instead of reaching Lua. -/
def HandlerSafe (o : ByteOrder) (op : ReadOp) (error : Bool)
    (r : SockSession × List Effect) : Prop :=
  (∀ e ∈ r.2, e.Safe op.received) ∧
    (error = false → op.TooShort o → r.1.isSocketFailed = true ∧ ∀ e ∈ r.2, ¬ e.IsCallback)

instance (o : ByteOrder) (op : ReadOp) (error : Bool) (r : SockSession × List Effect) :
    Decidable (HandlerSafe o op error r) := inferInstanceAs (Decidable (_ ∧ _))

namespace Connection

variable {c c' : Connection}

/-! ## Safety of a step -/

/-- No completion handler that runs in the event does harm. -/
def StepSafe (P : Platform) (c : Connection) : Event → Prop
  | .runRead i => ∀ p ∈ c.reads[i]?, ∀ error ∈ p.finished,
    HandlerSafe P.order p.op error ((c.session.fill p.op).handle P p.op error)
  | .runWrite i => ∀ w ∈ c.writes[i]?, ∀ error ∈ w.finished,
    Effect.throw ∉ (c.session.handleWritten error).2
  | .runClosed => Effect.throw ∉ c.session.handleClosed.2
  | _ => True

/-- If the event is a received header being handled, it is the size of a body with a type code. -/
def HeaderDescribesBody (o : ByteOrder) (c : Connection) : Event → Prop
  | .runRead i => ∀ p ∈ c.reads[i]?, p.finished = some false → ¬ p.op.TooShort o
  | _ => True

instance (c : Connection) : DecidablePred (c.StepSafe P)
  | .runRead _ | .runWrite _ | .runClosed => by unfold StepSafe; infer_instance
  | .arrive _ | .connectDone _ | .readSome _ _ | .readFail _ | .writeSome _ _ | .writeFail _
  | .callWrite _ _ | .callClose => isTrue trivial

/-- Every read of a body that is outstanding asks for a type code at least. -/
def BodiesHoldTypecode (c : Connection) : Prop :=
  ∀ p ∈ c.reads, ∀ size got, p.op = .read .body size got → 4 ≤ size

/-- The handler of a header asks `resize` for the `int` in the header. -/
theorem bodySize_fill_head (hP : P.headerLengthFix = headerLengthFix) (s : SockSession) {size : ℕ}
    {got : Bytes} (h4 : got.length = 4) :
    ((s.fill (.read .head size got)).bodySize P).toInt = headerInt P.order got := by
  obtain ⟨a, b, c, d, rfl⟩ : ∃ a b c d, [a, b, c, d] = got := by
    simpa [List.length_eq_succ_iff] using h4
  have hread : (s.fill (.read .head size [a, b, c, d])).headerLength P =
      networkToHostLong P.order (ofBytes d c b a) := by
    rw [SockSession.headerLength, fill_head]
    exact readInt32_view P.heap P.order a b c d _ 0
  have hfix (x : BitVec 32) : x - 4 - headerLengthFix = x := by
    rw [headerLengthFix]
    ring
  rw [SockSession.bodySize, hread, hP, hfix]
  rfl

theorem handlerSafe_head_iff (hP : P.headerLengthFix = headerLengthFix) (s : SockSession)
    {size : ℕ} {got : Bytes} (h4 : got.length = 4) (hs : s.isSocketFailed = false) :
    HandlerSafe P.order (.read .head size got) false
        ((s.fill (.read .head size got)).handleHeaderRead P false) ↔
      4 ≤ headerInt P.order got := by
  set n := headerInt P.order got with hn
  have hlt : n < 2 ^ 31 := by
    have := BitVec.toInt_lt (x := networkToHostLong P.order
      (ofBytes (got.getD 3 0) (got.getD 2 0) (got.getD 1 0) (got.getD 0 0)))
    exact lt_of_lt_of_eq this (by norm_num)
  simp only [SockSession.handleHeaderRead, Bool.false_eq_true, if_false,
    bodySize_fill_head hP s h4, ← hn]
  constructor
  · -- a header that is too short does not make the session failed
    rintro ⟨-, hshort⟩
    by_contra hlt4
    have hfailed := (hshort rfl (show n < 4 by omega)).1
    have hflags : (s.fill (.read .head size got)).isSocketFailed = true := by
      split_ifs at hfailed <;> exact hfailed
    exact absurd (hs.symm.trans hflags) Bool.false_ne_true
  · intro h4n
    have hsize : ¬ maxSize < sizeT n := by
      simp only [maxSize, sizeT]
      omega
    rw [if_neg hsize]
    refine ⟨?_, fun _ hshort => absurd (show n < 4 from hshort) (by omega)⟩
    simp only [SockSession.readBody, List.mem_cons, List.not_mem_nil, or_false, forall_eq_or_imp,
      forall_eq]
    exact ⟨show 0 ≤ n by omega, trivial⟩

theorem handlerSafe_body (o : ByteOrder) (s : SockSession) {size : ℕ} {got : Bytes} (error : Bool)
    (hsize : size = s.buffer.length) (h4 : 4 ≤ size) (hgot : error = false → got.length = size) :
    HandlerSafe o (.read .body size got) error
      ((s.fill (.read .body size got)).handleBodyRead P error) := by
  refine ⟨?_, fun _ hshort => hshort.elim⟩
  cases error with
  | true => simp [SockSession.handleBodyRead]
  | false =>
    have hlen := hgot rfl
    have hbuf : (s.fill (.read .body size got)).buffer.length = got.length := by
      simp only [SockSession.fill, store_zero, List.length_append, List.length_drop]
      omega
    simp only [SockSession.handleBodyRead, Bool.false_eq_true, if_false, hbuf, List.mem_append,
      List.mem_cons, SockSession.readStart, List.not_mem_nil, or_false]
    rintro e (he | rfl | rfl | rfl)
    · split_ifs at he with hlong
      · obtain rfl := List.mem_singleton.1 he
        exact show 4 + (got.length - 4) ≤ got.length by omega
      · simp at he
    · exact show 0 + 4 ≤ got.length by omega
    · trivial
    · trivial

/-- The handler of an operation is safe unless it is that of a header that is too short. -/
theorem handlerSafe_iff (hP : P.headerLengthFix = headerLengthFix) (h : c.Live)
    (hb : c.BodiesHoldTypecode) {i : ℕ} {op : ReadOp} {error : Bool}
    (hi : c.reads[i]? = some ⟨op, some error⟩) :
    HandlerSafe P.order op error ((c.session.fill op).handle P op error) ↔
      (error = false → ¬ op.TooShort P.order) := by
  obtain ⟨-, -, hok⟩ := h.chain.eq_singleton hi
  obtain _ | ⟨_ | _, size, got⟩ := op
  · refine iff_of_true ⟨?_, fun _ hshort => hshort.elim⟩ fun _ hshort => hshort.elim
    cases error <;>
      simp [SockSession.handle, SockSession.handleConnected, SockSession.readStart, Effect.Safe]
  · cases error with
    | true =>
      exact iff_of_true ⟨by simp [SockSession.handle, SockSession.handleHeaderRead],
        by simp⟩ (by simp)
    | false =>
      obtain ⟨rfl, -, -, hgot⟩ := hok
      refine (handlerSafe_head_iff hP c.session (hgot rfl) (h.isSocketFailed hi)).trans ?_
      simp [ReadOp.TooShort]
  · refine iff_of_true ?_ fun _ hshort => hshort.elim
    obtain ⟨hsize, -, -, hgot⟩ := hok
    exact handlerSafe_body _ _ error hsize (hb _ (List.mem_of_getElem? hi) size got rfl)
      fun he => hgot (by rw [he])

/-- A step is safe exactly if it does not handle a header that is too short. -/
theorem stepSafe_iff (hP : P.headerLengthFix = headerLengthFix) (h : c.Live)
    (hb : c.BodiesHoldTypecode) (e : Event) :
    c.StepSafe P e ↔ c.HeaderDescribesBody P.order e := by
  cases e with
  | runRead i =>
    simp only [StepSafe, HeaderDescribesBody]
    refine forall₂_congr fun p hi => ?_
    obtain ⟨op, finished⟩ := p
    constructor
    · intro hsafe hf
      obtain rfl : finished = some false := hf
      exact (handlerSafe_iff hP h hb hi).1 (hsafe false rfl) rfl
    · rintro hheader error (rfl : finished = some error)
      exact (handlerSafe_iff hP h hb hi).2 fun he => hheader (by rw [he])
  | runWrite i =>
    refine iff_of_true (fun w _ error _ => ?_) trivial
    cases error <;> simp [SockSession.handleWritten, SockSession.close]
  | runClosed => simp [StepSafe, HeaderDescribesBody, SockSession.handleClosed]
  | _ => exact Iff.rfl

theorem bodiesHoldTypecode_startRead (h : c.reads = []) {target : Target} {size : ℕ}
    (hsize : target = .body → 4 ≤ size) : (c.startRead target size).BodiesHoldTypecode := by
  intro p hp size' got hop
  obtain rfl : p = ⟨.read target size [], c.begun size⟩ := by simpa [startRead, h] using hp
  obtain ⟨rfl, rfl, -⟩ := ReadOp.read.inj hop
  exact hsize rfl

theorem Handled.bodiesHoldTypecode {s : SockSession} {op : ReadOp} {error : Bool}
    (h : Handled P c s op error c') (hr : c.reads = [])
    (hop : ∀ size got, op = .read .head size got → error = false → 4 ≤ (s.bodySize P).toInt) :
    c'.BodiesHoldTypecode := by
  cases h with
  | connected | timeout | body =>
    apply bodiesHoldTypecode_startRead
    · exact hr
    · simp
  | @header size got =>
    apply bodiesHoldTypecode_startRead
    · exact hr
    · intro _
      have h4 := hop size got rfl rfl
      have hlt := BitVec.toInt_lt (x := s.bodySize P)
      simp only [sizeT]
      omega
  | thrown | failed => exact fun p hp => absurd (hr ▸ hp) List.not_mem_nil

/-- After a header that is not too short the body that is read holds a type code. -/
theorem bodiesHoldTypecode_step (hP : P.headerLengthFix = headerLengthFix) {e : Event} (h : c.Live)
    (hb : c.BodiesHoldTypecode) (he : c.HeaderDescribesBody P.order e)
    (hs : c.step P e = some c') : c'.BodiesHoldTypecode := by
  cases readSide_of_step hs with
  | connectDone hi =>
    obtain ⟨rfl, hr, -⟩ := h.chain.eq_singleton hi
    simp [BodiesHoldTypecode, hr]
  | @readSome i k target size got hi =>
    obtain ⟨rfl, hr, -⟩ := h.chain.eq_singleton hi
    simp only [BodiesHoldTypecode, hr, List.set_cons_zero, List.mem_singleton, forall_eq,
      ReadOp.read.injEq]
    rintro size' got' ⟨rfl, rfl, -⟩
    exact hb _ (List.mem_of_getElem? hi) size got rfl
  | readFail hi =>
    obtain ⟨rfl, hr, -⟩ := h.chain.eq_singleton hi
    simp only [BodiesHoldTypecode, hr, List.set_cons_zero, List.mem_singleton, forall_eq]
    exact hb _ (List.mem_of_getElem? hi)
  | runRead hi hhandled =>
    obtain ⟨rfl, hr, hok⟩ := h.chain.eq_singleton hi
    refine hhandled.bodiesHoldTypecode (by simp [hr]) ?_
    rintro size got rfl rfl
    obtain ⟨rfl, -, -, hgot⟩ := hok
    rw [bodySize_fill_head hP _ (hgot rfl)]
    simpa [ReadOp.TooShort] using he _ hi rfl
  | runClosed =>
    simp only [BodiesHoldTypecode, perform, List.mem_map, forall_exists_index, and_imp,
      forall_apply_eq_imp_iff₂]
    exact fun p hp => hb p hp
  | other _ hsame =>
    rw [BodiesHoldTypecode, hsame.reads]
    exact hb

/-- **Robustness of the reader.**  Whatever the peer sends and in whichever order completions
run, the steps of a session are safe exactly if every header it handles is, as a signed integer,
at least 4. -/
theorem reader_safe_iff (H : Heap UInt8) (o : ByteOrder) (host port serverID description : String)
    (es : List Event) :
    let P : Platform := ⟨H, o, headerLengthFix⟩
    AllSteps (step P) (StepSafe P) (connecting P host port serverID description) es ↔
      AllSteps (step P) (HeaderDescribesBody o)
        (connecting P host port serverID description) es := by
  intro P
  refine allSteps_congr (I := fun c => c.Live ∧ c.BodiesHoldTypecode)
    (fun c e c' hI he hs => ⟨live_step hI.1 hs, ?_⟩) (fun c e hI => ?_) ⟨?_, ?_⟩
  · exact bodiesHoldTypecode_step (P := P) rfl hI.1 hI.2 he hs
  · exact stepSafe_iff (P := P) rfl hI.1 hI.2 e
  · exact live_connecting _ _ _ _
  · simp [BodiesHoldTypecode, connecting, after, SockSession.connect, idle, perform]

/-- A header 0 reaches Lua as a message without bytes, and a header -1 ends the program. -/
theorem short_headers_unsafe :
    let P : Platform := ⟨Heap.const 0, .little, headerLengthFix⟩
    let es (header : Bytes) : List Event :=
      [.connectDone 0, .runRead 0, .arrive header, .readSome 0 4, .runRead 0]
    ¬ AllSteps (step P) (StepSafe P) (connecting P "" "" "" "") (es [0, 0, 0, 0]) ∧
      ¬ AllSteps (step P) (StepSafe P) (connecting P "" "" "" "") (es [255, 255, 255, 255]) ∧
      (∃ c, run (step P) (connecting P "" "" "" "") (es [0, 0, 0, 0] ++ [.runRead 0]) = some c ∧
        c.session.isSocketFailed = false ∧ c.upcalls = [.onConnected "", .callback 0 []]) ∧
      ∃ c, run (step P) (connecting P "" "" "" "") (es [255, 255, 255, 255]) = some c ∧
        c.escaped = true := by
  intro P es
  exact ⟨by decide +kernel, by decide +kernel, exists_run_of_any (by decide +kernel),
    exists_run_of_any (by decide +kernel)⟩

end Connection

end SockTestProgram
