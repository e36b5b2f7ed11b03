import SockTestProgram.Socket.Connection

/-!
# The two sides of a connection

What a completion handler of the read chain can do (`Handled`), and what one event can do to the
reading side of a connection (`ReadSide`) and to its writing side (`WriteSide`).  Most events
concern one side only, and leave the other as it is.
-/

open Memory

namespace SockTestProgram

theorem length_resizeString (s : Bytes) (n : ℕ) : (resizeString s n).length = n := by
  simp only [resizeString, List.length_append, List.length_take, List.length_replicate]
  omega

namespace Connection

variable {P : Platform} {c c' : Connection}

/-! ## The handlers of the read chain -/

/-- The connection after the handler of an operation. -/
inductive Handled (P : Platform) (c : Connection) (s : SockSession) :
    ReadOp → Bool → Connection → Prop
  | connected : Handled P c s .connect false (startRead
      { c with session := s, upcalls := c.upcalls ++ [.onConnected s.connectingServerStr] } .head 4)
  | timeout : Handled P c s .connect true
      (startRead { c with session := { s with connectingTimeout := true } } .head 4)
  | header {size : ℕ} {got : Bytes} (h : sizeT (s.bodySize P).toInt ≤ maxSize) :
      Handled P c s (.read .head size got) false (startRead
        { c with session := { s with
          buffer := resizeString s.buffer (sizeT (s.bodySize P).toInt) } }
        .body (sizeT (s.bodySize P).toInt))
  | thrown {size : ℕ} {got : Bytes} (h : maxSize < sizeT (s.bodySize P).toInt) :
      Handled P c s (.read .head size got) false { c with session := s, escaped := true }
  | body {size : ℕ} {got : Bytes} : Handled P c s (.read .body size got) false (startRead
      { c with
        session := s
        upcalls := c.upcalls ++ [.callback (s.bodyTypecode P) (s.bodyPayload P)] } .head 4)
  | failed {target : Target} {size : ℕ} {got : Bytes} :
      Handled P c s (.read target size got) true
        { c with session := { s with socketFailed := true } }

theorem handled (P : Platform) (c : Connection) (s : SockSession) (op : ReadOp) (error : Bool) :
    Handled P c s op error (c.after (s.handle P op error)) := by
  obtain _ | ⟨_ | _, size, got⟩ := op
  · cases error with
    | false => exact .connected
    | true => exact .timeout
  · cases error with
    | false =>
      simp only [SockSession.handle, SockSession.handleHeaderRead, Bool.false_eq_true, if_false]
      split_ifs with h
      · exact .thrown h
      · have hheader : Handled P c s (.read .head size got) false _ :=
          .header (Nat.le_of_not_lt h)
        simpa only [after, SockSession.readBody, List.foldl_cons, List.foldl_nil, perform,
          length_resizeString] using hheader
    | true => exact .failed
  · cases error with
    | false =>
      simp only [SockSession.handle, SockSession.handleBodyRead, Bool.false_eq_true, if_false]
      split_ifs <;> exact .body
    | true => exact .failed

theorem handled_of_step {i : ℕ} (hs : c.step P (.runRead i) = some c') :
    ∃ op error, c.reads[i]? = some ⟨op, some error⟩ ∧
      Handled P { c with reads := c.reads.eraseIdx i } (c.session.fill op) op error c' := by
  obtain ⟨-, op, error, hi, rfl⟩ := step_eq_some_iff.1 hs
  exact ⟨op, error, hi, handled _ _ _ _ _⟩

/-- What the handlers of the read chain leave as it is. -/
theorem Handled.frame {s : SockSession} {op : ReadOp} {error : Bool}
    (h : Handled P c s op error c') :
    (c'.isOpen = c.isOpen ∧ c'.connected = c.connected ∧ c'.posted = c.posted) ∧
      (c'.wire = c.wire ∧ c'.frames = c.frames ∧ c'.writes = c.writes) ∧
      c'.session.connectingServerStr = s.connectingServerStr := by
  cases h <;> exact ⟨⟨rfl, rfl, rfl⟩, ⟨rfl, rfl, rfl⟩, rfl⟩

/-! ## The reading side -/

/-- Nothing happened to the reading side. -/
structure SameReads (c c' : Connection) : Prop where
  session : c'.session = c.session
  isOpen : c'.isOpen = c.isOpen
  connected : c'.connected = c.connected
  reads : c'.reads = c.reads
  upcalls : c'.upcalls = c.upcalls
  posted : c.posted ≤ c'.posted

/-- What an event does to the reading side. -/
inductive ReadSide (P : Platform) (c : Connection) : Event → Connection → Prop
  | connectDone {i : ℕ} (hi : c.reads[i]? = some ⟨.connect, none⟩) : ReadSide P c (.connectDone i)
      { c with connected := true, reads := c.reads.set i ⟨.connect, some false⟩ }
  | readSome {i k : ℕ} {target : Target} {size : ℕ} {got : Bytes}
      (hi : c.reads[i]? = some ⟨.read target size got, none⟩)
      (hguard : c.connected = true ∧ 0 < k ∧ k ≤ c.inbox.length ∧ got.length + k ≤ size) :
      ReadSide P c (.readSome i k)
        { c with
          inbox := c.inbox.drop k
          reads := c.reads.set i ⟨.read target size (got ++ c.inbox.take k),
            if got.length + k = size then some false else none⟩ }
  | readFail {i : ℕ} {op : ReadOp} (hi : c.reads[i]? = some ⟨op, none⟩) :
      ReadSide P c (.readFail i) { c with reads := c.reads.set i ⟨op, some true⟩ }
  | runRead {i : ℕ} {op : ReadOp} {error : Bool} {c' : Connection}
      (hi : c.reads[i]? = some ⟨op, some error⟩)
      (h : Handled P { c with reads := c.reads.eraseIdx i } (c.session.fill op) op error c') :
      ReadSide P c (.runRead i) c'
  | runClosed : ReadSide P c .runClosed
      (perform { c with posted := c.posted - 1 } .socketClose)
  | other {e : Event} {c' : Connection} (he : ∀ i, e ≠ .runRead i) (h : SameReads c c') :
      ReadSide P c e c'

/-- A call of `write` changes nothing but the outstanding `async_write`s. -/
theorem after_write (P : Platform) (c : Connection) (typeCode : BitVec 32) (msg : Bytes)
    (rlength : BitVec 32) : c.after (c.session.write P typeCode msg rlength) =
      match SockSession.writeBuffer P typeCode msg rlength with
      | some buffer => c.perform (.asyncWrite buffer)
      | none => c := by
  unfold SockSession.write
  cases SockSession.writeBuffer P typeCode msg rlength <;> rfl

theorem readSide_of_step {e : Event} (hs : c.step P e = some c') : ReadSide P c e c' := by
  have hstep := hs
  obtain ⟨-, hs⟩ := step_eq_some_iff.1 hs
  cases e with
  | arrive chunk =>
    obtain ⟨-, -, rfl⟩ := hs
    exact .other (by simp) ⟨rfl, rfl, rfl, rfl, rfl, le_rfl⟩
  | connectDone i =>
    obtain ⟨hi, rfl⟩ := hs
    exact .connectDone hi
  | readSome i k =>
    obtain ⟨target, size, got, hi, hguard, rfl⟩ := hs
    exact .readSome hi hguard
  | readFail i =>
    obtain ⟨op, hi, rfl⟩ := hs
    exact .readFail hi
  | runRead i =>
    obtain ⟨op, error, hi, hhandled⟩ := handled_of_step hstep
    exact .runRead hi hhandled
  | writeSome i k =>
    obtain ⟨w, -, -, rfl⟩ := hs
    exact .other (by simp) ⟨rfl, rfl, rfl, rfl, rfl, le_rfl⟩
  | writeFail i =>
    obtain ⟨w, -, rfl⟩ := hs
    exact .other (by simp) ⟨rfl, rfl, rfl, rfl, rfl, le_rfl⟩
  | runWrite i =>
    obtain ⟨w, error, -, rfl⟩ := hs
    refine .other (by simp) ?_
    cases error with
    | false => exact ⟨rfl, rfl, rfl, rfl, rfl, le_rfl⟩
    | true => exact ⟨rfl, rfl, rfl, rfl, rfl, Nat.le_succ _⟩
  | runClosed =>
    obtain ⟨-, rfl⟩ := hs
    exact .runClosed
  | callWrite typeCode msg =>
    obtain rfl := hs
    rw [after_write]
    refine .other (by simp) ?_
    split <;> exact ⟨rfl, rfl, rfl, rfl, rfl, le_rfl⟩
  | callClose =>
    obtain rfl := hs
    exact .other (by simp) ⟨rfl, rfl, rfl, rfl, rfl, Nat.le_succ _⟩

/-! ## The writing side -/

/-- Nothing happened to the writing side. -/
structure SameWrites (c c' : Connection) : Prop where
  wire : c'.wire = c.wire
  frames : c'.frames = c.frames
  writes : c'.writes = c.writes

/-- What an event does to the writing side. -/
inductive WriteSide (c : Connection) : Event → Connection → Prop
  | writeSome {i k : ℕ} {w : WriteOp} (hi : c.writes[i]? = some ⟨w, none⟩)
      (hle : w.sent + k ≤ w.buffer.length) : WriteSide c (.writeSome i k)
        { c with
          wire := c.wire ++ slice w.buffer w.sent k
          writes := c.writes.set i ⟨{ w with sent := w.sent + k },
            if w.sent + k = w.buffer.length then some false else none⟩ }
  | writeFail {i : ℕ} {w : WriteOp} (hi : c.writes[i]? = some ⟨w, none⟩) :
      WriteSide c (.writeFail i) { c with writes := c.writes.set i ⟨w, some true⟩ }
  | runWrite {i : ℕ} {w : WriteOp} {error : Bool} {c' : Connection}
      (hi : c.writes[i]? = some ⟨w, some error⟩)
      (h : SameWrites { c with writes := c.writes.eraseIdx i } c') : WriteSide c (.runWrite i) c'
  | runClosed : WriteSide c .runClosed (perform { c with posted := c.posted - 1 } .socketClose)
  | callWrite {typeCode : BitVec 32} {msg buffer : Bytes} :
      WriteSide c (.callWrite typeCode msg) (c.perform (.asyncWrite buffer))
  | other {e : Event} {c' : Connection} (he : ∀ i k, e ≠ .writeSome i k) (h : SameWrites c c') :
      WriteSide c e c'

theorem writeSide_of_step {e : Event} (hs : c.step P e = some c') : WriteSide c e c' := by
  have hstep := hs
  obtain ⟨-, hs⟩ := step_eq_some_iff.1 hs
  cases e with
  | arrive chunk =>
    obtain ⟨-, -, rfl⟩ := hs
    exact .other (by simp) ⟨rfl, rfl, rfl⟩
  | connectDone i =>
    obtain ⟨-, rfl⟩ := hs
    exact .other (by simp) ⟨rfl, rfl, rfl⟩
  | readSome i k =>
    obtain ⟨target, size, got, -, -, rfl⟩ := hs
    exact .other (by simp) ⟨rfl, rfl, rfl⟩
  | readFail i =>
    obtain ⟨op, -, rfl⟩ := hs
    exact .other (by simp) ⟨rfl, rfl, rfl⟩
  | runRead i =>
    obtain ⟨op, error, -, hhandled⟩ := handled_of_step hstep
    obtain ⟨-, ⟨hwire, hframes, hwrites⟩, -⟩ := hhandled.frame
    exact .other (by simp) ⟨hwire, hframes, hwrites⟩
  | writeSome i k =>
    obtain ⟨w, hi, hguard, rfl⟩ := hs
    exact .writeSome hi hguard.2.2
  | writeFail i =>
    obtain ⟨w, hi, rfl⟩ := hs
    exact .writeFail hi
  | runWrite i =>
    obtain ⟨w, error, hi, rfl⟩ := hs
    refine .runWrite hi ?_
    cases error <;> exact ⟨rfl, rfl, rfl⟩
  | runClosed =>
    obtain ⟨-, rfl⟩ := hs
    exact .runClosed
  | callWrite typeCode msg =>
    obtain rfl := hs
    rw [after_write]
    split
    · exact .callWrite
    · exact .other (by simp) ⟨rfl, rfl, rfl⟩
  | callClose =>
    obtain rfl := hs
    exact .other (by simp) ⟨rfl, rfl, rfl⟩

end Connection

end SockTestProgram
