import SockTestProgram.Socket.SockSession
import SockTestProgram.Lib.Run

/-!
# A session and its socket

`Connection` is a session together with what `boost::asio` and the operating system hold for it:
the socket, the asynchronous operations that are outstanding, the bytes that arrived and were not
read yet, and the bytes put on the socket.  An outstanding operation is in progress until it is
finished, and then waits for its completion handler to run; finished operations may run in any
order.

`Connection.step` performs one event.  A composed `async_read` or `async_write` advances by any
non-empty part of what it still lacks, and finishes with success only with exactly the number of
bytes asked for; a read of no bytes at all finishes at once, also on a closed socket.  Closing the
socket finishes the operations in progress with an error and leaves alone the ones that are
finished already.
-/

namespace SockTestProgram

/-- Where an `async_read` of a session puts its bytes. -/
inductive Target
  | head
  | body
  deriving DecidableEq, Repr

/-- An outstanding `async_connect` or `async_read` of a session. -/
inductive ReadOp
  | connect
  | read (target : Target) (size : ℕ) (got : Bytes)
  deriving DecidableEq, Repr

/-- An operation in progress (`none`), or finished and waiting for its handler to be called with
the error flag `e` (`some e`). -/
structure Outstanding (α : Type) where
  op : α
  finished : Option Bool
  deriving DecidableEq, Repr

/-- An outstanding `async_write`: the number of the call of `write` it comes from, the buffer, and
how many bytes of it were put on the socket. -/
structure WriteOp where
  call : ℕ
  buffer : Bytes
  sent : ℕ
  deriving DecidableEq, Repr

/-- A call of one of the two callbacks of a session, which lead into Lua. -/
inductive Upcall
  | onConnected (serverID : String)
  | callback (typecode : BitVec 32) (payload : Bytes)
  deriving DecidableEq, Repr

structure Connection where
  session : SockSession
  /-- The socket was not closed by `handle_closed`. -/
  isOpen : Bool
  connected : Bool
  /-- Bytes that arrived and were not read yet. -/
  inbox : Bytes
  /-- Bytes put on the socket so far. -/
  wire : Bytes
  reads : List (Outstanding ReadOp)
  writes : List (Outstanding WriteOp)
  /-- How many times `handle_closed` is posted. -/
  posted : ℕ
  /-- The buffers given to `async_write` so far. -/
  frames : List Bytes
  upcalls : List Upcall
  /-- An exception has left a completion handler, and with it `io.poll()` and `main`. -/
  escaped : Bool
  deriving DecidableEq, Repr

inductive Event
  /-- bytes from the peer arrive -/
  | arrive (chunk : Bytes)
  /-- the `async_connect` at place `i` succeeds -/
  | connectDone (i : ℕ)
  /-- the `async_read` at place `i` gets `k` bytes -/
  | readSome (i k : ℕ)
  /-- the `async_connect` or `async_read` at place `i` fails -/
  | readFail (i : ℕ)
  /-- the handler of the finished operation at place `i` runs -/
  | runRead (i : ℕ)
  /-- the `async_write` at place `i` puts `k` bytes on the socket -/
  | writeSome (i k : ℕ)
  | writeFail (i : ℕ)
  | runWrite (i : ℕ)
  /-- the posted `handle_closed` runs -/
  | runClosed
  /-- `SockSession::write` is called -/
  | callWrite (typeCode : BitVec 32) (msg : Bytes)
  /-- `SockSession::close` is called -/
  | callClose
  deriving DecidableEq, Repr

namespace Outstanding

variable {α : Type}

/-- Closing the socket gives the operations in progress an error. -/
def abort (p : Outstanding α) : Outstanding α := { p with finished := some (p.finished.getD true) }

end Outstanding

namespace SockSession

/-- The bytes that a read got are in its target when its handler runs. -/
def fill (s : SockSession) : ReadOp → SockSession
  | .connect => s
  | .read .head _ got => { s with headLength := Memory.store s.headLength 0 got }
  | .read .body _ got => { s with buffer := Memory.store s.buffer 0 got }

/-- The completion handler of an operation. -/
def handle (P : Platform) (s : SockSession) : ReadOp → Bool → SockSession × List Effect
  | .connect, error => s.handleConnected error
  | .read .head _ _, error => s.handleHeaderRead P error
  | .read .body _ _, error => s.handleBodyRead P error

end SockSession

namespace Connection

/-- The state of an operation that is just started and lacks `size` bytes. -/
def begun (c : Connection) (size : ℕ) : Option Bool :=
  if size = 0 then some false else if c.isOpen then none else some true

def startRead (c : Connection) (target : Target) (size : ℕ) : Connection :=
  { c with reads := c.reads ++ [⟨.read target size [], c.begun size⟩] }

/-- What an effect of the session does. -/
def perform (c : Connection) : Effect → Connection
  | .asyncConnect _ _ => { c with reads := c.reads ++ [⟨.connect, none⟩] }
  | .asyncReadHead => c.startRead .head 4
  | .asyncReadBody size => c.startRead .body size
  | .asyncWrite buffer =>
    { c with
      writes := c.writes ++ [⟨⟨c.frames.length, buffer, 0⟩, c.begun buffer.length⟩]
      frames := c.frames ++ [buffer] }
  | .postClosed => { c with posted := c.posted + 1 }
  | .socketClose =>
    { c with
      isOpen := false
      reads := c.reads.map .abort
      writes := c.writes.map .abort }
  | .resize _ => c
  | .load _ _ => c
  | .callback typecode payload => { c with upcalls := c.upcalls ++ [.callback typecode payload] }
  | .onConnected serverID => { c with upcalls := c.upcalls ++ [.onConnected serverID] }
  | .throw => { c with escaped := true }

/-- The outcome of a method of the session: its new state, and its effects in order. -/
def after (c : Connection) (r : SockSession × List Effect) : Connection :=
  r.2.foldl perform { c with session := r.1 }

/-- A session that no operation was started for. -/
def idle (s : SockSession) (connected : Bool) : Connection where
  session := s
  isOpen := true
  connected := connected
  inbox := []
  wire := []
  reads := []
  writes := []
  posted := 0
  frames := []
  upcalls := []
  escaped := false

/-- The session that `SockSessionManager::connectTo` creates and connects. -/
def connecting (P : Platform) (host port serverID description : String) : Connection :=
  let s := SockSession.create P host port description
  (idle s false).after (s.connect serverID)

/-- A session that is connected and waits for its first header. -/
def reading (s : SockSession) : Connection := (idle s true).after s.readStart

/-- Perform one event, if it is possible. -/
def act (P : Platform) (c : Connection) : Event → Option Connection
  | .arrive chunk =>
    if c.connected ∧ chunk ≠ [] then some { c with inbox := c.inbox ++ chunk } else none
  | .connectDone i =>
    match c.reads[i]? with
    | some ⟨.connect, none⟩ =>
      some { c with connected := true, reads := c.reads.set i ⟨.connect, some false⟩ }
    | _ => none
  | .readSome i k =>
    match c.reads[i]? with
    | some ⟨.read target size got, none⟩ =>
      if c.connected ∧ 0 < k ∧ k ≤ c.inbox.length ∧ got.length + k ≤ size then
        let finished := if got.length + k = size then some false else none
        some { c with
          inbox := c.inbox.drop k
          reads := c.reads.set i ⟨.read target size (got ++ c.inbox.take k), finished⟩ }
      else none
    | _ => none
  | .readFail i =>
    match c.reads[i]? with
    | some ⟨op, none⟩ => some { c with reads := c.reads.set i ⟨op, some true⟩ }
    | _ => none
  | .runRead i =>
    match c.reads[i]? with
    | some ⟨op, some error⟩ =>
      some (({ c with reads := c.reads.eraseIdx i } : Connection).after
        ((c.session.fill op).handle P op error))
    | _ => none
  | .writeSome i k =>
    match c.writes[i]? with
    | some ⟨w, none⟩ =>
      if c.connected ∧ 0 < k ∧ w.sent + k ≤ w.buffer.length then
        let finished := if w.sent + k = w.buffer.length then some false else none
        some { c with
          wire := c.wire ++ Memory.slice w.buffer w.sent k
          writes := c.writes.set i ⟨{ w with sent := w.sent + k }, finished⟩ }
      else none
    | _ => none
  | .writeFail i =>
    match c.writes[i]? with
    | some ⟨w, none⟩ => some { c with writes := c.writes.set i ⟨w, some true⟩ }
    | _ => none
  | .runWrite i =>
    match c.writes[i]? with
    | some ⟨_, some error⟩ =>
      some (({ c with writes := c.writes.eraseIdx i } : Connection).after
        (c.session.handleWritten error))
    | _ => none
  | .runClosed =>
    if 0 < c.posted then
      some (({ c with posted := c.posted - 1 } : Connection).after c.session.handleClosed)
    else none
  | .callWrite typeCode msg =>
    some (c.after (c.session.write P typeCode msg (BitVec.ofNat 32 msg.length)))
  | .callClose => some (c.after c.session.close)

/-- One event of the program, which an exception ends. -/
def step (P : Platform) (c : Connection) (e : Event) : Option Connection :=
  if c.escaped then none else c.act P e

/-! ## What one event can do -/

/-- The guard of an event and the connection after it. -/
def Stepped (P : Platform) (c c' : Connection) : Event → Prop
  | .arrive chunk =>
    c.connected = true ∧ chunk ≠ [] ∧ c' = { c with inbox := c.inbox ++ chunk }
  | .connectDone i =>
    c.reads[i]? = some ⟨.connect, none⟩ ∧
      c' = { c with connected := true, reads := c.reads.set i ⟨.connect, some false⟩ }
  | .readSome i k => ∃ target size got,
    c.reads[i]? = some ⟨.read target size got, none⟩ ∧
      (c.connected = true ∧ 0 < k ∧ k ≤ c.inbox.length ∧ got.length + k ≤ size) ∧
      c' = { c with
        inbox := c.inbox.drop k
        reads := c.reads.set i ⟨.read target size (got ++ c.inbox.take k),
          if got.length + k = size then some false else none⟩ }
  | .readFail i => ∃ op,
    c.reads[i]? = some ⟨op, none⟩ ∧ c' = { c with reads := c.reads.set i ⟨op, some true⟩ }
  | .runRead i => ∃ op error,
    c.reads[i]? = some ⟨op, some error⟩ ∧
      c' = ({ c with reads := c.reads.eraseIdx i } : Connection).after
        ((c.session.fill op).handle P op error)
  | .writeSome i k => ∃ w,
    c.writes[i]? = some ⟨w, none⟩ ∧
      (c.connected = true ∧ 0 < k ∧ w.sent + k ≤ w.buffer.length) ∧
      c' = { c with
        wire := c.wire ++ Memory.slice w.buffer w.sent k
        writes := c.writes.set i ⟨{ w with sent := w.sent + k },
          if w.sent + k = w.buffer.length then some false else none⟩ }
  | .writeFail i => ∃ w,
    c.writes[i]? = some ⟨w, none⟩ ∧ c' = { c with writes := c.writes.set i ⟨w, some true⟩ }
  | .runWrite i => ∃ w error,
    c.writes[i]? = some ⟨w, some error⟩ ∧
      c' = ({ c with writes := c.writes.eraseIdx i } : Connection).after
        (c.session.handleWritten error)
  | .runClosed =>
    0 < c.posted ∧
      c' = ({ c with posted := c.posted - 1 } : Connection).after c.session.handleClosed
  | .callWrite typeCode msg =>
    c' = c.after (c.session.write P typeCode msg (BitVec.ofNat 32 msg.length))
  | .callClose => c' = c.after c.session.close

theorem act_eq_some_iff {P : Platform} {c c' : Connection} {e : Event} :
    c.act P e = some c' ↔ Stepped P c c' e := by
  cases e with
  | arrive chunk =>
    simp only [act, Stepped, Option.ite_none_right_eq_some, Option.some.injEq, and_assoc,
      @eq_comm _ c']
  | connectDone i =>
    simp only [act, Stepped]
    rcases c.reads[i]? with _ | ⟨_ | ⟨target, size, got⟩, _ | error⟩ <;> simp [@eq_comm _ c']
  | readSome i k =>
    simp only [act, Stepped]
    rcases c.reads[i]? with _ | ⟨_ | ⟨target, size, got⟩, _ | error⟩ <;> simp [@eq_comm _ c']
  | readFail i =>
    simp only [act, Stepped]
    rcases c.reads[i]? with _ | ⟨op, _ | error⟩ <;> simp [@eq_comm _ c']
  | runRead i =>
    simp only [act, Stepped]
    rcases c.reads[i]? with _ | ⟨op, _ | error⟩
    · simp
    · simp
    · refine ⟨fun h => ⟨op, error, rfl, (Option.some.inj h).symm⟩, ?_⟩
      rintro ⟨_, _, h, rfl⟩
      cases h
      rfl
  | writeSome i k =>
    simp only [act, Stepped]
    rcases c.writes[i]? with _ | ⟨w, _ | error⟩ <;> simp [@eq_comm _ c']
  | writeFail i =>
    simp only [act, Stepped]
    rcases c.writes[i]? with _ | ⟨w, _ | error⟩ <;> simp [@eq_comm _ c']
  | runWrite i =>
    simp only [act, Stepped]
    rcases c.writes[i]? with _ | ⟨w, _ | error⟩
    · simp
    · simp
    · refine ⟨fun h => ⟨w, error, rfl, (Option.some.inj h).symm⟩, ?_⟩
      rintro ⟨_, _, h, rfl⟩
      cases h
      rfl
  | runClosed =>
    simp only [act, Stepped, Option.ite_none_right_eq_some, Option.some.injEq, @eq_comm _ c']
  | callWrite typeCode msg => simp only [act, Stepped, Option.some.injEq, @eq_comm _ c']
  | callClose => simp only [act, Stepped, Option.some.injEq, @eq_comm _ c']

theorem step_eq_some_iff {P : Platform} {c c' : Connection} {e : Event} :
    c.step P e = some c' ↔ c.escaped = false ∧ Stepped P c c' e := by
  rw [step, ← act_eq_some_iff]
  cases c.escaped <;> simp

end Connection

end SockTestProgram
