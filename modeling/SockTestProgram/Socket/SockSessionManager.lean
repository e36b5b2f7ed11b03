import SockTestProgram.Socket.ReadChain

/-!
# `SockSessionManager`

The manager of `socket/SockSessionManager.cpp` and every session it has created.  A session that was
replaced is kept alive by its own outstanding operations, so all sessions take part in a run
(`step`).  What happens to one of them is a run of that session alone (`run_session`).

Name resolution in `connectTo` is assumed to succeed.
-/

open Lts

namespace SockTestProgram

variable {P : Platform}

/-- An event that is not a call into the session. -/
def Event.IsAsio : Event → Prop
  | .callWrite _ _ | .callClose => False
  | _ => True

instance : DecidablePred Event.IsAsio
  | .callWrite _ _ | .callClose => isFalse id
  | .arrive _ | .connectDone _ | .readSome _ _ | .readFail _ | .runRead _ | .writeSome _ _
  | .writeFail _ | .runWrite _ | .runClosed => isTrue trivial

structure SockSessionManager where
  /-- The sessions created so far. -/
  sessions : List Connection
  /-- The place of the session that `ptr_` points to. -/
  ptr : Option ℕ
  deriving DecidableEq, Repr

inductive ManagerEvent
  | connectTo (host port serverID description : String)
  | write (typeCode : BitVec 32) (msg : Bytes)
  /-- something happens to the session at place `j` -/
  | asio (j : ℕ) (e : Event)
  deriving DecidableEq, Repr

namespace SockSessionManager

/-- No session was created yet. -/
def start : SockSessionManager := ⟨[], none⟩

/-- The outcome of a call of a method of the current session, if there is one. -/
def call (m : SockSessionManager) (f : SockSession → SockSession × List Effect) :
    List Connection :=
  match m.ptr with
  | some j => m.sessions.modify j fun c => c.after (f c.session)
  | none => m.sessions

def connectTo (P : Platform) (m : SockSessionManager) (host port serverID description : String) :
    SockSessionManager where
  sessions := m.call SockSession.close ++ [.connecting P host port serverID description]
  ptr := some m.sessions.length

def write (P : Platform) (m : SockSessionManager) (typeCode : BitVec 32) (msg : Bytes) :
    SockSessionManager :=
  { m with sessions := m.call fun s => s.write P typeCode msg (BitVec.ofNat 32 msg.length) }

/-- One event of the program, which an exception in a completion handler ends. -/
def step (P : Platform) (m : SockSessionManager) (e : ManagerEvent) : Option SockSessionManager :=
  if ∃ c ∈ m.sessions, c.escaped = true then none
  else match e with
  | .connectTo host port serverID description =>
    some (m.connectTo P host port serverID description)
  | .write typeCode msg => some (m.write P typeCode msg)
  | .asio j e =>
    if e.IsAsio then
      match m.sessions[j]? with
      | some c => (c.step P e).map fun c' => { m with sessions := m.sessions.set j c' }
      | none => none
    else none

variable {m m' : SockSessionManager}

/-- What a step can be. -/
inductive Stepped (P : Platform) (m : SockSessionManager) : ManagerEvent → SockSessionManager → Prop
  | connectTo (host port serverID description : String) :
      Stepped P m (.connectTo host port serverID description)
        (m.connectTo P host port serverID description)
  | write (typeCode : BitVec 32) (msg : Bytes) :
      Stepped P m (.write typeCode msg) (m.write P typeCode msg)
  | asio {j : ℕ} {e : Event} {c c' : Connection} (he : e.IsAsio) (hc : m.sessions[j]? = some c)
      (hs : c.step P e = some c') :
      Stepped P m (.asio j e) { m with sessions := m.sessions.set j c' }

theorem stepped_of_step {e : ManagerEvent} (hs : m.step P e = some m') : Stepped P m e m' := by
  unfold step at hs
  split_ifs at hs
  cases e with
  | connectTo host port serverID description =>
    obtain rfl := Option.some.inj hs
    exact .connectTo _ _ _ _
  | write typeCode msg =>
    obtain rfl := Option.some.inj hs
    exact .write _ _
  | asio j e =>
    simp only at hs
    split_ifs at hs with hasio
    cases hc : m.sessions[j]? with
    | none => simp [hc] at hs
    | some c =>
      simp only [hc] at hs
      obtain ⟨c', hc', rfl⟩ := Option.map_eq_some_iff.1 hs
      exact .asio hasio hc hc'

theorem step_asio {j : ℕ} {e : Event} (hs : m.step P (.asio j e) = some m') :
    ∃ c c', e.IsAsio ∧ m.sessions[j]? = some c ∧ c.step P e = some c' ∧
      m' = { m with sessions := m.sessions.set j c' } := by
  cases stepped_of_step hs with
  | asio he hc hc' => exact ⟨_, _, he, hc, hc', rfl⟩

/-! ## One session of a run -/

/-- A call leaves a session alone or calls the method. -/
theorem getElem?_call (f : SockSession → SockSession × List Effect) {j : ℕ} {c : Connection}
    (hc : m.sessions[j]? = some c) :
    (m.call f)[j]? = some (if m.ptr = some j then c.after (f c.session) else c) := by
  unfold call
  cases hp : m.ptr with
  | none => simpa using hc
  | some i =>
    rw [List.getElem?_modify, hc]
    by_cases hij : i = j
    · simp [hij]
    · simp [hij]

theorem length_call (f : SockSession → SockSession × List Effect) :
    (m.call f).length = m.sessions.length := by
  unfold call
  cases m.ptr <;> simp

/-- What an event of the manager is for the session at place `j`: nothing, or an event. -/
def eventAt (m : SockSessionManager) (j : ℕ) : ManagerEvent → Option Event
  | .connectTo _ _ _ _ => if m.ptr = some j then some .callClose else none
  | .write typeCode msg => if m.ptr = some j then some (.callWrite typeCode msg) else none
  | .asio i e => if i = j then some e else none

/-- Each event is at most one event of a session. -/
theorem step_session {e : ManagerEvent} {j : ℕ} {c : Connection} (hs : m.step P e = some m')
    (hc : m.sessions[j]? = some c) :
    ∃ c', m'.sessions[j]? = some c' ∧
      run (Connection.step P) c (m.eventAt j e).toList = some c' := by
  have hcalm : c.escaped = false := by
    by_contra h
    have hesc : ∃ c ∈ m.sessions, c.escaped = true := ⟨c, List.mem_of_getElem? hc, by simpa using h⟩
    simp [step, hesc] at hs
  -- a call of a method of the session is an event of it
  have hcall {f : SockSession → SockSession × List Effect} {e' : Event}
      (hf : c.act P e' = some (c.after (f c.session))) :
      run (Connection.step P) c (if m.ptr = some j then some e' else none).toList =
        some (if m.ptr = some j then c.after (f c.session) else c) := by
    split_ifs
    · simp [run_cons, Connection.step, hcalm, hf]
    · rfl
  cases stepped_of_step hs with
  | connectTo host port serverID description =>
    refine ⟨_, ?_, hcall rfl⟩
    have hlt : j < (m.call SockSession.close).length := by
      rw [length_call]
      exact (List.getElem?_eq_some_iff.1 hc).1
    exact (List.getElem?_append_left hlt).trans (getElem?_call _ hc)
  | write typeCode msg =>
    let f (s : SockSession) := s.write P typeCode msg (BitVec.ofNat 32 msg.length)
    exact ⟨_, getElem?_call f hc, hcall (f := f) rfl⟩
  | @asio i e d d' _ hd hd' =>
    by_cases hij : i = j
    · subst hij
      obtain rfl := Option.some.inj (hd.symm.trans hc)
      refine ⟨d', List.getElem?_set_self (List.getElem?_eq_some_iff.1 hc).1, ?_⟩
      simp [eventAt, run_cons, hd']
    · exact ⟨c, (List.getElem?_set_ne hij).trans hc, by simp [eventAt, hij]⟩

/-- What happens to a session in a run is a run of the session. -/
theorem run_session {es : List ManagerEvent} {j : ℕ} {c : Connection}
    (hs : run (step P) m es = some m') (hc : m.sessions[j]? = some c) :
    ∃ fs c', m'.sessions[j]? = some c' ∧ run (Connection.step P) c fs = some c' := by
  induction es generalizing m c with
  | nil =>
    obtain rfl := Option.some.inj hs
    exact ⟨[], c, hc, rfl⟩
  | cons e es ih =>
    obtain ⟨m₁, hm₁, hrest⟩ := run_cons_eq_some_iff.1 hs
    obtain ⟨c₁, hc₁, hrun₁⟩ := step_session hm₁ hc
    obtain ⟨fs, c', hc', hrun⟩ := ih hrest hc₁
    exact ⟨_, c', hc', run_append_eq_some_iff.2 ⟨c₁, hrun₁, hrun⟩⟩

/-- A session there is after an event was there before, or `connectTo` created it. -/
theorem session_of_step {e : ManagerEvent} {j : ℕ} {c' : Connection} (hs : m.step P e = some m')
    (hc' : m'.sessions[j]? = some c') :
    (∃ c, m.sessions[j]? = some c) ∨ ∃ host port serverID description,
      e = .connectTo host port serverID description ∧ j = m.sessions.length ∧
        c' = .connecting P host port serverID description := by
  by_cases hlt : j < m.sessions.length
  · exact .inl ⟨_, List.getElem?_eq_getElem hlt⟩
  have hjl := (List.getElem?_eq_some_iff.1 hc').1
  cases stepped_of_step hs with
  | connectTo host port serverID description =>
    refine .inr ⟨host, port, serverID, description, rfl, ?_⟩
    simp only [connectTo, List.length_append, length_call, List.length_singleton] at hjl
    obtain rfl : j = m.sessions.length := by omega
    refine ⟨rfl, ?_⟩
    have := length_call (m := m) SockSession.close
    simpa [connectTo, this, eq_comm] using hc'
  | write typeCode msg =>
    simp only [write, length_call] at hjl
    exact absurd hjl hlt
  | asio => exact absurd (lt_of_lt_of_eq hjl List.length_set) hlt

/-- Every session of a reachable manager was reached by a run of it from its creation. -/
theorem session_of_run {es : List ManagerEvent} {j : ℕ} {c : Connection}
    (hs : run (step P) start es = some m) (hc : m.sessions[j]? = some c) :
    ∃ host port serverID description fs,
      run (Connection.step P) (.connecting P host port serverID description) fs = some c := by
  refine run_invariant (I := fun m => ∀ j c, m.sessions[j]? = some c →
    ∃ host port serverID description fs,
      run (Connection.step P) (.connecting P host port serverID description) fs = some c)
    (fun m e m' h hs j c' hc' => ?_) hs (by simp [start]) j c hc
  rcases session_of_step hs hc' with ⟨c, hc⟩ | ⟨host, port, serverID, description, -, -, rfl⟩
  · obtain ⟨host, port, serverID, description, fs, hrun⟩ := h j c hc
    obtain ⟨c'', hc'', hstep⟩ := step_session hs hc
    obtain rfl := Option.some.inj (hc''.symm.trans hc')
    exact ⟨host, port, serverID, description, _, run_append_eq_some_iff.2 ⟨c, hrun, hstep⟩⟩
  · exact ⟨host, port, serverID, description, [], rfl⟩

end SockSessionManager

end SockTestProgram
