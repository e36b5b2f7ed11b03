import SockTestProgram.App.Client
import SockTestProgram.Socket.Sides

/-!
# The record of the requests

The client keeps a record of its requests, of the session that each was written to and of the
connections that it opened (`actions`).  What a session was given to write is what the record says
(`frames_of_run`), and so is where the sessions connect to (`destinations_of_run`).
-/

open Lts

namespace SockTestProgram

variable {P : Platform} {packCmd : Request → Bytes}

/-! ## What a session is given to write -/

/-- The host, the port and the event of a session. -/
def SockSession.destination (s : SockSession) : String × String × String :=
  (s.host, s.port, s.connectingServerStr)

namespace Connection

variable {c c' : Connection}

/-- Only a call of `write` gives a session something to write. -/
theorem frames_step {e : Event} (he : e.IsAsio) (hs : c.step P e = some c') :
    c'.frames = c.frames := by
  cases writeSide_of_step hs with
  | writeSome | writeFail | runClosed => rfl
  | runWrite _ hsame | other _ hsame => exact hsame.frames
  | callWrite => exact he.elim

theorem frames_after_write (P : Platform) (c : Connection) (typeCode : BitVec 32) (msg : Bytes)
    (rlength : BitVec 32) : (c.after (c.session.write P typeCode msg rlength)).frames =
      c.frames ++ (SockSession.writeBuffer P typeCode msg rlength).toList := by
  rw [after_write]
  cases SockSession.writeBuffer P typeCode msg rlength with
  | none => exact (List.append_nil _).symm
  | some buffer => rfl

/-! ## Where a session connects to -/

theorem destination_fill (s : SockSession) (op : ReadOp) :
    (s.fill op).destination = s.destination := by
  obtain _ | ⟨_ | _, _, _⟩ := op <;> rfl

theorem Handled.destination {s : SockSession} {op : ReadOp} {error : Bool}
    (h : Handled P c s op error c') :
    c'.session.destination = s.destination := by
  cases h <;> rfl

/-- A session stays where it was told to connect to. -/
theorem destination_step {e : Event} (hs : c.step P e = some c') :
    c'.session.destination = c.session.destination := by
  cases readSide_of_step hs with
  | connectDone | readSome | readFail | runClosed => rfl
  | runRead hi hhandled => rw [hhandled.destination, destination_fill]
  | other _ hsame => rw [hsame.session]

theorem destination_after_write (c : Connection) (typeCode : BitVec 32) (msg : Bytes)
    (rlength : BitVec 32) :
    (c.after (c.session.write P typeCode msg rlength)).session.destination =
      c.session.destination := by
  rw [after_write]
  cases SockSession.writeBuffer P typeCode msg rlength <;> rfl

end Connection

/-! ## The record -/

/-- The buffer that `SockSession::write` makes of a request. -/
def Request.buffer (P : Platform) (packCmd : Request → Bytes) (r : Request) : Option Bytes :=
  SockSession.writeBuffer P (BitVec.ofInt 32 (Proto.toID r.pn)) (packCmd r)
    (BitVec.ofNat 32 (packCmd r).length)

/-- What the session at place `j` is given to write by an action. -/
def ClientAction.buffer (P : Platform) (packCmd : Request → Bytes) (j : ℕ) :
    ClientAction → Option Bytes
  | .sendBuffer r (some p) => if p.place = j then r.buffer P packCmd else none
  | _ => none

/-- Where an action opens a connection to; the arguments of `ConnectServer` are cut at their
first 0. -/
def ClientAction.destination : ClientAction → Option (String × String × String)
  | .connectServer host port serverID _ =>
    some (checkString host, checkString port, checkString serverID)
  | .sendBuffer _ _ => none

/-- The destinations of all sessions. -/
def SockSessionManager.destinations (m : SockSessionManager) : List (String × String × String) :=
  m.sessions.map fun c => c.session.destination

/-- A call of a method leaves the destinations as they are if the method does. -/
theorem SockSessionManager.destinations_call (m : SockSessionManager)
    {f : SockSession → SockSession × List Effect}
    (hf : ∀ c : Connection, (c.after (f c.session)).session.destination = c.session.destination) :
    (m.call f).map (fun c => c.session.destination) = m.destinations := by
  apply List.ext_getElem?
  intro j
  rw [destinations, List.getElem?_map, List.getElem?_map]
  cases hj : m.sessions[j]? with
  | none =>
    have hlength : (m.call f).length ≤ j := length_call f ▸ List.getElem?_eq_none_iff.1 hj
    rw [List.getElem?_eq_none_iff.2 hlength]
  | some c =>
    rw [getElem?_call f hj, Option.map_some, Option.map_some]
    split_ifs
    · rw [hf]
    · rfl

namespace World

variable {w : World}

/-- The record is right. -/
structure Recorded (P : Platform) (packCmd : Request → Bytes) (w : World) : Prop where
  places : ∀ r p, .sendBuffer r (some p) ∈ w.actions → p.place < w.manager.sessions.length
  frames : ∀ (j : ℕ) (c : Connection), w.manager.sessions[j]? = some c →
    c.frames = w.actions.filterMap (ClientAction.buffer P packCmd j)
  destinations : w.manager.destinations = w.actions.filterMap ClientAction.destination

theorem place_of_recipient {m : SockSessionManager} {p : Recipient} (h : m.recipient = some p) :
    m.ptr = some p.place ∧ p.place < m.sessions.length := by
  obtain ⟨j, hj, hp⟩ := Option.bind_eq_some_iff.1 h
  obtain ⟨c, hc, rfl⟩ := Option.map_eq_some_iff.1 hp
  exact ⟨hj, (List.getElem?_eq_some_iff.1 hc).1⟩

theorem Recorded.sendBuffer (h : w.Recorded P packCmd) (r : Request) :
    (w.sendBuffer P packCmd r).Recorded P packCmd := by
  set g := fun s : SockSession => s.write P (BitVec.ofInt 32 (Proto.toID r.pn)) (packCmd r)
    (BitVec.ofNat 32 (packCmd r).length) with hg
  have hlen : (w.manager.call g).length = w.manager.sessions.length :=
    SockSessionManager.length_call g
  refine ⟨fun r' p hp => ?_, fun j c hc => ?_, ?_⟩
  · refine lt_of_lt_of_eq ?_ hlen.symm
    rcases List.mem_append.1 hp with hp | hp
    · exact h.places r' p hp
    · obtain ⟨-, hrec⟩ := ClientAction.sendBuffer.inj (List.mem_singleton.1 hp)
      exact (place_of_recipient hrec.symm).2
  · have hc : (w.manager.call g)[j]? = some c := hc
    have hlt : j < w.manager.sessions.length := hlen ▸ (List.getElem?_eq_some_iff.1 hc).1
    have hold := List.getElem?_eq_getElem hlt
    have hframes := h.frames j _ hold
    obtain rfl := Option.some.inj ((SockSessionManager.getElem?_call g hold).symm.trans hc)
    have hactions : (w.sendBuffer P packCmd r).actions.filterMap
        (ClientAction.buffer P packCmd j) = w.manager.sessions[j].frames ++
          (ClientAction.buffer P packCmd j (.sendBuffer r w.manager.recipient)).toList := by
      rw [hframes, World.sendBuffer, List.filterMap_append]
      cases hb : ClientAction.buffer P packCmd j (.sendBuffer r w.manager.recipient) <;> simp [hb]
    rw [hactions]
    split_ifs with hptr
    · -- the current session gets the request
      have hrec : w.manager.recipient = some ⟨j, w.manager.sessions[j].session.connectingServerStr,
          w.manager.sessions[j].connected⟩ := by
        rw [SockSessionManager.recipient, hptr, Option.bind_some, hold]
        rfl
      rw [hg, Connection.frames_after_write, hrec, ClientAction.buffer, if_pos rfl]
      rfl
    · have hnone : ClientAction.buffer P packCmd j (.sendBuffer r w.manager.recipient) = none := by
        cases hrec : w.manager.recipient with
        | none => rfl
        | some p =>
          have hplace := (place_of_recipient hrec).1
          exact if_neg fun hj => hptr (hplace.trans (congrArg some hj))
      rw [hnone]
      exact (List.append_nil _).symm
  · have hmanager : (w.manager.call g).map (fun c => c.session.destination) =
        w.manager.destinations :=
      w.manager.destinations_call fun c => Connection.destination_after_write c _ _ _
    have hactions : (w.sendBuffer P packCmd r).actions.filterMap ClientAction.destination =
        w.actions.filterMap ClientAction.destination := by
      simp [World.sendBuffer, ClientAction.destination]
    exact hmanager.trans (h.destinations.trans hactions.symm)

theorem Recorded.connectServer (h : w.Recorded P packCmd)
    (host port serverID description : String) :
    (w.connectServer P host port serverID description).Recorded P packCmd := by
  have hlen : (w.manager.call SockSession.close).length = w.manager.sessions.length :=
    SockSessionManager.length_call _
  have hactions (j : ℕ) : (w.connectServer P host port serverID description).actions.filterMap
      (ClientAction.buffer P packCmd j) =
        w.actions.filterMap (ClientAction.buffer P packCmd j) := by
    simp [World.connectServer, ClientAction.buffer]
  refine ⟨fun r p hp => ?_, fun j c hc => ?_, ?_⟩
  · have hp : ClientAction.sendBuffer r (some p) ∈ w.actions := by
      simpa [World.connectServer] using hp
    have hplace := h.places r p hp
    simp only [World.connectServer, SockSessionManager.connectTo, List.length_append, hlen]
    omega
  · rw [hactions]
    simp only [World.connectServer, SockSessionManager.connectTo] at hc
    by_cases hlt : j < w.manager.sessions.length
    · rw [List.getElem?_append_left (by omega)] at hc
      have hold := List.getElem?_eq_getElem hlt
      obtain rfl := Option.some.inj ((SockSessionManager.getElem?_call _ hold).symm.trans hc)
      rw [← h.frames j _ hold]
      split_ifs <;> rfl
    · -- nothing was written to the new session
      rw [List.getElem?_append_right (by omega), List.getElem?_singleton,
        Option.ite_none_right_eq_some, Option.some.injEq] at hc
      obtain ⟨-, rfl⟩ := hc
      symm
      refine List.filterMap_eq_nil_iff.2 fun a ha => ?_
      obtain _ | ⟨r, _ | p⟩ := a
      · rfl
      · rfl
      · have hplace := h.places r p ha
        exact if_neg (by omega)
  · have hold : (w.manager.call SockSession.close).map (fun c => c.session.destination) =
        w.manager.destinations := w.manager.destinations_call fun _ => rfl
    rw [World.connectServer, List.filterMap_append, ← h.destinations, ← hold]
    exact List.map_append

/-- The code of every handler keeps the record right. -/
theorem Recorded.body (f : Handler) (event : String) (more : List LuaMessage)
    (h : w.Recorded P packCmd) (d : EventDispatcher String Handler LuaMessage) :
    ((f.body P packCmd event more w).exec d).world.Recorded P packCmd := by
  have hsend (w : World) (hw : w.Recorded P packCmd) (r : Request) :
      ((HandlerCode.command w (NetworkCmd.send P packCmd w r)).exec d).world.Recorded P
        packCmd := by
    rw [NetworkCmd.send_eq]
    exact hw.sendBuffer r
  have hdecoded (code : LuaMessage → HandlerCode)
      (hcode : ∀ m, ((code m).exec d).world.Recorded P packCmd) :
      ((HandlerCode.decoded w more code).exec d).world.Recorded P packCmd := by
    cases more with
    | nil => exact h
    | cons m more => exact hcode m
  cases f with
  | handleWorldListNotify =>
    refine hdecoded _ fun m => ?_
    unfold GlobalMessageHolder.handleWorldListNotify
    split_ifs <;> exact h
  | handleLoginNotify | handleCreatePlayerNotify | handleUserRegister =>
    exact hdecoded _ fun _ => h
  | onWorldListNotify =>
    refine hdecoded _ fun m => ?_
    exact hsend { w with chosenServer := m.worldList.head? } ⟨h.places, h.frames, h.destinations⟩
      (.requestUserRegister Model.userName Model.password)
  | onDisconnected => exact h.connectServer _ _ _ _
  | onDirectoryConnected => exact hsend w h .requestWorldList
  | onWorldConnected =>
    exact hsend w h
      (.requestLogin Model.deviceID Model.userName Model.password Model.isAnonymous)
  | onUserRegistered =>
    refine hdecoded _ fun _ => ?_
    unfold ConnectorHandler.onUserRegistered
    split
    · exact h.connectServer _ _ _ _
    · exact h
    · exact h
  | onLoginNotify =>
    refine hdecoded _ fun m => ?_
    unfold ConnectorHandler.onLoginNotify
    split_ifs
    · exact hsend w h
        (.requestCreatePlayer Model.isAnonymous Model.deviceID Model.userName)
    · exact h
  | onCreatePlayerNotify => exact h

end World

namespace Client

variable {conf : LuaConf} {decode : String → Bytes → Decoded LuaMessage} {c c' : Client}

theorem recorded_step {e : ClientEvent} (h : c.world.Recorded P packCmd)
    (hs : c.step P conf packCmd decode e = some c') : c'.world.Recorded P packCmd := by
  cases e with
  | asio j e =>
    obtain ⟨m, hm, rfl⟩ := Option.map_eq_some_iff.1 hs
    obtain ⟨s, s', hasio, hj, hstep, rfl⟩ := SockSessionManager.step_asio hm
    refine ⟨fun r p hp => lt_of_lt_of_eq (h.places r p hp) List.length_set.symm,
      fun i s₁ hs₁ => ?_, ?_⟩
    swap
    · refine Eq.trans ?_ h.destinations
      obtain ⟨hlt, rfl⟩ := List.getElem?_eq_some_iff.1 hj
      rw [SockSessionManager.destinations, List.map_set, Connection.destination_step hstep,
        ← List.map_set, List.set_getElem_self]
      rfl
    by_cases hij : j = i
    · subst hij
      have hlt := (List.getElem?_eq_some_iff.1 hj).1
      obtain rfl := Option.some.inj ((List.getElem?_set_self hlt).symm.trans hs₁)
      rw [Connection.frames_step hasio hstep]
      exact h.frames j s hj
    · exact h.frames i s₁ ((List.getElem?_set_ne hij).symm.trans hs₁)
  | frameUpdate =>
    simp only [step, Option.ite_none_left_eq_some, Option.some.injEq] at hs
    obtain ⟨-, rfl⟩ := hs
    exact EventDispatcher.check_keeps (fun f event more _ d hw => hw.body f event more d) _ _ h

theorem recorded_of_run {es : List ClientEvent}
    (hrun : run (step P conf packCmd decode) start es = some c) : c.world.Recorded P packCmd := by
  have hstart : start.world.Recorded P packCmd :=
    ⟨by simp [start], by simp [start, SockSessionManager.start], rfl⟩
  exact run_invariant (I := fun c => c.world.Recorded P packCmd) (fun _ _ _ => recorded_step)
    hrun hstart

/-- **Where the sessions connect to.**  In every run, each session was created by a call of
`ConnectServer`, in order, with the arguments of this call. -/
theorem destinations_of_run {es : List ClientEvent}
    (hrun : run (step P conf packCmd decode) start es = some c) :
    c.world.manager.destinations = c.world.actions.filterMap ClientAction.destination :=
  (recorded_of_run hrun).destinations

/-- **The record of the requests.**  In every run, what each session was given to write is what the
record says: the requests written to it, in order. -/
theorem frames_of_run {es : List ClientEvent}
    (hrun : run (step P conf packCmd decode) start es = some c) {j : ℕ} {s : Connection}
    (hs : c.world.manager.sessions[j]? = some s) :
    s.frames = c.world.actions.filterMap (ClientAction.buffer P packCmd j) :=
  (recorded_of_run hrun).frames j s hs

end Client

end SockTestProgram
