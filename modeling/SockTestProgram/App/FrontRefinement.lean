import SockTestProgram.App.Front
import SockTestProgram.Lib.Run

/-!
# The client refines its front

Every event of the client is matched by events of the front: a completion by at most one, a frame by
one `handle` for each event that its `check` handles.
-/

open Lts

namespace SockTestProgram

variable {P : Platform} {conf : LuaConf} {packCmd : Request → Bytes}
  {decode : String → Bytes → Decoded LuaMessage}

/-! ## Sessions -/

theorem Server.notice_onConnected (server : Server) :
    Upcall.notice decode (.onConnected server.id) = some (.connected server) := by
  cases server <;> rfl

theorem Server.checkString_id (server : Server) : checkString server.id = server.id := by
  cases server <;> decide +kernel

namespace Connection

variable {c c' : Connection} {p : Peer}

/-- The session `c` as a peer. -/
structure Shows (decode : String → Bytes → Decoded LuaMessage) (c : Connection) (p : Peer) :
    Prop where
  polite : c.Polite
  sized : c.Sized
  server : c.session.connectingServerStr = p.server.id
  connected : c.connected = p.connected
  told : c.told decode = p.told
  greeted : c.upcalls ≠ [] → p.told ≠ []

/-- What an event of a session tells the handlers. -/
def notice (P : Platform) (decode : String → Bytes → Decoded LuaMessage) (c : Connection)
    (e : Event) : Option Notice :=
  (c.call P e).bind (Upcall.notice decode)

theorem Shows.step {e : Event} (h : c.Shows decode p) (hs : c.step P e = some c') :
    c'.Shows decode ⟨p.server, c'.connected, p.told ++ (c.notice P decode e).toList⟩ := by
  obtain ⟨hup, hserver, -⟩ := upcalls_step hs
  have htold : c'.told decode = p.told ++ (c.notice P decode e).toList := by
    rw [Connection.told, hup, List.filterMap_append, ← h.told]
    cases hcall : c.call P e with
    | none => simp [notice, hcall, Connection.told]
    | some u => cases hu : Upcall.notice decode u <;> simp [notice, hcall, hu, Connection.told]
  refine ⟨polite_step h.polite hs, sized_step h.sized hs, hserver.trans h.server, rfl, htold,
    fun hne => ?_⟩
  by_cases hnil : c.upcalls = []
  · -- the first call tells that the session is connected
    cases hcall : c.call P e with
    | none => simp [hup, hnil, hcall] at hne
    | some u =>
      obtain ⟨-, hu⟩ := h.polite.call hcall
      cases u with
      | onConnected serverID =>
        obtain ⟨rfl, -⟩ := hu
        simp [notice, hcall, h.server, Server.notice_onConnected]
      | callback typecode payload => exact absurd hnil hu
  · simp [h.greeted hnil]

/-- What a session tells is what its peer may tell. -/
theorem Shows.mayTell {e : Event} {n : Notice} (h : c.Shows decode p)
    (hn : c.notice P decode e = some n) : p.connected = true ∧ Front.MayTell p n := by
  obtain ⟨u, hcall, hu⟩ := Option.bind_eq_some_iff.1 hn
  obtain ⟨hconn, hcase⟩ := h.polite.call hcall
  refine ⟨h.connected ▸ hconn, ?_⟩
  cases u with
  | onConnected serverID =>
    obtain ⟨rfl, hnil⟩ := hcase
    rw [h.server, Server.notice_onConnected] at hu
    obtain rfl := Option.some.inj hu
    exact ⟨rfl, by rw [← h.told, Connection.told, hnil]; rfl⟩
  | callback typecode payload =>
    obtain ⟨r, -, hr⟩ := Option.bind_eq_some_iff.1 hu
    split at hr
    · obtain rfl := Option.some.inj hr
      exact h.greeted hcase
    · cases hr

theorem shows_connecting (host port description : String) (server : Server) :
    (connecting P host port server.id description).Shows decode ⟨server, false, []⟩ where
  polite := polite_connecting _ _ _ _
  sized := sized_connecting _ _ _ _
  server := rfl
  connected := rfl
  told := rfl
  greeted h := absurd rfl h

end Connection

/-! ## The commands -/

/-- A method of the session that only adds to its outstanding writes and closes. -/
theorem Connection.Shows.of_eq {c c' : Connection} {p : Peer} (h : c.Shows decode p)
    (hr : c'.reads = c.reads) (hs : c'.session = c.session) (hu : c'.upcalls = c.upcalls)
    (hc : c'.connected = c.connected) : c'.Shows decode p where
  polite := h.polite.of_eq (h.polite.live.of_eq hr hs hc) (by rw [hr]) hu hc
  sized := h.sized.of_eq (h.sized.chain.of_eq hr (by rw [hs])) (by rw [hs]) hu
  server := hs ▸ h.server
  connected := hc.trans h.connected
  told := by rw [Connection.told, hu]; exact h.told
  greeted := by rw [hu]; exact h.greeted

namespace World

variable {w : World} {f : Front}

/-- The state of the handlers, except for the queue. -/
structure Shows (decode : String → Bytes → Decoded LuaMessage) (w : World) (f : Front) : Prop where
  length : w.manager.sessions.length = f.peers.length
  peers : ∀ (j : ℕ) (c : Connection) (p : Peer),
    w.manager.sessions[j]? = some c → f.peers[j]? = some p → c.Shows decode p
  current : w.manager.ptr = f.current
  chosenServer : w.chosenServer = f.chosenServer
  actions : w.actions = f.actions

theorem Shows.recipient (h : w.Shows decode f) : w.manager.recipient = f.recipient := by
  rw [SockSessionManager.recipient, Front.recipient, h.current]
  refine congrArg _ (funext fun j => ?_)
  cases hc : w.manager.sessions[j]? with
  | none =>
    have hp : f.peers[j]? = none := by
      rw [List.getElem?_eq_none_iff] at hc ⊢
      exact h.length ▸ hc
    simp [hp]
  | some c =>
    have hlt : j < f.peers.length := h.length ▸ (List.getElem?_eq_some_iff.1 hc).1
    have hp := List.getElem?_eq_getElem hlt
    have hshows := h.peers j c _ hc hp
    simp [hp, hshows.server, hshows.connected]

/-- What `connectTo` and `write` call on the current session does not show. -/
theorem Shows.call (h : w.Shows decode f) {g : SockSession → SockSession × List Effect}
    (hg : ∀ (c : Connection) (p : Peer), c.Shows decode p → (c.after (g c.session)).Shows decode p)
    {j : ℕ} {c : Connection} {p : Peer} (hc : (w.manager.call g)[j]? = some c)
    (hp : f.peers[j]? = some p) : c.Shows decode p := by
  have hlt : j < w.manager.sessions.length := by
    rw [← SockSessionManager.length_call g]
    exact (List.getElem?_eq_some_iff.1 hc).1
  have hold := List.getElem?_eq_getElem hlt
  have hshows := h.peers j _ p hold hp
  obtain rfl := Option.some.inj ((SockSessionManager.getElem?_call g hold).symm.trans hc)
  split_ifs
  · exact hg _ p hshows
  · exact hshows

theorem Shows.write (P : Platform) (h : w.Shows decode f) (typeCode : BitVec 32) (msg : Bytes) :
    ({ w with manager := w.manager.write P typeCode msg } : World).Shows decode f := by
  set g := fun s : SockSession => s.write P typeCode msg (BitVec.ofNat 32 msg.length) with hg
  have hcall (c : Connection) (p : Peer) (hshows : c.Shows decode p) :
      (c.after (g c.session)).Shows decode p := by
    rw [hg, Connection.after_write]
    split <;> exact hshows.of_eq rfl rfl rfl rfl
  exact ⟨(SockSessionManager.length_call g).trans h.length, fun j c p hc hp => h.call hcall hc hp,
    h.current, h.chosenServer, h.actions⟩

theorem Shows.send (P : Platform) (packCmd : Request → Bytes) (h : w.Shows decode f) (r : Request) :
    (w.sendBuffer P packCmd r).Shows decode (f.send r) := by
  have hwrite := h.write P (BitVec.ofInt 32 (Proto.toID r.pn)) (packCmd r)
  exact ⟨hwrite.length, hwrite.peers, hwrite.current, hwrite.chosenServer, by
    simp only [sendBuffer, Front.send, h.actions, h.recipient]⟩

theorem Shows.connect (P : Platform) (h : w.Shows decode f) (server : Server)
    (host port description : String) :
    (w.connectServer P host port server.id description).Shows decode
      (f.connect server host port description) where
  length := by
    simp [connectServer, SockSessionManager.connectTo, SockSessionManager.length_call, h.length,
      Front.connect]
  peers j c p hc hp := by
    have hlen : (w.manager.call SockSession.close).length = f.peers.length :=
      (SockSessionManager.length_call _).trans h.length
    simp only [connectServer, SockSessionManager.connectTo] at hc
    simp only [Front.connect] at hp
    by_cases hlt : j < f.peers.length
    · rw [List.getElem?_append_left (by omega)] at hc
      rw [List.getElem?_append_left hlt] at hp
      exact h.call (fun c p hshows => hshows.of_eq rfl rfl rfl rfl) hc hp
    · rw [List.getElem?_append_right (by omega), hlen] at hc
      rw [List.getElem?_append_right (by omega)] at hp
      simp only [List.getElem?_singleton, Option.ite_none_right_eq_some, Option.some.injEq]
        at hc hp
      obtain ⟨-, rfl⟩ := hc
      obtain ⟨-, rfl⟩ := hp
      rw [server.checkString_id]
      exact Connection.shows_connecting _ _ _ _
  current := by
    simp [connectServer, SockSessionManager.connectTo, h.length, Front.connect, Front.current]
  chosenServer := h.chosenServer
  actions := by rw [connectServer, h.actions]; rfl

end World

/-! ## The handlers of an event -/

/-- The handlers registered for an event. -/
def Notice.chain : Notice → List Handler
  | .disconnected => [.onDisconnected]
  | .connected .directory => [.onDirectoryConnected]
  | .connected .world => [.onWorldConnected]
  | .answer .worldList _ => [.handleWorldListNotify, .onWorldListNotify]
  | .answer .userRegister _ => [.handleUserRegister, .onUserRegistered]
  | .answer .login _ => [.handleLoginNotify, .onLoginNotify]
  | .answer .createPlayer _ => [.handleCreatePlayerNotify, .onCreatePlayerNotify]

theorem handlers_initDispatcher (n : Notice) :
    initDispatcher.handlers n.event.1 = some n.chain := by
  obtain _ | server | ⟨r, m⟩ := n
  · rfl
  · cases server <;> rfl
  · cases r <;> rfl

/-- The handlers `fs` of a closure, called in turn, leave the dispatcher alone and end like this. -/
def Calls (P : Platform) (packCmd : Request → Bytes) (ev : Ev String Handler LuaMessage)
    (fs : List Handler) (w : World) (ending : Ending) (w' : World) : Prop :=
  ∀ place d, (callAll (Handler.body P packCmd) ev place fs d w).dispatcher = d ∧
    (callAll (Handler.body P packCmd) ev place fs d w).ending = ending ∧
    (callAll (Handler.body P packCmd) ev place fs d w).world = w'

namespace Calls

variable {ev : Ev String Handler LuaMessage} {f : Handler} {fs : List Handler}
  {w w₁ w' : World} {ending : Ending}

theorem nil : Calls P packCmd ev [] w .returned w := fun _ _ => ⟨rfl, rfl, rfl⟩

theorem done (hf : f.body P packCmd ev.event ev.more w = .done w₁)
    (h : Calls P packCmd ev fs w₁ ending w') : Calls P packCmd ev (f :: fs) w ending w' := by
  intro place d
  rw [callAll, hf]
  exact h (place + 1) d

theorem raise (hf : f.body P packCmd ev.event ev.more w = .raise w₁) :
    Calls P packCmd ev (f :: fs) w .raised w₁ := by
  intro place d
  rw [callAll, hf]
  exact ⟨rfl, rfl, rfl⟩

end Calls

/-- What the handlers of an event do. -/
theorem calls_handle (P : Platform) (packCmd : Request → Bytes) {w : World} {f : Front}
    (h : w.Shows decode f) (n : Notice)
    {ev : Ev String Handler LuaMessage} (hev : ev.dispatched = n.event) :
    match f.handle n with
    | some f' => ∃ w' : World, w'.Shows decode f' ∧ Calls P packCmd ev n.chain w .returned w'
    | none => Calls P packCmd ev n.chain w .raised w := by
  obtain ⟨serial, event, more, t⟩ := ev
  obtain ⟨rfl, rfl⟩ := Prod.mk.inj hev
  obtain _ | server | ⟨r, m⟩ := n
  · exact ⟨_, h.connect P .directory _ _ _, .done rfl .nil⟩
  · cases server with
    | directory => exact ⟨_, h.send P packCmd _, .done rfl .nil⟩
    | world => exact ⟨_, h.send P packCmd _, .done rfl .nil⟩
  · cases r with
    | worldList =>
      by_cases hm : m.worldList.any Option.isNone = true
      · simp only [Front.handle, if_pos hm]
        exact .raise (if_pos hm)
      · simp only [Front.handle, if_neg hm]
        have hchosen : ({ w with chosenServer := m.worldList.head? } : World).Shows decode
            { f with chosenServer := m.worldList.head? } :=
          ⟨h.length, h.peers, h.current, rfl, h.actions⟩
        exact ⟨_, hchosen.send P packCmd _, .done (if_neg hm) (.done rfl .nil)⟩
    | userRegister =>
      have hbody (event : String) : Handler.onUserRegistered.body P packCmd event [m] w =
          ConnectorHandler.onUserRegistered P w := rfl
      rw [ConnectorHandler.onUserRegistered, h.chosenServer] at hbody
      cases hs : f.chosenServer with
      | none =>
        rw [hs] at hbody
        simp only [Front.handle, hs]
        exact ⟨w, h, .done rfl (.done (hbody _) .nil)⟩
      | some chosen =>
        rw [hs] at hbody
        simp only [Front.handle, hs]
        cases chosen with
        | none => exact .done rfl (.raise (hbody _))
        | some server => exact ⟨_, h.connect P .world _ _ _, .done rfl (.done (hbody _) .nil)⟩
    | login =>
      by_cases hm : "ET_NO_DATA" = m.exception
      · simp only [Front.handle, if_pos hm]
        exact ⟨_, h.send P packCmd _, .done rfl (.done (if_pos hm) .nil)⟩
      · simp only [Front.handle, if_neg hm]
        exact ⟨w, h, .done rfl (.done (if_neg hm) .nil)⟩
    | createPlayer => exact ⟨w, h, .done rfl (.done rfl .nil)⟩

/-! ## The queue -/

theorem Front.handle_queue {f f' : Front} {n : Notice} (h : f.handle n = some f') :
    f'.queue = f.queue := by
  cases handled_of_handle h <;> rfl

namespace Client

/-- The client `c` as a front. -/
structure Shows (decode : String → Bytes → Decoded LuaMessage) (c : Client) (f : Front) : Prop where
  world : c.world.Shows decode f
  handlers : c.dispatcher.handlers = initDispatcher.handlers
  queue : c.dispatcher.eventCache.map Ev.dispatched = f.queue.map Notice.event
  chains : ∀ ev ∈ c.dispatcher.eventCache, initDispatcher.handlers ev.event = some ev.t

variable {c c' : Client} {f : Front}

theorem shows_start : start.Shows decode Front.start where
  world := ⟨rfl, fun _ _ _ h => by simp [start, SockSessionManager.start] at h, rfl, rfl, rfl⟩
  handlers := rfl
  queue := rfl
  chains ev hev := by
    obtain rfl := List.mem_singleton.1 hev
    rfl

/-- `check` handles events of the queue one after another. -/
theorem check_shows (n : ℕ) {d : EventDispatcher String Handler LuaMessage} {w : World}
    (h : Shows decode ⟨d, w⟩ f) : ∃ fs f', run Front.step f fs = some f' ∧
      (∀ e ∈ fs, e = .handle) ∧
      Shows decode ⟨(d.check (Handler.body P packCmd) n w).dispatcher,
        (d.check (Handler.body P packCmd) n w).world⟩ f' := by
  induction n generalizing d w f with
  | zero => exact ⟨[], f, rfl, by simp, h⟩
  | succ n ih =>
    cases hcache : d.eventCache with
    | nil =>
      refine ⟨[], f, rfl, by simp, ?_⟩
      simpa [EventDispatcher.check, hcache] using h
    | cons now rest =>
      have hqueue := h.queue
      simp only [hcache, List.map_cons] at hqueue
      obtain ⟨n', queue, hq, hnow, hrest⟩ := List.map_eq_cons_iff.1 hqueue.symm
      -- the closure was dispatched for the handlers of the event
      have ht : now.t = n'.chain := by
        have hchain := h.chains now (by simp [hcache])
        have hevent : now.event = n'.event.1 := congrArg Prod.fst hnow.symm
        rw [hevent, handlers_initDispatcher] at hchain
        exact (Option.some.inj hchain).symm
      have hworld : w.Shows decode { f with queue := queue } :=
        ⟨h.world.length, h.world.peers, h.world.current, h.world.chosenServer, h.world.actions⟩
      have hcalls := calls_handle P packCmd hworld n' hnow.symm
      rw [← ht] at hcalls
      cases hf : ({ f with queue := queue } : Front).handle n' with
      | none =>
        rw [hf] at hcalls
        obtain ⟨hd, hending, hw⟩ := hcalls 0 d
        refine ⟨[], f, rfl, by simp, ?_⟩
        simpa only [EventDispatcher.check, hcache, Ev.run, hending, hd, hw] using h
      | some f' =>
        rw [hf] at hcalls
        obtain ⟨w', hshows, hcalls⟩ := hcalls
        obtain ⟨hd, hending, hw⟩ := hcalls 0 d
        have hnext : Shows decode ⟨{ d with eventCache := rest }, w'⟩ f' :=
          ⟨hshows, h.handlers, by rw [Front.handle_queue hf]; exact hrest.symm,
            fun ev hev => h.chains ev (by simp [hcache, show ev ∈ rest from hev])⟩
        obtain ⟨fs, f'', hrun, hfs, hend⟩ := ih hnext
        refine ⟨.handle :: fs, f'', ?_, by simpa using hfs, ?_⟩
        · exact run_cons_eq_some_iff.2 ⟨f', by simpa only [Front.step, hq] using hf, hrun⟩
        · simpa only [EventDispatcher.check, hcache, Ev.run, hending, hd, hw, List.tail_cons]
            using hend

/-! ## The sessions -/

theorem eventOf_eq (typecode : BitVec 32) (payload : Bytes) :
    eventOf Proto.toID decode typecode.toInt payload =
      (Upcall.notice decode (.callback typecode payload)).map Notice.event := by
  rw [eventOf, ← Response.map_rule_all, List.find?_map, Option.bind_map, Upcall.notice,
    Option.map_bind]
  refine congrArg _ (funext fun r => ?_)
  simp only [Function.comp_apply, Rule.decoded]
  cases decode r.rule.proto payload <;> rfl

/-- The events that a call into Lua puts in the queue are what it tells the handlers. -/
theorem queued_eq {d : EventDispatcher String Handler LuaMessage}
    (hd : d.handlers = initDispatcher.handlers) {u : Upcall}
    (hu : ∀ serverID, u = .onConnected serverID → ∃ server : Server, serverID = server.id) :
    u.queued Proto.toID decode d = (u.notice decode).toList.map Notice.event := by
  cases u with
  | onConnected serverID =>
    obtain ⟨server, rfl⟩ := hu _ rfl
    have hchain : initDispatcher.handlers server.id = some _ :=
      handlers_initDispatcher (.connected server)
    rw [Server.notice_onConnected, Upcall.queued, hd, hchain]
    rfl
  | callback typecode payload =>
    rw [Upcall.queued, eventOf_eq]
    cases Upcall.notice decode (.callback typecode payload) <;> rfl

theorem distinctTypeCodes_toID : DistinctTypeCodes Proto.toID := by decide +kernel

theorem registered_init {d : EventDispatcher String Handler LuaMessage}
    (hd : d.handlers = initDispatcher.handlers) : Registered Proto.toID d := by
  rw [Registered, hd]
  have h : Registered Proto.toID initDispatcher := by decide +kernel
  exact h

theorem shows_set {w : World} (h : w.Shows decode f) {j : ℕ} {s : Connection} {p : Peer}
    (hs : s.Shows decode p) :
    World.Shows decode { w with
      manager := { w.manager with sessions := w.manager.sessions.set j s } }
      { f with peers := f.peers.set j p } where
  length := by simp [h.length]
  peers i s' p' hs' hp' := by
    by_cases hij : j = i
    · subst hij
      have hlt := (List.getElem?_eq_some_iff.1 hs').1
      have hlt' := (List.getElem?_eq_some_iff.1 hp').1
      rw [List.length_set] at hlt hlt'
      rw [List.getElem?_set_self hlt] at hs'
      rw [List.getElem?_set_self hlt'] at hp'
      exact Option.some.inj hs' ▸ Option.some.inj hp' ▸ hs
    · rw [List.getElem?_set_ne hij] at hs' hp'
      exact h.peers i s' p' hs' hp'
  current := by simpa [Front.current] using h.current
  chosenServer := h.chosenServer
  actions := h.actions

/-- Events that are put in the queue show there. -/
theorem Shows.append (h : c.Shows decode f) {d : EventDispatcher String Handler LuaMessage}
    {ns : List Notice} (hd : Appends c.dispatcher d (ns.map Notice.event)) {w : World} {f' : Front}
    (hw : w.Shows decode f') (hqueue : f'.queue = f.queue ++ ns) : Shows decode ⟨d, w⟩ f' := by
  obtain ⟨new, hcache, hnew, hchains⟩ := hd.queue
  refine ⟨hw, hd.handlers.trans h.handlers, ?_, fun ev hev => ?_⟩
  · simp only [hcache, hqueue, List.map_append, h.queue, hnew]
  · rcases List.mem_append.1 (hcache ▸ hev) with hold | hev
    · exact h.chains ev hold
    · exact h.handlers ▸ hchains ev hev

/-- The call into Lua of an event of a session puts in the queue what it tells the handlers. -/
theorem appends_call (conf : LuaConf) (h : c.Shows decode f) {s s' : Connection} {p : Peer}
    (hshows : s.Shows decode p) {e : Event} (hs : s.step P e = some s') :
    Appends c.dispatcher
      ((s.call P e).toList.foldl (Upcall.deliver P.heap conf Proto.toID decode) c.dispatcher)
      ((s.notice P decode e).toList.map Notice.event) := by
  cases hcall : s.call P e with
  | none => simpa [Connection.notice, hcall] using Appends.refl c.dispatcher
  | some u =>
    obtain ⟨hup, -, -⟩ := Connection.upcalls_step hs
    have hfits : u.Fits := (Connection.sized_step hshows.sized hs).payload u (by simp [hup, hcall])
    have hserver (serverID : String) (hu : u = .onConnected serverID) :
        ∃ server : Server, serverID = server.id := by
      subst hu
      obtain ⟨-, rfl, -⟩ := hshows.polite.call hcall
      exact ⟨p.server, hshows.server⟩
    have happends := u.appends_deliver P.heap conf distinctTypeCodes_toID decode
      (registered_init h.handlers) hfits
    rw [queued_eq h.handlers hserver] at happends
    simpa [Connection.notice, hcall] using happends

/-- A completion is at most one event of the front. -/
theorem asio_front (h : c.Shows decode f) {j : ℕ} {e : Event}
    (hs : c.step P conf packCmd decode (.asio j e) = some c') :
    ∃ fs f', run Front.step f fs = some f' ∧ c'.Shows decode f' ∧ (fs = [] ∨ ∃ e, fs = [e]) := by
  obtain ⟨m, hm, rfl⟩ := Option.map_eq_some_iff.1 hs
  obtain ⟨s, s', -, hj, hstep, rfl⟩ := SockSessionManager.step_asio hm
  have hlt := (List.getElem?_eq_some_iff.1 hj).1
  obtain ⟨p, hp⟩ : ∃ p, f.peers[j]? = some p :=
    ⟨_, List.getElem?_eq_getElem (h.world.length ▸ hlt)⟩
  have hshows := h.world.peers j s p hj hp
  have hshows' := hshows.step hstep
  obtain ⟨hup, -, hconn⟩ := Connection.upcalls_step hstep
  have hmore : (SockSessionManager.upcalls { c.world.manager with
        sessions := c.world.manager.sessions.set j s' } j).drop (c.world.manager.upcalls j).length =
      (s.call P e).toList := by
    simp [SockSessionManager.upcalls, hj, List.getElem?_set_self hlt, hup]
  rw [hmore]
  have happends := appends_call conf h hshows hstep
  cases hn : s.notice P decode e with
  | some n =>
    -- the session tells the handlers, and was connected before
    obtain ⟨hpc, hmay⟩ := hshows.mayTell hn
    have hsame : s'.connected = p.connected := by
      rcases hconn with hconn | ⟨i, rfl, -⟩
      · exact hconn.trans hshows.connected
      · cases hn
    rw [hn, hsame] at hshows'
    rw [hn] at happends
    refine ⟨[.tell j n], { f with
      peers := f.peers.set j { p with told := p.told ++ [n] }
      queue := f.queue ++ [n] }, ?_, ?_, .inr ⟨_, rfl⟩⟩
    · simp [run_cons, Front.step, hp, hpc, hmay]
    · have hw := shows_set h.world (j := j) hshows'
      exact h.append happends ⟨hw.length, hw.peers, hw.current, hw.chosenServer, hw.actions⟩ rfl
  | none =>
    rw [hn, Option.toList_none, List.append_nil] at hshows'
    rw [hn] at happends
    have hw := shows_set h.world (j := j) hshows'
    rcases hconn with hconn | ⟨i, rfl, hconn⟩
    · refine ⟨[], f, rfl, h.append happends ?_ (List.append_nil _).symm, .inl rfl⟩
      have hset : f.peers.set j ⟨p.server, s'.connected, p.told⟩ = f.peers := by
        rw [hconn, hshows.connected]
        obtain ⟨hlt', rfl⟩ := List.getElem?_eq_some_iff.1 hp
        exact List.set_getElem_self hlt'
      rwa [hset] at hw
    · rw [hconn] at hw
      exact ⟨[.connected j], _, by simp [run_cons, Front.step, hp],
        h.append happends hw (List.append_nil _).symm, .inr ⟨_, rfl⟩⟩

/-- **Refinement.**  An event of the client is events of its front: one or none for a completion,
and for a frame one `handle` for each event handled. -/
theorem step_front (h : c.Shows decode f) {e : ClientEvent}
    (hs : c.step P conf packCmd decode e = some c') :
    ∃ fs f', run Front.step f fs = some f' ∧ c'.Shows decode f' ∧
      ((∀ e ∈ fs, e = .handle) ∨ ∃ e, fs = [e]) := by
  cases e with
  | asio j e =>
    obtain ⟨fs, f', hrun, hshows, rfl | he⟩ := asio_front h hs
    · exact ⟨[], f', hrun, hshows, .inl (by simp)⟩
    · exact ⟨fs, f', hrun, hshows, .inr he⟩
  | frameUpdate =>
    simp only [step, Option.ite_none_left_eq_some, Option.some.injEq] at hs
    obtain ⟨-, rfl⟩ := hs
    obtain ⟨fs, f', hrun, hfs, hshows⟩ := check_shows _ h
    exact ⟨fs, f', hrun, hshows, .inl hfs⟩

/-- Every run of the client is one of its front. -/
theorem run_front {es : List ClientEvent}
    (hs : run (step P conf packCmd decode) start es = some c) :
    ∃ fs f, run Front.step Front.start fs = some f ∧ c.Shows decode f := by
  obtain ⟨fs, f, hrun, -, hshows⟩ := run_simulation (P := fun _ _ => True) (Q := fun _ _ => True)
    (fun c f e c' h _ hs => by
      obtain ⟨fs, f', hrun, hshows, -⟩ := step_front h hs
      exact ⟨fs, f', hrun, allSteps_of_forall (fun _ _ _ => trivial) _, hshows⟩) hs shows_start
    (allSteps_of_forall (fun _ _ _ => trivial) _)
  exact ⟨fs, f, hrun, hshows⟩

end Client

end SockTestProgram
