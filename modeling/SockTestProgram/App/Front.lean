import SockTestProgram.App.Client

/-!
# What the handlers see of the network

`Front` is the client without its bytes: of each session only the server it was opened for, whether
it is connected and what it has told Lua (`Peer`), and of each queued event only which one it is
(`Notice`).  A handler is a function on it (`Front.handle`).  `App/FrontRefinement.lean` proves that
every run of the client is one of its front (`run_front`).
-/

open Lts

namespace SockTestProgram

/-- The servers that sessions are opened for. -/
inductive Server
  | directory
  | world
  deriving DecidableEq, Repr

/-- The event that tells that a session is connected. -/
def Server.id : Server → String
  | .directory => ModelEvent.directoryConnected
  | .world => ModelEvent.worldConnected

/-- The responses that a rule exists for. -/
inductive Response
  | worldList
  | userRegister
  | login
  | createPlayer
  deriving DecidableEq, Repr

namespace Response

def rule : Response → Rule
  | .worldList => makeRule Proto.toID "ResponseWorldList" ModelEvent.worldListNotify
  | .userRegister => makeRule Proto.toID "ResponseUserRegister"
      ModelEvent.directoryRegisterUserNotify
  | .login => makeRule Proto.toID "ResponseLogin" ModelEvent.loginNotify
  | .createPlayer => makeRule Proto.toID "ResponseCreatePlayer" ModelEvent.createPlayerNotify

def all : List Response := [.worldList, .userRegister, .login, .createPlayer]

theorem map_rule_all : all.map rule = distributeRules Proto.toID := rfl

end Response

/-- The response to a request. -/
def Request.response : Request → Response
  | .requestWorldList => .worldList
  | .requestUserRegister _ _ => .userRegister
  | .requestLogin _ _ _ _ => .login
  | .requestCreatePlayer _ _ _ => .createPlayer

/-- An event and its arguments. -/
inductive Notice
  | disconnected
  | connected (server : Server)
  | answer (r : Response) (m : LuaMessage)
  deriving DecidableEq, Repr

def Notice.event : Notice → String × List LuaMessage
  | .disconnected => (ModelEvent.disconnectedFromServer, [])
  | .connected server => (server.id, [])
  | .answer r m => (r.rule.event, [m])

/-- What a call into Lua tells the handlers, if anything. -/
def Upcall.notice (decode : String → Bytes → Decoded LuaMessage) : Upcall → Option Notice
  | .onConnected serverID =>
    ([Server.directory, Server.world].find? (·.id = serverID)).map .connected
  | .callback typecode payload =>
    (Response.all.find? (·.rule.typeCode = typecode.toInt)).bind fun r =>
      match decode r.rule.proto payload with
      | .message m => some (.answer r m)
      | _ => none

/-- What a session has told the handlers. -/
def Connection.told (decode : String → Bytes → Decoded LuaMessage) (c : Connection) : List Notice :=
  c.upcalls.filterMap (Upcall.notice decode)

/-- A session as the handlers see it. -/
structure Peer where
  server : Server
  connected : Bool
  told : List Notice
  deriving DecidableEq, Repr

structure Front where
  /-- The sessions; the last one is the current one. -/
  peers : List Peer
  queue : List Notice
  chosenServer : Option (Option WorldInfo)
  actions : List ClientAction
  deriving DecidableEq, Repr

namespace Front

def start : Front := ⟨[], [.disconnected], none, []⟩

/-- The place of the current session. -/
def current (f : Front) : Option ℕ := if f.peers = [] then none else some (f.peers.length - 1)

def recipient (f : Front) : Option Recipient :=
  f.current.bind fun j => f.peers[j]?.map fun p => ⟨j, p.server.id, p.connected⟩

def connect (f : Front) (server : Server) (host port description : String) : Front :=
  { f with
    peers := f.peers ++ [⟨server, false, []⟩]
    actions := f.actions ++ [.connectServer host port server.id description] }

def send (f : Front) (r : Request) : Front :=
  { f with actions := f.actions ++ [.sendBuffer r f.recipient] }

/-- The handlers of an event, `none` if one of them raises an error. -/
def handle (f : Front) : Notice → Option Front
  | .disconnected => some (f.connect .directory Model.directoryServer.host
      Model.directoryServer.port "directory")
  | .connected .directory => some (f.send .requestWorldList)
  | .connected .world =>
    some (f.send (.requestLogin Model.deviceID Model.userName Model.password Model.isAnonymous))
  | .answer .worldList m =>
    if m.worldList.any Option.isNone then none
    else
      let f := { f with chosenServer := m.worldList.head? }
      some (f.send (.requestUserRegister Model.userName Model.password))
  | .answer .userRegister _ =>
    match f.chosenServer with
    | some (some server) => some (f.connect .world server.host (toString server.port) "world")
    | some none => none
    | none => some f
  | .answer .login m =>
    if "ET_NO_DATA" = m.exception then
      some (f.send (.requestCreatePlayer Model.isAnonymous Model.deviceID Model.userName))
    else some f
  | .answer .createPlayer _ => some f

/-- A session that has told nothing yet tells first that it is connected; afterwards it passes
answers on. -/
def MayTell (p : Peer) : Notice → Prop
  | .disconnected => False
  | .connected server => server = p.server ∧ p.told = []
  | .answer _ _ => p.told ≠ []

instance (p : Peer) : DecidablePred (MayTell p)
  | .disconnected => isFalse id
  | .connected _ => inferInstanceAs (Decidable (_ ∧ _))
  | .answer _ _ => inferInstanceAs (Decidable (_ ≠ _))

end Front

inductive FrontEvent
  /-- the session at place `j` is connected -/
  | connected (j : ℕ)
  /-- the session at place `j` tells the handlers -/
  | tell (j : ℕ) (n : Notice)
  /-- the event at the head of the queue is handled -/
  | handle
  deriving DecidableEq, Repr

namespace Front

def step (f : Front) : FrontEvent → Option Front
  | .connected j =>
    f.peers[j]?.map fun p => { f with peers := f.peers.set j { p with connected := true } }
  | .tell j n =>
    match f.peers[j]? with
    | some p =>
      if p.connected = true ∧ MayTell p n then
        some { f with
          peers := f.peers.set j { p with told := p.told ++ [n] }
          queue := f.queue ++ [n] }
      else none
    | none => none
  | .handle =>
    match f.queue with
    | n :: rest => { f with queue := rest }.handle n
    | [] => none

variable {f f' : Front}

/-- What a step can be. -/
inductive Stepped (f : Front) : FrontEvent → Front → Prop
  | connected (j : ℕ) (p : Peer) (hp : f.peers[j]? = some p) :
    Stepped f (.connected j) { f with peers := f.peers.set j { p with connected := true } }
  | tell (j : ℕ) (n : Notice) (p : Peer) (hp : f.peers[j]? = some p) (hc : p.connected = true)
    (hn : MayTell p n) :
    Stepped f (.tell j n) { f with
      peers := f.peers.set j { p with told := p.told ++ [n] }
      queue := f.queue ++ [n] }
  | handle (n : Notice) (rest : List Notice) (f' : Front) (hq : f.queue = n :: rest)
    (hf : { f with queue := rest }.handle n = some f') : Stepped f .handle f'

/-- What the handlers of an event can do. -/
inductive Handled (f : Front) : Notice → Front → Prop
  | disconnected :
    Handled f .disconnected (f.connect .directory Model.directoryServer.host
      Model.directoryServer.port "directory")
  | directoryConnected : Handled f (.connected .directory) (f.send .requestWorldList)
  | worldConnected : Handled f (.connected .world)
      (f.send (.requestLogin Model.deviceID Model.userName Model.password Model.isAnonymous))
  | worldList (m : LuaMessage) (hm : ¬ m.worldList.any Option.isNone = true) :
    Handled f (.answer .worldList m) (({ f with chosenServer := m.worldList.head? } : Front).send
      (.requestUserRegister Model.userName Model.password))
  | switch (m : LuaMessage) (server : WorldInfo) (hs : f.chosenServer = some (some server)) :
    Handled f (.answer .userRegister m)
      (f.connect .world server.host (toString server.port) "world")
  | stay (m : LuaMessage) (hs : f.chosenServer = none) : Handled f (.answer .userRegister m) f
  | newPlayer (m : LuaMessage) (hm : "ET_NO_DATA" = m.exception) :
    Handled f (.answer .login m)
      (f.send (.requestCreatePlayer Model.isAnonymous Model.deviceID Model.userName))
  | loggedIn (m : LuaMessage) (hm : "ET_NO_DATA" ≠ m.exception) : Handled f (.answer .login m) f
  | created (m : LuaMessage) : Handled f (.answer .createPlayer m) f

theorem handled_of_handle {n : Notice} (h : f.handle n = some f') : Handled f n f' := by
  obtain _ | server | ⟨r, m⟩ := n
  · obtain rfl := Option.some.inj h
    exact .disconnected
  · cases server <;> obtain rfl := Option.some.inj h
    · exact .directoryConnected
    · exact .worldConnected
  · cases r with
    | worldList =>
      simp only [handle, Option.ite_none_left_eq_some, Option.some.injEq] at h
      obtain ⟨hm, rfl⟩ := h
      exact .worldList m hm
    | userRegister =>
      simp only [handle] at h
      split at h
      · next server hs =>
        obtain rfl := Option.some.inj h
        exact .switch m server hs
      · cases h
      · next hs =>
        obtain rfl := Option.some.inj h
        exact .stay m hs
    | login =>
      simp only [handle] at h
      split at h <;> obtain rfl := Option.some.inj h
      · next hm => exact .newPlayer m hm
      · next hm => exact .loggedIn m hm
    | createPlayer =>
      obtain rfl := Option.some.inj h
      exact .created m

theorem stepped_of_step {e : FrontEvent} (h : f.step e = some f') : Stepped f e f' := by
  cases e with
  | connected j =>
    obtain ⟨p, hp, rfl⟩ := Option.map_eq_some_iff.1 h
    exact .connected j p hp
  | tell j n =>
    simp only [step] at h
    split at h
    · next p hp =>
      simp only [Option.ite_none_right_eq_some, Option.some.injEq] at h
      obtain ⟨⟨hc, hn⟩, rfl⟩ := h
      exact .tell j n p hp hc hn
    · cases h
  | handle =>
    simp only [step] at h
    split at h
    · next n rest hq => exact .handle n rest f' hq h
    · cases h

end Front

end SockTestProgram
