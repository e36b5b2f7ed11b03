import SockTestProgram.App.NetworkCmd

/-!
# The handlers of the client

The handlers of `app/ConnectHandler.lua` and `app/GlobalMsgHolder.lua` as code for the event
dispatcher, and the dispatcher as `app/init.lua` sets it up.  `deinit` is never called.
-/

namespace SockTestProgram

/-- What the handlers read of a decoded message; a field that its type lacks is empty. -/
structure LuaMessage where
  /-- The entries; `none` for one that does not decode, which raises an error at every read here.
  In the code `check` handles the event again in the next frame, and then the fields that were
  set before the failure are read. -/
  worldList : List (Option WorldInfo)
  exception : String
  deriving DecidableEq, Repr

inductive Handler
  /-- the four handlers of `GlobalMessageHolder` -/
  | handleWorldListNotify
  | handleLoginNotify
  | handleCreatePlayerNotify
  | handleUserRegister
  /-- the handlers of `ConnectorHandler` -/
  | onWorldListNotify
  | onDisconnected
  | onDirectoryConnected
  | onWorldConnected
  | onUserRegistered
  | onLoginNotify
  | onCreatePlayerNotify
  deriving DecidableEq, Repr

/-- The code of a handler. -/
abbrev HandlerCode : Type := Prog String Handler LuaMessage World

/-- Code that ends with a command, which may raise an error. -/
def HandlerCode.command (w : World) : Option World → HandlerCode
  | some w' => .done w'
  | none => .raise w

/-- Code that reads the first argument after the event, which is an error if there is none. -/
def HandlerCode.decoded (w : World) (more : List LuaMessage) (code : LuaMessage → HandlerCode) :
    HandlerCode :=
  match more with
  | decoded :: _ => code decoded
  | [] => .raise w

namespace GlobalMessageHolder

/-- `handleWorldListNotify`: it prints every entry. -/
def handleWorldListNotify (w : World) (msg : LuaMessage) : HandlerCode :=
  if msg.worldList.any Option.isNone then .raise w else .done w

def init (d : EventDispatcher String Handler LuaMessage) :
    EventDispatcher String Handler LuaMessage :=
  (((d.addHandler ModelEvent.worldListNotify .handleWorldListNotify).addHandler
    ModelEvent.loginNotify .handleLoginNotify).addHandler
    ModelEvent.createPlayerNotify .handleCreatePlayerNotify).addHandler
    ModelEvent.directoryRegisterUserNotify .handleUserRegister

end GlobalMessageHolder

namespace ConnectorHandler

variable (P : Platform) (packCmd : Request → Bytes)

def onWorldListNotify (w : World) (decoded : LuaMessage) : HandlerCode :=
  let w := { w with chosenServer := decoded.worldList.head? }
  .command w (NetworkCmd.registerUser P packCmd w Model.userName Model.password)

def onDisconnected (w : World) : HandlerCode := .done (NetworkCmd.connectToDirectory P w)

def onDirectoryConnected (w : World) : HandlerCode :=
  .command w (NetworkCmd.requestWorldList P packCmd w)

def onWorldConnected (w : World) : HandlerCode :=
  .command w (NetworkCmd.requestLogin P packCmd w)

def onUserRegistered (w : World) : HandlerCode :=
  match w.chosenServer with
  | some (some server) => .done (NetworkCmd.connectToWorld P w server.host server.port)
  | some none => .raise w
  | none => .done w

def onLoginNotify (w : World) (decoded : LuaMessage) : HandlerCode :=
  if "ET_NO_DATA" = decoded.exception then
    .command w
      (NetworkCmd.createPlayer P packCmd w Model.isAnonymous Model.deviceID Model.userName)
  else .done w

def init (d : EventDispatcher String Handler LuaMessage) :
    EventDispatcher String Handler LuaMessage :=
  ((((((d.addHandler ModelEvent.disconnectedFromServer .onDisconnected).addHandler
    ModelEvent.directoryConnected .onDirectoryConnected).addHandler
    ModelEvent.worldConnected .onWorldConnected).addHandler
    ModelEvent.directoryRegisterUserNotify .onUserRegistered).addHandler
    ModelEvent.worldListNotify .onWorldListNotify).addHandler
    ModelEvent.loginNotify .onLoginNotify).addHandler
    ModelEvent.createPlayerNotify .onCreatePlayerNotify

end ConnectorHandler

/-- The code of every handler. -/
def Handler.body (P : Platform) (packCmd : Request → Bytes) (f : Handler) (_ : String)
    (more : List LuaMessage) (w : World) : HandlerCode :=
  match f with
  | .handleWorldListNotify => .decoded w more (GlobalMessageHolder.handleWorldListNotify w)
  | .handleLoginNotify | .handleCreatePlayerNotify | .handleUserRegister =>
    .decoded w more fun _ => .done w
  | .onWorldListNotify => .decoded w more (ConnectorHandler.onWorldListNotify P packCmd w)
  | .onDisconnected => ConnectorHandler.onDisconnected P w
  | .onDirectoryConnected => ConnectorHandler.onDirectoryConnected P packCmd w
  | .onWorldConnected => ConnectorHandler.onWorldConnected P packCmd w
  | .onUserRegistered => .decoded w more fun _ => ConnectorHandler.onUserRegistered P w
  | .onLoginNotify => .decoded w more (ConnectorHandler.onLoginNotify P packCmd w)
  | .onCreatePlayerNotify => .done w

/-- The dispatcher when `app/init.lua` is loaded. -/
def initDispatcher : EventDispatcher String Handler LuaMessage :=
  ConnectorHandler.init (GlobalMessageHolder.init .start)

/-- `startUp` -/
def startUp (d : EventDispatcher String Handler LuaMessage) :
    EventDispatcher String Handler LuaMessage :=
  d.dispatch ModelEvent.disconnectedFromServer []

end SockTestProgram
