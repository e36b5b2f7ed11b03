import SockTestProgram.App.Pumper
import SockTestProgram.Socket.SockSessionManager

/-!
# `NetworkCmd`

The commands of `app/NetworkCmd.lua`, with `mm.ConnectServer` and `mm.SendBuffer` of
`interop/exports/exports.cpp` below them.  The state they work on (`World`) also keeps the calls of
these two functions that were made so far, and for a request the session that it was written to.

`Proto.packCmd` is a parameter.
-/

namespace SockTestProgram

/-- The constants of `app/model/Model.lua`. -/
def Model.userName : String := "baihai"
def Model.password : String := "baipasswd"
def Model.deviceID : String := "X51"
def Model.isAnonymous : Bool := true
def Model.directoryServer.host : String := "192.168.1.105"
def Model.directoryServer.port : String := "11000"

/-- `Proto.toID`: the value `ID` of the enumeration `Type` of a message, as `proto/cs_dir.pb` and
`proto/cs_world.pb` define it.  Other names are not asked for. -/
def Proto.toID : String → ℤ
  | "RequestWorldList" => 1001
  | "RequestUserRegister" => 1002
  | "ResponseWorldList" => 101001
  | "ResponseUserRegister" => 101002
  | "RequestLogin" => 2001
  | "RequestCreatePlayer" => 2002
  | "ResponseLogin" => 102001
  | "ResponseCreatePlayer" => 102002
  | _ => 0

/-- A request with its fields. -/
inductive Request
  | requestWorldList
  | requestUserRegister (account password : String)
  | requestLogin (deviceID account password : String) (isAnonymous : Bool)
  | requestCreatePlayer (isAnonymous : Bool) (deviceID account : String)
  deriving DecidableEq, Repr

/-- The name of the protocol of a request. -/
def Request.pn : Request → String
  | .requestWorldList => "RequestWorldList"
  | .requestUserRegister _ _ => "RequestUserRegister"
  | .requestLogin _ _ _ _ => "RequestLogin"
  | .requestCreatePlayer _ _ _ => "RequestCreatePlayer"

/-- An entry of a world list. -/
structure WorldInfo where
  host : String
  port : ℕ
  deriving DecidableEq, Repr

/-- A session at the moment when a request is written to it. -/
structure Recipient where
  /-- Its place among the sessions created so far. -/
  place : ℕ
  /-- The event that `connectTo` was called with. -/
  serverID : String
  connected : Bool
  deriving DecidableEq, Repr

/-- A call of one of the two functions that `mm` exports, with its arguments in Lua. -/
inductive ClientAction
  | connectServer (host port serverID description : String)
  | sendBuffer (request : Request) (recipient : Option Recipient)
  deriving DecidableEq, Repr

/-- The current session. -/
def SockSessionManager.recipient (m : SockSessionManager) : Option Recipient :=
  m.ptr.bind fun j => m.sessions[j]?.map fun c =>
    ⟨j, c.session.connectingServerStr, c.connected⟩

/-- `luaL_checkstring`, and the `std::string` that is made of it: what stands before the first 0. -/
def checkString (s : String) : String := String.ofList (s.toList.takeWhile (· ≠ Char.ofNat 0))

/-- What the handlers of events work on. -/
structure World where
  manager : SockSessionManager
  /-- `self.chosenServer` of the connector handler.  Messages are decoded when they are used: an
  entry that does not decode (`some none`) raises an error here whenever a field of it is read.
  In the code this is so of the fields that are not set before the failure; the others raise it
  at the first read only. -/
  chosenServer : Option (Option WorldInfo)
  actions : List ClientAction
  deriving DecidableEq, Repr

namespace World

variable (P : Platform) (packCmd : Request → Bytes)

def connectServer (w : World) (host port serverID description : String) : World :=
  { w with
    manager := w.manager.connectTo P (checkString host) (checkString port) (checkString serverID)
      (checkString description)
    actions := w.actions ++ [.connectServer host port serverID description] }

def sendBuffer (w : World) (r : Request) : World :=
  { w with
    manager := w.manager.write P (BitVec.ofInt 32 (Proto.toID r.pn)) (packCmd r)
    actions := w.actions ++ [.sendBuffer r w.manager.recipient] }

end World

namespace NetworkCmd

variable (P : Platform) (packCmd : Request → Bytes)

/-- `NetworkCmd.Send`; `none` where its assertion on the identifier fails. -/
def send (w : World) (r : Request) : Option World :=
  if 0 < Proto.toID r.pn then some (w.sendBuffer P packCmd r) else none

def requestWorldList (w : World) : Option World := send P packCmd w .requestWorldList

def registerUser (w : World) (account passwd : String) : Option World :=
  send P packCmd w (.requestUserRegister account passwd)

def requestLogin (w : World) : Option World :=
  send P packCmd w (.requestLogin Model.deviceID Model.userName Model.password Model.isAnonymous)

def createPlayer (w : World) (isAnonymous : Bool) (deviceID account : String) : Option World :=
  send P packCmd w (.requestCreatePlayer isAnonymous deviceID account)

def connectToDirectory (w : World) : World :=
  w.connectServer P Model.directoryServer.host Model.directoryServer.port
    ModelEvent.directoryConnected "directory"

def connectToWorld (w : World) (host : String) (port : ℕ) : World :=
  w.connectServer P host (toString port) ModelEvent.worldConnected "world"

/-- Every request has a positive identifier. -/
theorem send_eq (w : World) (r : Request) :
    send P packCmd w r = some (w.sendBuffer P packCmd r) := by
  have hid : 0 < Proto.toID r.pn := by cases r <;> simp [Request.pn, Proto.toID]
  exact if_pos hid

end NetworkCmd

end SockTestProgram
