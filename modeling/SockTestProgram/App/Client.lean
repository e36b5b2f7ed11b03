import SockTestProgram.App.ConnectHandler
import SockTestProgram.Interop.Notification

/-!
# The client

The whole program (`Client.step`): the sessions and their completions, the calls of the sessions
into Lua, and the frames, each of which calls `EventDispatcher.check`.

Not modelled: the end of the main loop (after which nothing happens), what `frameUpdate` does after
`check` (it reads `clientState`, and nothing else), and the console output.
-/

open Lts

namespace SockTestProgram

/-- The sessions, the dispatcher and the state of the handlers. -/
structure Client where
  dispatcher : EventDispatcher String Handler LuaMessage
  world : World

inductive ClientEvent
  /-- `boost::asio` does something to the session at place `j` -/
  | asio (j : ℕ) (e : Event)
  /-- `GameCore::frameUpdate` -/
  | frameUpdate
  deriving DecidableEq, Repr

namespace ClientEvent

/-- The session at place `j` connects and tells so. -/
def connects (j : ℕ) : List ClientEvent := [.asio j (.connectDone 0), .asio j (.runRead 0)]

/-- A frame arrives whole at the session at place `j`, which reads it and calls Lua. -/
def receives (j : ℕ) (frame : Bytes) : List ClientEvent :=
  [.asio j (.arrive frame), .asio j (.readSome 0 4), .asio j (.runRead 0),
    .asio j (.readSome 0 (frame.length - 4)), .asio j (.runRead 0)]

end ClientEvent

/-- The calls into Lua of the session at a place. -/
def SockSessionManager.upcalls (m : SockSessionManager) (j : ℕ) : List Upcall :=
  (m.sessions[j]?.map Connection.upcalls).getD []

namespace Client

/-- The client before its first frame. -/
def start : Client := ⟨startUp initDispatcher, ⟨.start, none, []⟩⟩

variable (P : Platform) (conf : LuaConf) (packCmd : Request → Bytes)
  (decode : String → Bytes → Decoded LuaMessage)

/-- One event; there is none after an exception left a completion handler.  The handlers dispatch
nothing, so `check` takes an iteration for each event in the queue and a last one. -/
def step (c : Client) : ClientEvent → Option Client
  | .asio j e =>
    (c.world.manager.step P (.asio j e)).map fun m =>
      let more := (m.upcalls j).drop (c.world.manager.upcalls j).length
      ⟨more.foldl (Upcall.deliver P.heap conf Proto.toID decode) c.dispatcher,
        { c.world with manager := m }⟩
  | .frameUpdate =>
    if ∃ s ∈ c.world.manager.sessions, s.escaped = true then none
    else
      let r := c.dispatcher.check (Handler.body P packCmd) (c.dispatcher.eventCache.length + 1)
        c.world
      some ⟨r.dispatcher, r.world⟩

end Client

end SockTestProgram
