import SockTestProgram.Pbc.Register
import SockTestProgram.Io.Capacity
import SockTestProgram.Io.View
import SockTestProgram.Socket.Robust
import SockTestProgram.Socket.Wire
import SockTestProgram.Socket.Silence
import SockTestProgram.Socket.Failure
import SockTestProgram.Interop.HostCalls
import SockTestProgram.App.Raising
import SockTestProgram.App.MainLoop
import SockTestProgram.App.Deinit
import SockTestProgram.App.Reception
import SockTestProgram.App.Record
import SockTestProgram.App.Requests
import SockTestProgram.App.Handshake
import SockTestProgram.App.Proto
import SockTestProgram.Lib.Varint
import SockTestProgram.Pbc.Context
import SockTestProgram.Pbc.Decode
import SockTestProgram.Pbc.Expansion
import SockTestProgram.App.Messages
import SockTestProgram.App.LoginNotify
import SockTestProgram.Io.Overflow
import SockTestProgram.Socket.ByteOrders
import SockTestProgram.Interop.BlockCopy
import SockTestProgram.App.Objects
import SockTestProgram.App.ReadOnly
import SockTestProgram.App.ValueMaster
import SockTestProgram.App.ClientState
import SockTestProgram.Lib.Chained
import SockTestProgram.Pbc.Map
import SockTestProgram.Lib.Forest
import SockTestProgram.Lib.Growing
import SockTestProgram.Pbc.Content
import SockTestProgram.Pbc.RoundTrip
import SockTestProgram.Pbc.LuaEncode
import SockTestProgram.App.PackCmd
import SockTestProgram.Lib.Pages
import SockTestProgram.Pbc.Alloc
import SockTestProgram.Pbc.PbcArray
import SockTestProgram.Pbc.Buffers
import SockTestProgram.Pbc.Reading
import SockTestProgram.Pbc.Foreign
import SockTestProgram.Pbc.Outside
import SockTestProgram.App.Answers
