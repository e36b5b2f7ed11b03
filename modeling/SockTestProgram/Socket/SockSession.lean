import SockTestProgram.Io.StreamBuffer

/-!
# `SockSession`

The methods and completion handlers of `socket/SockSession.cpp`.  Each is a function from the
session to the session afterwards and the list of `Effect`s it has, in order: the calls into
`boost::asio`, into the two callbacks and on the raw bytes of `buffer_`.  What the effects do to
the outside is in `Socket/Connection.lean`.

Not modelled: `timeout_` and `last_op_` (`isTimeout` is never called) and the console output.
-/

open Memory Word

namespace SockTestProgram

/-- What the program is compiled for. -/
structure Platform where
  heap : Heap UInt8
  order : ByteOrder
  /-- The constant `_HeaderLengthFix`. -/
  headerLengthFix : BitVec 32

/-- `_HeaderLengthFix` of `LengthStyle.h`. -/
def headerLengthFix : BitVec 32 := -4

/-- An int as the `size_t` argument of `std::string::resize`. -/
def sizeT (x : ℤ) : ℕ := (x % 2 ^ 64).toNat

/-- `std::string::max_size()`; a larger size makes `resize` throw `std::length_error`. -/
def maxSize : ℕ := 2 ^ 63 - 1

/-- `std::string::resize(n)`. -/
def resizeString (s : Bytes) (n : ℕ) : Bytes := s.take n ++ List.replicate (n - s.length) 0

structure SockSession where
  connectingTimeout : Bool
  socketFailed : Bool
  headLength : Bytes
  buffer : Bytes
  host : String
  port : String
  description : String
  connectingServerStr : String
  deriving DecidableEq, Repr

/-- What a method of the session does outside the session. -/
inductive Effect
  /-- `socket_.async_connect`, with `handle_connected` -/
  | asyncConnect (host port : String)
  /-- `async_read` of `headLength_`, with `handle_headerRead` -/
  | asyncReadHead
  /-- `async_read` of the `size` bytes of `buffer_`, with `handle_bodyRead` -/
  | asyncReadBody (size : ℕ)
  /-- `async_write` of a buffer of its own, with `handle_written` -/
  | asyncWrite (buffer : Bytes)
  /-- `io_service_.post(handle_closed)` -/
  | postClosed
  /-- `socket_.close()` -/
  | socketClose
  /-- `buffer_.resize`, with its `int` argument -/
  | resize (size : ℤ)
  /-- a read of the bytes `[offset, offset + length)` of `buffer_` -/
  | load (offset length : ℕ)
  /-- `callback_(L, typecode, payload.c_str(), payload.size())` -/
  | callback (typecode : BitVec 32) (payload : Bytes)
  /-- `onConnected_(L, serverID)` -/
  | onConnected (serverID : String)
  /-- an exception leaves the handler -/
  | throw
  deriving DecidableEq, Repr

namespace SockSession

/-- `create`; the bytes of `headLength_` are not initialised. -/
def create (P : Platform) (host port description : String) : SockSession where
  connectingTimeout := false
  socketFailed := false
  headLength := P.heap.fresh 4
  buffer := []
  host := host
  port := port
  description := description
  connectingServerStr := ""

def connect (s : SockSession) (serverID : String) : SockSession × List Effect :=
  ({ s with connectingServerStr := serverID }, [.asyncConnect s.host s.port])

def close (s : SockSession) : SockSession × List Effect := (s, [.postClosed])

def readStart (s : SockSession) : SockSession × List Effect := (s, [.asyncReadHead])

def readBody (s : SockSession) : SockSession × List Effect :=
  (s, [.asyncReadBody s.buffer.length])

/-- The `int` that `handle_headerRead` reads from the header. -/
def headerLength (P : Platform) (s : SockSession) : BitVec 32 :=
  ((StreamBuffer.view s.headLength 4).readInt32 P.heap P.order 0).2.1

/-- `length - 4 - _HeaderLengthFix` -/
def bodySize (P : Platform) (s : SockSession) : BitVec 32 :=
  s.headerLength P - 4 - P.headerLengthFix

def handleHeaderRead (P : Platform) (s : SockSession) (error : Bool) :
    SockSession × List Effect :=
  if error then ({ s with socketFailed := true }, [])
  else
    let size := (s.bodySize P).toInt
    -- `resize` converts to `size_t`; nothing here catches what it throws
    if maxSize < sizeT size then (s, [.resize size, .throw])
    else
      let s' := { s with buffer := resizeString s.buffer (sizeT size) }
      (s', .resize size :: s'.readBody.2)

/-- The type code that `handle_bodyRead` reads through a view of four bytes of `buffer_`. -/
def bodyTypecode (P : Platform) (s : SockSession) : BitVec 32 :=
  ((StreamBuffer.view s.buffer 4).readInt32 P.heap P.order 0).2.1

/-- The payload that `handle_bodyRead` copies out of `buffer_`. -/
def bodyPayload (P : Platform) (s : SockSession) : Bytes :=
  if 4 < s.buffer.length then P.heap.load s.buffer 4 (s.buffer.length - 4) else []

def handleBodyRead (P : Platform) (s : SockSession) (error : Bool) : SockSession × List Effect :=
  if error then ({ s with socketFailed := true }, [])
  else
    let loads := if 4 < s.buffer.length then [.load 4 (s.buffer.length - 4)] else []
    (s, loads ++ .load 0 4 :: .callback (s.bodyTypecode P) (s.bodyPayload P) :: s.readStart.2)

def handleConnected (s : SockSession) (error : Bool) : SockSession × List Effect :=
  if ¬ error then (s, .onConnected s.connectingServerStr :: s.readStart.2)
  else ({ s with connectingTimeout := true }, s.readStart.2)

def handleClosed (s : SockSession) : SockSession × List Effect := (s, [.socketClose])

def handleWritten (s : SockSession) (error : Bool) : SockSession × List Effect :=
  if error then s.close else (s, [])

/-- The buffer that `write` fills; `none` where its `resize` throws. -/
def writeBuffer (P : Platform) (typeCode : BitVec 32) (msg : Bytes) (rlength : BitVec 32) :
    Option Bytes :=
  let length := rlength + 4 + 4
  if maxSize < sizeT length.toInt then none
  else
    let buffer := List.replicate (sizeT length.toInt) 0
    let rlen := hostToNetworkLong P.order (length + P.headerLengthFix)
    let buffer := store buffer 0 (storeInt P.order rlen)
    let buffer := store buffer 4 (storeInt P.order (hostToNetworkLong P.order typeCode))
    if 0 < rlength.toInt then some (store buffer 8 (P.heap.load msg 0 rlength.toNat))
    else some buffer

/-- `write`; it catches what `resize` throws. -/
def write (P : Platform) (s : SockSession) (typeCode : BitVec 32) (msg : Bytes)
    (rlength : BitVec 32) : SockSession × List Effect :=
  match writeBuffer P typeCode msg rlength with
  | none => (s, [])
  | some buffer => (s, [.asyncWrite buffer])

def isSocketFailed (s : SockSession) : Bool := s.socketFailed || s.connectingTimeout

end SockSession

end SockTestProgram
