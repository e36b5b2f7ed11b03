import SockTestProgram.App.Pumper
import SockTestProgram.Interop.LuaBuffer
import SockTestProgram.Socket.Upcalls

/-!
# Calls from C++ into Lua

The two callbacks of `interop/exports/L_notification.cpp`.  `L_onDecodeBuffer` copies the payload
block by block into a Lua string, which is the payload byte for byte (`luaString_eq`), and calls
`redirectNetBuffer` protected: an error goes no further.
-/

open Memory

namespace SockTestProgram

variable {η μ : Type}

/-- The loop of `L_onDecodeBuffer`: `n` bytes are still to copy, at most `rlen` each time. -/
def copyLoop (H : Heap UInt8) (conf : LuaConf) (buffer : Bytes) (b : LuaBuffer) (rlen : ℕ)
    (hrlen : 0 < rlen) (index n : ℕ) : LuaBuffer :=
  let b := b.prepbuffer conf
  if _h : rlen < n then
    let b := b.addBlock (H.load buffer index rlen)
    copyLoop H conf buffer b rlen hrlen (index + rlen) (n - rlen)
  else b.addBlock (H.load buffer index n)
termination_by n
decreasing_by omega

/-- The Lua string that `L_onDecodeBuffer` makes of the buffer.  A negative size is undefined
behaviour of `memcpy`; the model copies nothing then. -/
def luaString (H : Heap UInt8) (conf : LuaConf) (buffer : Bytes) (bufferSize : BitVec 32) : Bytes :=
  (copyLoop H conf buffer .buffinit conf.LUAL_BUFFERSIZE conf.pos 0
    bufferSize.toInt.toNat).pushresult

/-- `L_onDecodeBuffer`; the result of `lua_pcall` is dropped. -/
def lOnDecodeBuffer (H : Heap UInt8) (conf : LuaConf) (toID : String → ℤ)
    (decode : String → Bytes → Decoded μ) (typecode : BitVec 32) (buffer : Bytes)
    (bufferSize : BitVec 32) (d : EventDispatcher String η μ) : EventDispatcher String η μ :=
  (redirectNetBuffer toID decode typecode.toInt (luaString H conf buffer bufferSize) d).1

/-- `L_onServerConnectionEstablished` -/
def lOnServerConnectionEstablished (serverID : String) (d : EventDispatcher String η μ) :
    EventDispatcher String η μ :=
  serverConnectOn serverID d

theorem copyLoop_content (H : Heap UInt8) (conf : LuaConf) (buffer : Bytes) (b : LuaBuffer)
    (rlen : ℕ) (hrlen : 0 < rlen) (index n : ℕ) :
    (copyLoop H conf buffer b rlen hrlen index n).content =
      b.content ++ H.load buffer index n := by
  induction n using Nat.strong_induction_on generalizing b index with
  | _ n ih =>
    obtain ⟨hcontent, hbuffer⟩ := b.prepbuffer_spec conf
    unfold copyLoop
    simp only
    split_ifs with h
    · have hsplit : H.load buffer index n =
          H.load buffer index rlen ++ H.load buffer (index + rlen) (n - rlen) := by
        rw [← H.load_add, Nat.add_sub_cancel' h.le]
      rw [ih (n - rlen) (by omega), LuaBuffer.content_addBlock hbuffer, hcontent, hsplit,
        List.append_assoc]
    · rw [LuaBuffer.content_addBlock hbuffer, hcontent]

/-- The Lua string is the payload. -/
theorem luaString_eq (H : Heap UInt8) (conf : LuaConf) {payload : Bytes}
    (h : payload.length < 2 ^ 31) :
    luaString H conf payload (BitVec.ofNat 32 payload.length) = payload := by
  have hsize : (BitVec.ofNat 32 payload.length).toInt.toNat = payload.length := by
    rw [BitVec.toInt_eq_toNat_of_lt (by rw [BitVec.toNat_ofNat]; omega), BitVec.toNat_ofNat]
    omega
  rw [luaString, LuaBuffer.pushresult_eq, copyLoop_content, hsize, H.load_eq_slice (by simp),
    slice_self]
  rfl

namespace Upcall

/-- A call of one of the two callbacks of a session. -/
def deliver (H : Heap UInt8) (conf : LuaConf) (toID : String → ℤ)
    (decode : String → Bytes → Decoded μ) (d : EventDispatcher String η μ) :
    Upcall → EventDispatcher String η μ
  | .onConnected serverID => lOnServerConnectionEstablished serverID d
  | .callback typecode payload =>
    lOnDecodeBuffer H conf toID decode typecode payload (BitVec.ofNat 32 payload.length) d

/-- The events that a call puts in the queue. -/
def queued (toID : String → ℤ) (decode : String → Bytes → Decoded μ)
    (d : EventDispatcher String η μ) : Upcall → List (String × List μ)
  | .onConnected serverID => if (d.handlers serverID).isSome then [(serverID, [])] else []
  | .callback typecode payload => (eventOf toID decode typecode.toInt payload).toList

theorem appends_deliver (H : Heap UInt8) (conf : LuaConf) {toID : String → ℤ}
    (hdistinct : DistinctTypeCodes toID) (decode : String → Bytes → Decoded μ)
    {d : EventDispatcher String η μ} (hreg : Registered toID d) {u : Upcall} (hu : u.Fits) :
    Appends d (u.deliver H conf toID decode d) (u.queued toID decode d) := by
  cases u with
  | onConnected serverID => exact appends_dispatch d serverID []
  | callback typecode payload =>
    rw [deliver, lOnDecodeBuffer, luaString_eq H conf hu]
    exact appends_redirectNetBuffer hdistinct decode _ payload hreg

end Upcall

end SockTestProgram
