import Mathlib.Data.BitVec
import SockTestProgram.Socket.Connection

/-!
# Frames

The bytes that `write` sends for a message (`frame`), and what the two read handlers make of the
header and the body of a frame.  The header is the length of the body plus 4 plus
`_HeaderLengthFix`, the body is the type code and the payload, all integers big-endian.
-/

open Memory Word

namespace SockTestProgram

/-- A message whose length the two `int` computations of `write` can represent. -/
structure Message (P : Platform) where
  typeCode : BitVec 32
  payload : Bytes
  fits : FitsInt (payload.length + 8) ∧ 0 ≤ payload.length + 8 + P.headerLengthFix.toInt ∧
    FitsInt (payload.length + 8 + P.headerLengthFix.toInt)

variable {P : Platform}

namespace Message

/-- The `int` in the header of a message. -/
def header (m : Message P) : BitVec 32 := BitVec.ofNat 32 m.payload.length + 8 + P.headerLengthFix

/-- Type code and payload. -/
def body (m : Message P) : Bytes := bytesBE m.typeCode ++ m.payload

def frame (m : Message P) : Bytes := bytesBE m.header ++ m.body

/-- The call of `callback_` that delivers the message. -/
def upcall (m : Message P) : Upcall := .callback m.typeCode m.payload

theorem length_lt (m : Message P) : m.payload.length + 8 < 2 ^ 31 := by
  have h := m.fits.1.2
  omega

@[simp] theorem length_body (m : Message P) : m.body.length = m.payload.length + 4 := by
  simp [body, Nat.add_comm]

theorem length_frame (m : Message P) : m.frame.length = m.payload.length + 8 := by
  simp only [frame, List.length_append, length_bytesBE, length_body]
  omega

end Message

theorem sizeT_natCast {n : ℕ} (h : n < 2 ^ 64) : sizeT n = n := by
  simp only [sizeT]
  omega

theorem toInt_ofNat_of_lt {n : ℕ} (h : n < 2 ^ 31) : (BitVec.ofNat 32 n).toInt = n := by
  have hn : (BitVec.ofNat 32 n).toNat = n := by
    rw [BitVec.toNat_ofNat, Nat.mod_eq_of_lt (by omega)]
  rw [BitVec.toInt_eq_toNat_of_lt (by omega), hn]

/-! ## `write` -/

/-- `write` sends exactly the frame of the message. -/
theorem writeBuffer_eq (m : Message P) :
    SockSession.writeBuffer P m.typeCode m.payload (BitVec.ofNat 32 m.payload.length) =
      some m.frame := by
  have hlt := m.length_lt
  have hlen : BitVec.ofNat 32 m.payload.length + 4 + 4 =
      BitVec.ofNat 32 (m.payload.length + 8) := by
    rw [BitVec.ofNat_add, add_assoc]
    rfl
  have hsize : sizeT (BitVec.ofNat 32 (m.payload.length + 8)).toInt = m.payload.length + 8 := by
    rw [toInt_ofNat_of_lt hlt]
    exact sizeT_natCast (by omega)
  have hheader : BitVec.ofNat 32 (m.payload.length + 8) + P.headerLengthFix = m.header := by
    rw [BitVec.ofNat_add]
    rfl
  -- the two integers are written over the first eight of `payload.length + 8` zeros
  have hints (h t : Bytes) (hh : h.length = 4) (ht : t.length = 4) :
      store (store (List.replicate (m.payload.length + 8) 0) 0 h) 4 t =
        h ++ t ++ List.replicate m.payload.length 0 := by
    rw [store_zero, ← hh, store_append, List.drop_replicate, List.drop_replicate, hh, ht]
    simp
  simp only [SockSession.writeBuffer, hlen, hsize, hheader, storeInt_hostToNetworkLong]
  rw [if_neg (by simp only [maxSize]; omega), hints _ _ rfl rfl, toInt_ofNat_of_lt (by omega)]
  split_ifs with hpos
  -- `memcpy` of the payload
  · have hload : P.heap.load m.payload 0 (BitVec.ofNat 32 m.payload.length).toNat = m.payload := by
      have hn : (BitVec.ofNat 32 m.payload.length).toNat = m.payload.length := by
        rw [BitVec.toNat_ofNat, Nat.mod_eq_of_lt (by omega)]
      rw [hn, P.heap.load_eq_slice (by omega), slice_self]
    rw [hload]
    have := store_append (bytesBE m.header ++ bytesBE m.typeCode)
      (List.replicate m.payload.length 0) m.payload
    simp only [List.length_append, length_bytesBE, Nat.reduceAdd, List.drop_replicate,
      Nat.sub_self, List.replicate_zero, List.append_nil] at this
    rw [this, Message.frame, Message.body, List.append_assoc]
  · have hnil : m.payload = [] := by
      have : m.payload.length = 0 := by omega
      exact List.length_eq_zero_iff.1 this
    simp [Message.frame, Message.body, hnil]

/-! ## The read handlers -/

/-- A view of four bytes of memory that is at least that long reads them as an `int`. -/
theorem readInt32_view (H : Heap UInt8) (o : ByteOrder) (a b c d : UInt8) (rest : Bytes)
    (value : BitVec 32) :
    ((StreamBuffer.view (a :: b :: c :: d :: rest) 4).readInt32 H o value).2.1 =
      networkToHostLong o (ofBytes d c b a) := by
  rw [StreamBuffer.readInt32, if_neg (by simp [StreamBuffer.payLength, StreamBuffer.view])]
  have hload : H.load (a :: b :: c :: d :: rest) 0 4 = [a, b, c, d] := by
    rw [H.load_eq_slice (by simp)]
    rfl
  simp only [StreamBuffer.view, hload, StreamBuffer.accumulate_four]

/-- On a little-endian host the bytes are read as a big-endian integer. -/
theorem readInt32_view_bytesBE (H : Heap UInt8) (x : BitVec 32) (rest : Bytes) (value : BitVec 32) :
    ((StreamBuffer.view (bytesBE x ++ rest) 4).readInt32 H .little value).2.1 = x := by
  refine (readInt32_view H .little _ _ _ _ rest value).trans ?_
  rw [networkToHostLong, byteSwap_ofBytes, ofBytes_byte]

end SockTestProgram
