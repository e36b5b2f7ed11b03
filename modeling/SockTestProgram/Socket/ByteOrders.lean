import SockTestProgram.Socket.Framing

/-!
# Integers on the wire and the order of the host

`write` converts an `int` to network order and stores it in the order of the host: the bytes are
big-endian on every host.  `readInt32` and `readInt16` put the bytes together arithmetically, the
least significant one first, and convert the result from network order.  On a little-endian host
the two swaps make the big-endian value; on a big-endian host nothing is swapped, and the value is
that of the reversed bytes (`integersSurvive_iff`).
-/

open Memory Word

namespace SockTestProgram

variable {H : Heap UInt8} {o : ByteOrder} {sb : StreamBuffer}

/-- The program on a host of the given order. -/
def hostOf (H : Heap UInt8) (o : ByteOrder) : Platform := ⟨H, o, headerLengthFix⟩

/-- `write` stores `bytes` for the `int` `x`, which is the header or the type code of a message. -/
def Stores (P : Platform) (x : BitVec 32) (bytes : Bytes) : Prop :=
  ∃ (m : Message P) (buffer : Bytes),
    SockSession.writeBuffer P m.typeCode m.payload (BitVec.ofNat 32 m.payload.length) =
      some buffer ∧
    (x = m.header ∧ bytes = slice buffer 0 4 ∨ x = m.typeCode ∧ bytes = slice buffer 4 4)

/-- The next bytes of the buffer. -/
def StreamBuffer.Next (H : Heap UInt8) (sb : StreamBuffer) (bytes : Bytes) : Prop :=
  (bytes.length : ℤ) ≤ sb.payLength ∧ H.load sb.block sb.readPtr bytes.length = bytes

/-- The unsigned value of two bytes in network order. -/
def int16BE (a b : UInt8) : BitVec 32 := BitVec.ofNat 32 (a.toNat * 256 + b.toNat)

/-- What `write` stores for `x` is big-endian and is read as `x`. -/
def Int32Survives (H : Heap UInt8) (o : ByteOrder) (x : BitVec 32) : Prop :=
  ∀ bytes, Stores (hostOf H o) x bytes → bytes = bytesBE x ∧
    ∀ sb value, StreamBuffer.Next H sb bytes → sb.readInt32 H o value = (true, x, sb.commit 4)

/-- The bytes `a`, `b` are read as their big-endian value. -/
def Int16Survives (H : Heap UInt8) (o : ByteOrder) (a b : UInt8) : Prop :=
  ∀ sb value, StreamBuffer.Next H sb [a, b] →
    sb.readInt16 H o value = (true, int16BE a b, sb.commit 2)

/-! ## The writer -/

/-- Header and type code are stored big-endian on every host. -/
theorem Stores.eq_bytesBE {P : Platform} {x : BitVec 32} {bytes : Bytes} (h : Stores P x bytes) :
    bytes = bytesBE x := by
  obtain ⟨m, buffer, hbuffer, h⟩ := h
  rw [writeBuffer_eq, Option.some.injEq] at hbuffer
  subst hbuffer
  rcases h with ⟨rfl, rfl⟩ | ⟨rfl, rfl⟩
  · rfl
  · rfl

/-- Every word is the type code of a message. -/
theorem stores_bytesBE (H : Heap UInt8) (o : ByteOrder) (x : BitVec 32) :
    Stores (hostOf H o) x (bytesBE x) := by
  let m : Message (hostOf H o) := ⟨x, [], by simp only [hostOf]; decide⟩
  exact ⟨m, _, writeBuffer_eq m, Or.inr ⟨rfl, rfl⟩⟩

theorem next_view (H : Heap UInt8) (bytes : Bytes) :
    StreamBuffer.Next H (StreamBuffer.view bytes bytes.length) bytes := by
  constructor
  · simp [StreamBuffer.payLength, StreamBuffer.view]
  · rw [StreamBuffer.view, H.load_eq_slice (by simp), slice_self]

/-! ## The readers -/

/-- `readInt32` of the big-endian bytes of `x`. -/
theorem readInt32_next {x : BitVec 32} (h : sb.Next H (bytesBE x)) (value : BitVec 32) :
    sb.readInt32 H o value = (true, networkToHostLong o (byteSwap x), sb.commit 4) := by
  have hlen : ¬ sb.payLength < 4 := not_lt.2 h.1
  have hload : H.load sb.block sb.readPtr 4 = bytesBE x := h.2
  have hswap : StreamBuffer.accumulate 0#32 1#32 (bytesBE x) = byteSwap x := by
    rw [bytesBE, StreamBuffer.accumulate_four, ← byteSwap_ofBytes, ofBytes_byte]
  rw [StreamBuffer.readInt32, if_neg hlen]
  simp only [hload, hswap]

/-- The low half of the assembled word. -/
theorem setWidth_ofBytes (a b : UInt8) :
    (ofBytes 0 0 b a).setWidth 16 = b.toBitVec ++ a.toBitVec := by
  apply BitVec.eq_of_toNat_eq
  have ha := a.toNat_lt
  have hb := b.toNat_lt
  simp only [BitVec.toNat_setWidth, toNat_ofBytes, toNat_append, UInt8.toNat_toBitVec,
    UInt8.toNat_zero]
  omega

theorem byteSwap16_append (a b : UInt8) :
    byteSwap16 (b.toBitVec ++ a.toBitVec) = a.toBitVec ++ b.toBitVec := by
  unfold byteSwap16
  ext i hi
  simp
  grind

theorem setWidth_append (a b : UInt8) : (a.toBitVec ++ b.toBitVec).setWidth 32 = int16BE a b := by
  apply BitVec.eq_of_toNat_eq
  simp only [BitVec.toNat_setWidth, toNat_append, int16BE, BitVec.toNat_ofNat,
    UInt8.toNat_toBitVec, Nat.reducePow]

/-- What `readInt16` makes of two bytes. -/
def int16On : ByteOrder → UInt8 → UInt8 → BitVec 32
  | .little, a, b => int16BE a b
  | .big, a, b => int16BE b a

theorem readInt16_next {a b : UInt8} (h : sb.Next H [a, b]) (value : BitVec 32) :
    sb.readInt16 H o value = (true, int16On o a b, sb.commit 2) := by
  have hlen : ¬ sb.payLength < 2 := not_lt.2 h.1
  have hload : H.load sb.block sb.readPtr 2 = [a, b] := h.2
  rw [StreamBuffer.readInt16, if_neg hlen]
  simp only [hload, StreamBuffer.accumulate_two, setWidth_ofBytes]
  cases o with
  | little => simp only [networkToHostShort, byteSwap16_append, setWidth_append, int16On]
  | big => simp only [networkToHostShort, setWidth_append, int16On]

theorem int16BE_comm_iff (a b : UInt8) : int16BE b a = int16BE a b ↔ a = b := by
  have ha := a.toNat_lt
  have hb := b.toNat_lt
  rw [← BitVec.toNat_inj, ← UInt8.toNat_inj]
  simp only [int16BE, BitVec.toNat_ofNat]
  omega

/-! ## Both together -/

/-- A reader that takes the next bytes survives exactly if it returns the right value. -/
theorem int32Survives_iff (H : Heap UInt8) (o : ByteOrder) (x : BitVec 32) :
    Int32Survives H o x ↔ networkToHostLong o (byteSwap x) = x := by
  constructor
  · intro h
    have hread := (h _ (stores_bytesBE H o x)).2 _ 0 (next_view H _)
    rw [readInt32_next (next_view H _)] at hread
    exact congrArg (fun r => r.2.1) hread
  · intro h bytes hstores
    refine ⟨hstores.eq_bytesBE, fun sb value hnext => ?_⟩
    rw [hstores.eq_bytesBE] at hnext
    rw [readInt32_next hnext, h]

theorem int16Survives_iff (H : Heap UInt8) (o : ByteOrder) (a b : UInt8) :
    Int16Survives H o a b ↔ int16On o a b = int16BE a b := by
  constructor
  · intro h
    have hread := h _ 0 (next_view H [a, b])
    rw [readInt16_next (next_view H [a, b])] at hread
    exact congrArg (fun r => r.2.1) hread
  · intro h sb value hnext
    rw [readInt16_next hnext, h]

/-- **The wire format depends on the host.**  What is written is big-endian on every host, but it is
read back on a little-endian host only, apart from integers that are the same in both orders. -/
theorem integersSurvive_iff (H : Heap UInt8) (o : ByteOrder) :
    (∀ x, Int32Survives H o x ↔ o = .little ∨ byteSwap x = x) ∧
      ∀ a b, Int16Survives H o a b ↔ o = .little ∨ a = b := by
  constructor
  · intro x
    rw [int32Survives_iff]
    cases o with
    | little => simp [networkToHostLong, byteSwap_byteSwap]
    | big => simp [networkToHostLong]
  · intro a b
    rw [int16Survives_iff]
    cases o with
    | little => simp [int16On]
    | big => simp [int16On, int16BE_comm_iff]

/-- On a big-endian host the type code 11 is written `00 00 00 0b` and read as `0x0b000000`. -/
theorem integersSurvive_not_big :
    ¬ ∀ (H : Heap UInt8) (o : ByteOrder),
      (∀ x, Int32Survives H o x) ∧ ∀ a b, Int16Survives H o a b := by
  intro h
  have hread := ((h (Heap.const 0) .big).1 11 _ (stores_bytesBE _ _ 11)).2
    (StreamBuffer.view [0, 0, 0, 11] 4) 0 (next_view _ [0, 0, 0, 11])
  revert hread
  decide +kernel

end SockTestProgram
