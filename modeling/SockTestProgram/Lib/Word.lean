import Mathlib.Data.BitVec
import Mathlib.Data.List.Basic

/-!
# 32-bit words and byte orders

The bytes of a 32-bit word in either order, the byte swap, and the conversion between the order of
a host and network order.  A word converted with `hostToNetworkLong` and stored in the order of
the host is the big-endian representation of the word, on every host.
-/

namespace Word

/-- Order in which a machine stores the bytes of an integer. -/
inductive ByteOrder
  | little
  | big
  deriving DecidableEq, Repr

/-- Byte `k` of a word, the least significant one first. -/
def byte (x : BitVec 32) (k : ℕ) : UInt8 := UInt8.ofBitVec (x.extractLsb' (8 * k) 8)

/-- The word with the given bytes, the most significant one first. -/
def ofBytes (a b c d : UInt8) : BitVec 32 :=
  a.toBitVec ++ b.toBitVec ++ c.toBitVec ++ d.toBitVec

/-- The big-endian representation of a word. -/
def bytesBE (x : BitVec 32) : List UInt8 := [byte x 3, byte x 2, byte x 1, byte x 0]

/-- The four bytes that a store of `x` puts in memory. -/
def storeInt : ByteOrder → BitVec 32 → List UInt8
  | .little, x => [byte x 0, byte x 1, byte x 2, byte x 3]
  | .big, x => bytesBE x

def byteSwap (x : BitVec 32) : BitVec 32 :=
  x.extractLsb' 0 8 ++ x.extractLsb' 8 8 ++ x.extractLsb' 16 8 ++ x.extractLsb' 24 8

def byteSwap16 (x : BitVec 16) : BitVec 16 := x.extractLsb' 0 8 ++ x.extractLsb' 8 8

/-- Conversion of a 32-bit integer from the order of the host to network order. -/
def hostToNetworkLong : ByteOrder → BitVec 32 → BitVec 32
  | .little, x => byteSwap x
  | .big, x => x

/-- Conversion of a 32-bit integer from network order to the order of the host. -/
def networkToHostLong : ByteOrder → BitVec 32 → BitVec 32
  | .little, x => byteSwap x
  | .big, x => x

/-- Conversion of a 16-bit integer from network order to the order of the host. -/
def networkToHostShort : ByteOrder → BitVec 16 → BitVec 16
  | .little, x => byteSwap16 x
  | .big, x => x

/-- Conversion of a 16-bit integer from the order of the host to network order. -/
def hostToNetworkShort : ByteOrder → BitVec 16 → BitVec 16
  | .little, x => byteSwap16 x
  | .big, x => x

@[simp] theorem length_bytesBE (x : BitVec 32) : (bytesBE x).length = 4 := rfl

theorem toNat_append {m n : ℕ} (x : BitVec m) (y : BitVec n) :
    (x ++ y).toNat = x.toNat * 2 ^ n + y.toNat := by
  rw [BitVec.toNat_append, ← Nat.shiftLeft_add_eq_or_of_lt y.isLt, Nat.shiftLeft_eq]

theorem toNat_ofBytes (a b c d : UInt8) :
    (ofBytes a b c d).toNat =
      a.toNat * 2 ^ 24 + b.toNat * 2 ^ 16 + c.toNat * 2 ^ 8 + d.toNat := by
  simp only [ofBytes, toNat_append, UInt8.toNat_toBitVec]
  omega

theorem byteSwap_ofBytes (a b c d : UInt8) : byteSwap (ofBytes d c b a) = ofBytes a b c d := by
  unfold byteSwap ofBytes
  ext i hi
  simp
  grind

theorem ofBytes_byte (x : BitVec 32) :
    ofBytes (byte x 3) (byte x 2) (byte x 1) (byte x 0) = x := by
  unfold ofBytes byte
  ext i hi
  simp
  grind

theorem bytesBE_ofBytes (a b c d : UInt8) : bytesBE (ofBytes a b c d) = [a, b, c, d] := by
  simp only [bytesBE, byte, ofBytes, List.cons.injEq, and_true]
  refine ⟨?_, ?_, ?_, ?_⟩ <;>
    (apply UInt8.toBitVec_inj.1; ext i hi; simp; grind)

theorem byte_byteSwap (x : BitVec 32) :
    byte (byteSwap x) 0 = byte x 3 ∧ byte (byteSwap x) 1 = byte x 2 ∧
      byte (byteSwap x) 2 = byte x 1 ∧ byte (byteSwap x) 3 = byte x 0 := by
  unfold byte byteSwap
  refine ⟨?_, ?_, ?_, ?_⟩ <;>
    (apply UInt8.toBitVec_inj.1; ext i hi; simp; grind)

/-- A converted word, stored, is the big-endian representation of the word. -/
theorem storeInt_hostToNetworkLong (o : ByteOrder) (x : BitVec 32) :
    storeInt o (hostToNetworkLong o x) = bytesBE x := by
  cases o with
  | little =>
    obtain ⟨h₀, h₁, h₂, h₃⟩ := byte_byteSwap x
    simp only [storeInt, hostToNetworkLong, bytesBE, h₀, h₁, h₂, h₃]
  | big => rfl

theorem byteSwap_byteSwap (x : BitVec 32) : byteSwap (byteSwap x) = x := by
  rw [← ofBytes_byte x, byteSwap_ofBytes, byteSwap_ofBytes]

theorem byteSwap16_byteSwap16 (x : BitVec 16) : byteSwap16 (byteSwap16 x) = x := by
  unfold byteSwap16
  ext i hi
  simp
  grind

theorem hostToNetworkLong_networkToHostLong (o : ByteOrder) (x : BitVec 32) :
    hostToNetworkLong o (networkToHostLong o x) = x := by
  cases o with
  | little => exact byteSwap_byteSwap x
  | big => rfl

theorem hostToNetworkShort_networkToHostShort (o : ByteOrder) (x : BitVec 16) :
    hostToNetworkShort o (networkToHostShort o x) = x := by
  cases o with
  | little => exact byteSwap16_byteSwap16 x
  | big => rfl

theorem storeInt_little_ofBytes (a b c d : UInt8) :
    storeInt .little (ofBytes d c b a) = [a, b, c, d] := by
  have h := congrArg List.reverse (bytesBE_ofBytes d c b a)
  exact h

end Word
