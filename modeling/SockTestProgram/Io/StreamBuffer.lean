import Mathlib.Data.Nat.Digits.Defs
import Mathlib.Tactic.Linarith
import Mathlib.Tactic.Ring
import SockTestProgram.Lib.Memory
import SockTestProgram.Lib.Word

/-!
# `StreamBuffer`

The byte buffer of `io/StreamBuffer.cc`.  The four pointers are offsets from `begin_ptr_` into the
block that starts there.  An owned buffer (`StreamBuffer.empty`) grows by `append`; a view
(`StreamBuffer.view`) reads memory of somebody else, which may be shorter than the view says.

The heap `H` supplies what is read outside the bytes that were written: the contents of a block
fresh from `malloc`, and the bytes past the end of a block.
-/

open Memory Word

namespace SockTestProgram

abbrev Bytes := List UInt8

/-- The value is representable in a 32-bit signed `int`. -/
def FitsInt (x : ℤ) : Prop := -2 ^ 31 ≤ x ∧ x < 2 ^ 31

instance (x : ℤ) : Decidable (FitsInt x) := inferInstanceAs (Decidable (_ ∧ _))

structure StreamBuffer where
  /-- The memory from `begin_ptr_` on. -/
  block : Bytes
  /-- `read_ptr_ - begin_ptr_` -/
  readPtr : ℕ
  /-- `write_ptr_ - begin_ptr_` -/
  writePtr : ℕ
  /-- `end_ptr_ - begin_ptr_` -/
  endPtr : ℕ
  owned : Bool
  deriving DecidableEq, Repr

namespace StreamBuffer

/-- The default constructor. -/
def empty (H : Heap UInt8) : StreamBuffer :=
  let sizePrefer := 2
  ⟨H.fresh sizePrefer, 0, 0, sizePrefer, true⟩

/-- The constructor over `length` bytes at `start`; `write_ptr_` is at the end of the view. -/
def view (start : Bytes) (length : ℕ) : StreamBuffer := ⟨start, 0, length, length, false⟩

def payLength (sb : StreamBuffer) : ℤ := sb.writePtr - sb.readPtr

def commit (sb : StreamBuffer) (offset : ℕ) : StreamBuffer :=
  { sb with readPtr := sb.readPtr + offset }

/-- Room behind `write_ptr_`. -/
def left (sb : StreamBuffer) : ℤ := sb.endPtr - sb.writePtr

/-- Room behind `write_ptr_` and before `read_ptr_`. -/
def totLeft (sb : StreamBuffer) : ℤ := sb.left + sb.readPtr

/-- The copy into the room at the tail. -/
def copyTail (H : Heap UInt8) (sb : StreamBuffer) (start : Bytes) (length : ℕ) : StreamBuffer :=
  { sb with
    block := store sb.block sb.writePtr (H.load start 0 length)
    writePtr := sb.writePtr + length }

/-- The `memmove` to the front: it moves as many bytes as were consumed. -/
def slide (H : Heap UInt8) (sb : StreamBuffer) : StreamBuffer :=
  let offset := sb.readPtr
  { sb with
    block := store sb.block 0 (H.load sb.block sb.readPtr offset)
    readPtr := sb.readPtr - offset
    writePtr := sb.writePtr - offset }

/-- The move into a block of twice the size. -/
def grow (H : Heap UInt8) (sb : StreamBuffer) : StreamBuffer :=
  let size := sb.endPtr * 2
  { sb with
    block := store (H.fresh size) 0 (H.load sb.block sb.readPtr sb.payLength.toNat)
    readPtr := 0
    writePtr := sb.payLength.toNat
    endPtr := size }

/-- `append`.  `none` where an `int` of the call overflows, or where the block is empty and
doubling it would go on for ever. -/
def append (H : Heap UInt8) (sb : StreamBuffer) (start : Bytes) (length : ℤ) :
    Option StreamBuffer :=
  if ¬ sb.owned then some sb
  else if length ≤ 0 then some sb
  else if ¬ (FitsInt sb.payLength ∧ FitsInt sb.left ∧ FitsInt sb.totLeft) then none
  else if length ≤ sb.left then some (sb.copyTail H start length.toNat)
  else if length ≤ sb.totLeft then append H (sb.slide H) start length
  else if 0 < sb.endPtr ∧ FitsInt (sb.endPtr * 2) then append H (sb.grow H) start length
  else none
termination_by 2 * (2 ^ 31 - sb.endPtr) + if 0 < sb.readPtr then 1 else 0
decreasing_by
  · have hread : 0 < sb.readPtr := by simp only [totLeft] at *; omega
    simp [slide, hread]
  · simp only [grow, lt_self_iff_false, if_false, FitsInt] at *
    omega

/-- The loop `v += (unsigned char)(read_ptr_[i]) * b; b <<= 8`, in wrapping arithmetic. -/
def accumulate (v b : BitVec 32) : Bytes → BitVec 32
  | [] => v
  | c :: cs => accumulate (v + c.toBitVec.setWidth 32 * b) (b <<< 8) cs

/-- One round of the loop, with `b = 2 ^ (8 * k)`. -/
theorem toNat_accumulate_round {v : BitVec 32} {k : ℕ} (hk : k < 4) (hv : v.toNat < 2 ^ (8 * k))
    (c : UInt8) :
    (v + c.toBitVec.setWidth 32 * BitVec.ofNat 32 (2 ^ (8 * k))).toNat =
      v.toNat + c.toNat * 2 ^ (8 * k) := by
  have hc := c.toNat_lt
  rw [BitVec.toNat_add, BitVec.toNat_mul, BitVec.toNat_setWidth, UInt8.toNat_toBitVec,
    BitVec.toNat_ofNat]
  obtain rfl | rfl | rfl | rfl : k = 0 ∨ k = 1 ∨ k = 2 ∨ k = 3 := by omega
  all_goals
    simp only [Nat.reduceMul, Nat.reducePow, Nat.reduceMod] at *
    omega

/-- The loop reads a little-endian number. -/
theorem toNat_accumulate (cs : Bytes) (v : BitVec 32) (k : ℕ) (hk : k + cs.length ≤ 4)
    (hv : v.toNat < 2 ^ (8 * k)) :
    (accumulate v (BitVec.ofNat 32 (2 ^ (8 * k))) cs).toNat =
      v.toNat + 2 ^ (8 * k) * Nat.ofDigits 256 (cs.map UInt8.toNat) := by
  induction cs generalizing v k with
  | nil => simp [accumulate]
  | cons c cs ih =>
    simp only [List.length_cons] at hk
    have hc := c.toNat_lt
    have hround := toNat_accumulate_round (show k < 4 by omega) hv c
    have hshift : BitVec.ofNat 32 (2 ^ (8 * k)) <<< 8 = BitVec.ofNat 32 (2 ^ (8 * (k + 1))) := by
      obtain rfl | rfl | rfl | rfl : k = 0 ∨ k = 1 ∨ k = 2 ∨ k = 3 := by omega
      all_goals rfl
    have hpow : 2 ^ (8 * (k + 1)) = 2 ^ (8 * k) * 256 := by ring
    have hlt : v.toNat + c.toNat * 2 ^ (8 * k) < 2 ^ (8 * (k + 1)) := by
      rw [hpow]
      nlinarith
    rw [accumulate, hshift, ih _ (k + 1) (by omega) (hround ▸ hlt), hround]
    simp only [List.map_cons, Nat.ofDigits_cons, hpow]
    ring

theorem accumulate_four (a b c d : UInt8) :
    accumulate 0#32 1#32 [a, b, c, d] = ofBytes d c b a := by
  apply BitVec.eq_of_toNat_eq
  have h := toNat_accumulate [a, b, c, d] 0#32 0 (by simp) (by simp)
  refine h.trans ?_
  simp only [toNat_ofBytes, BitVec.toNat_ofNat, List.map_cons, List.map_nil, Nat.ofDigits_cons,
    Nat.ofDigits_nil]
  ring

theorem accumulate_two (a b : UInt8) : accumulate 0#32 1#32 [a, b] = ofBytes 0 0 b a := by
  apply BitVec.eq_of_toNat_eq
  have h := toNat_accumulate [a, b] 0#32 0 (by simp) (by simp)
  refine h.trans ?_
  simp only [toNat_ofBytes, BitVec.toNat_ofNat, List.map_cons, List.map_nil, Nat.ofDigits_cons,
    Nat.ofDigits_nil, UInt8.toNat_zero]
  ring

/-- `readInt32(value)`: the result, the output parameter and the buffer afterwards. -/
def readInt32 (H : Heap UInt8) (o : ByteOrder) (sb : StreamBuffer) (value : BitVec 32) :
    Bool × BitVec 32 × StreamBuffer :=
  if sb.payLength < 4 then (false, value, sb)
  else
    let v := accumulate 0#32 1#32 (H.load sb.block sb.readPtr 4)
    (true, networkToHostLong o v, sb.commit 4)

def readInt16 (H : Heap UInt8) (o : ByteOrder) (sb : StreamBuffer) (value : BitVec 32) :
    Bool × BitVec 32 × StreamBuffer :=
  if sb.payLength < 2 then (false, value, sb)
  else
    let v := accumulate 0#32 1#32 (H.load sb.block sb.readPtr 2)
    (true, (networkToHostShort o (v.setWidth 16)).setWidth 32, sb.commit 2)

/-- `readString(str, length)` for `length ≥ 0`. -/
def readString (H : Heap UInt8) (sb : StreamBuffer) (str : Bytes) (length : ℕ) :
    Bool × Bytes × StreamBuffer :=
  if sb.payLength < length then (false, str, sb)
  else (true, H.load sb.block sb.readPtr length, sb.commit length)

/-! Every read is one of `length` bytes that are turned into the output. -/

/-- A read of `length` bytes, which `f` turns into the output; `old` is the output before. -/
def takeFront {α : Type} (H : Heap UInt8) (sb : StreamBuffer) (length : ℕ) (old : α)
    (f : Bytes → α) :
    Bool × α × StreamBuffer :=
  if sb.payLength < length then (false, old, sb)
  else (true, f (H.load sb.block sb.readPtr length), sb.commit length)

theorem readInt32_eq (H : Heap UInt8) (o : ByteOrder) (sb : StreamBuffer) (value : BitVec 32) :
    sb.readInt32 H o value =
      sb.takeFront H 4 value fun bytes => networkToHostLong o (accumulate 0#32 1#32 bytes) := rfl

theorem readInt16_eq (H : Heap UInt8) (o : ByteOrder) (sb : StreamBuffer) (value : BitVec 32) :
    sb.readInt16 H o value = sb.takeFront H 2 value fun bytes =>
      (networkToHostShort o ((accumulate 0#32 1#32 bytes).setWidth 16)).setWidth 32 := rfl

theorem readString_eq (H : Heap UInt8) (sb : StreamBuffer) (str : Bytes) (length : ℕ) :
    sb.readString H str length = sb.takeFront H length str id := rfl

/-- The `payLength()` bytes at `read_ptr_`. -/
def unread (H : Heap UInt8) (sb : StreamBuffer) : Bytes :=
  H.load sb.block sb.readPtr sb.payLength.toNat

end StreamBuffer

end SockTestProgram
