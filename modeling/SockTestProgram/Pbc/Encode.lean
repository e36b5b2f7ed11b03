import SockTestProgram.Pbc.Decode

/-!
# Writing numbers

The encoders of `varint.c`.  Both ways in which a number is written come to the same bytes
(`pbcVEncode_eq`), and `_pbcV_decode` reads them back; so do the zigzag numbers of 64 bits.  Of a
zigzag number of 32 bits the lower word is read back, the upper word is not always its sign
(`dezigzag32_zigzag32`).
-/

open Varint

namespace SockTestProgram

/-! ## The encoders -/

/-- A cast to `uint8_t`. -/
def toByte {w : ℕ} (x : BitVec w) : UInt8 := ⟨x.setWidth 8⟩

/-- `_pbcV_encode32`: the bytes it writes. -/
def pbcVEncode32 (number : BitVec 32) : Bytes :=
  if number < 0x80 then [toByte number]
  else
    toByte (number ||| 0x80) ::
      if number < 0x4000 then [toByte (number >>> 7)]
      else
        toByte (number >>> 7 ||| 0x80) ::
          if number < 0x200000 then [toByte (number >>> 14)]
          else
            toByte (number >>> 14 ||| 0x80) ::
              if number < 0x10000000 then [toByte (number >>> 21)]
              else [toByte (number >>> 21 ||| 0x80), toByte (number >>> 28)]

/-- The loop of `_pbcV_encode`. -/
def encodeLoop : ℕ → BitVec 64 → Bytes
  | 0, _ => []
  | budget + 1, number =>
    toByte (number ||| 0x80) ::
      if 0x80 ≤ number >>> 7 then encodeLoop budget (number >>> 7) else [toByte (number >>> 7)]

/-- `_pbcV_encode`: the bytes it writes. -/
def pbcVEncode (number : BitVec 64) : Bytes :=
  if number &&& 0xffffffff = number then pbcVEncode32 (number.setWidth 32)
  else encodeLoop 10 number

/-- The number that `_pbcV_zigzag32` writes. -/
def zigzag32 (n : BitVec 32) : BitVec 32 := n <<< 1 ^^^ n.sshiftRight 31

/-- The number that `_pbcV_zigzag` writes. -/
def zigzag (n : BitVec 64) : BitVec 64 := n <<< 1 ^^^ n.sshiftRight 63

/-- `_pbcV_zigzag32`: the bytes it writes. -/
def pbcVZigzag32 (n : BitVec 32) : Bytes := pbcVEncode32 (zigzag32 n)

/-- `_pbcV_zigzag`: the bytes it writes. -/
def pbcVZigzag (n : BitVec 64) : Bytes := pbcVEncode (zigzag n)

namespace LongLong

/-- `(uint64_t)low | (uint64_t)hi << 32` -/
def number (r : LongLong) : BitVec 64 := r.low.setWidth 64 ||| r.hi.setWidth 64 <<< 32

/-- The two words of a number. -/
def ofBitVec (n : BitVec 64) : LongLong := ⟨n.setWidth 32, (n >>> 32).setWidth 32⟩

theorem toNat_number (r : LongLong) : r.number.toNat = r.low.toNat + 2 ^ 32 * r.hi.toNat := by
  have hlow := r.low.isLt
  have hhi := r.hi.isLt
  have hshift : (r.hi.setWidth 64 <<< 32).toNat = r.hi.toNat <<< 32 := by
    rw [BitVec.toNat_shiftLeft, BitVec.toNat_setWidth, Nat.shiftLeft_eq, Nat.shiftLeft_eq]
    omega
  rw [number, BitVec.toNat_or, hshift, BitVec.toNat_setWidth, Nat.mod_eq_of_lt (by omega),
    Nat.or_comm, ← Nat.shiftLeft_add_eq_or_of_lt hlow, Nat.shiftLeft_eq]
  omega

theorem ofBitVec_number (r : LongLong) : ofBitVec r.number = r := by
  have hnumber := r.toNat_number
  have hlow := r.low.isLt
  have hhi := r.hi.isLt
  obtain ⟨low, hi⟩ := r
  unfold ofBitVec
  congr 1 <;> apply BitVec.eq_of_toNat_eq
  · rw [BitVec.toNat_setWidth, hnumber]
    simp only
    omega
  · rw [BitVec.toNat_setWidth, BitVec.toNat_ushiftRight, hnumber, Nat.shiftRight_eq_div_pow]
    simp only
    omega

theorem ofNat_toNat (n : BitVec 64) : LongLong.ofNat n.toNat = ofBitVec n := by
  unfold LongLong.ofNat ofBitVec
  congr 1
  apply BitVec.eq_of_toNat_eq
  rw [BitVec.toNat_ofNat, BitVec.toNat_setWidth, BitVec.toNat_ushiftRight,
    Nat.shiftRight_eq_div_pow]

end LongLong

/-! ## The bytes of a number -/

variable {w : ℕ}

theorem toByte_shift (x : BitVec w) (k : ℕ) : toByte (x >>> k) = UInt8.ofNat (x.toNat / 2 ^ k) := by
  apply UInt8.eq_of_toBitVec_eq
  apply BitVec.eq_of_toNat_eq
  show ((x >>> k).setWidth 8).toNat = (BitVec.ofNat 8 (x.toNat / 2 ^ k)).toNat
  rw [BitVec.toNat_setWidth, BitVec.toNat_ushiftRight, BitVec.toNat_ofNat,
    Nat.shiftRight_eq_div_pow]

theorem toByte_eq (x : BitVec w) : toByte x = UInt8.ofNat x.toNat := by
  simpa using toByte_shift x 0

/-- A group with its top bit set. -/
theorem toByte_or {x y : BitVec w} (hy : y.toNat = 128) :
    toByte (x ||| y) = UInt8.ofNat (x.toNat % 128 + 128) := by
  have hall : ∀ i : Fin 256, i.val ||| 128 = i.val % 128 + 128 := by decide +kernel
  have hbyte := hall ⟨x.toNat % 256, Nat.mod_lt _ (by decide)⟩
  simp only at hbyte
  apply UInt8.eq_of_toBitVec_eq
  apply BitVec.eq_of_toNat_eq
  show ((x ||| y).setWidth 8).toNat = (BitVec.ofNat 8 (x.toNat % 128 + 128)).toNat
  rw [BitVec.toNat_setWidth, BitVec.toNat_or, BitVec.toNat_ofNat, hy, Nat.or_mod_two_pow]
  show x.toNat % 256 ||| 128 = _
  omega

theorem pbcVEncode32_eq (number : BitVec 32) : pbcVEncode32 number = encode number.toNat := by
  have hlt := number.isLt
  have hor {x : BitVec 32} : toByte (x ||| 0x80) = UInt8.ofNat (x.toNat % 128 + 128) :=
    toByte_or rfl
  unfold pbcVEncode32
  simp only [BitVec.lt_def, toByte_eq number, toByte_shift, hor, BitVec.toNat_ushiftRight,
    Nat.shiftRight_eq_div_pow]
  show (if number.toNat < 128 then _ else _ :: if number.toNat < 16384 then _ else
    _ :: if number.toNat < 2097152 then _ else _ :: if number.toNat < 268435456 then _ else _) = _
  by_cases h1 : number.toNat < 128
  · rw [if_pos h1, encode_of_lt h1]
  rw [if_neg h1, encode_of_le (by omega)]
  by_cases h2 : number.toNat < 16384
  · rw [if_pos h2, encode_of_lt (by omega)]
    rfl
  rw [if_neg h2, encode_of_le (by omega), Nat.div_div_eq_div_mul]
  by_cases h3 : number.toNat < 2097152
  · rw [if_pos h3, encode_of_lt (by omega)]
    rfl
  rw [if_neg h3, encode_of_le (by omega), Nat.div_div_eq_div_mul]
  by_cases h4 : number.toNat < 268435456
  · rw [if_pos h4, encode_of_lt (by omega)]
    rfl
  rw [if_neg h4, encode_of_le (by omega), Nat.div_div_eq_div_mul, encode_of_lt (by omega)]
  rfl

theorem encodeLoop_eq {budget : ℕ} {number : BitVec 64} (hle : 128 ≤ number.toNat)
    (hlt : number.toNat < 128 ^ (budget + 1)) : encodeLoop budget number = encode number.toNat := by
  induction budget generalizing number with
  | zero => omega
  | succ budget ih =>
    have hshift : (number >>> 7).toNat = number.toNat / 128 := by
      rw [BitVec.toNat_ushiftRight, Nat.shiftRight_eq_div_pow]
    have hdiv : number.toNat / 128 < 128 ^ (budget + 1) := by
      rw [Nat.div_lt_iff_lt_mul (by decide), ← pow_succ]
      exact hlt
    have hmore : (0x80 ≤ number >>> 7) ↔ 128 ≤ number.toNat / 128 := by
      rw [BitVec.le_def, hshift]
      rfl
    rw [encodeLoop, encode_of_le hle, toByte_or rfl]
    simp only [hmore]
    split_ifs with h
    · rw [ih (by rwa [hshift]) (by rwa [hshift]), hshift]
    · rw [toByte_eq, hshift, encode_of_lt (Nat.lt_of_not_le h)]

/-- Both ways to write a number write its groups. -/
theorem pbcVEncode_eq (number : BitVec 64) : pbcVEncode number = encode number.toNat := by
  have hand : (number &&& 0xffffffff).toNat = number.toNat % 2 ^ 32 := by
    rw [BitVec.toNat_and]
    exact Nat.and_two_pow_sub_one_eq_mod _ 32
  have hlt := number.isLt
  unfold pbcVEncode
  split_ifs with hword
  · rw [← BitVec.toNat_inj, hand] at hword
    rw [pbcVEncode32_eq, BitVec.toNat_setWidth, hword]
  · rw [← BitVec.toNat_inj, hand] at hword
    exact encodeLoop_eq (by omega) (by omega)

theorem length_pbcVEncode32_le (number : BitVec 32) : (pbcVEncode32 number).length ≤ 5 := by
  rw [pbcVEncode32_eq]
  exact length_encode_le (by omega)

theorem length_pbcVEncode_le (number : BitVec 64) : (pbcVEncode number).length ≤ 10 := by
  rw [pbcVEncode_eq]
  exact length_encode_le (by omega)

/-- **Numbers.**  A number takes at most ten bytes, and is read back from them whatever follows. -/
theorem pbcVDecode_pbcVEncode (number : BitVec 64) (rest : Bytes) :
    (pbcVEncode number).length ≤ 10 ∧
      pbcVDecode (pbcVEncode number ++ rest) =
        some (LongLong.ofBitVec number, (pbcVEncode number).length) := by
  refine ⟨length_pbcVEncode_le number, ?_⟩
  rw [pbcVEncode_eq, pbcVDecode_encode number.isLt, LongLong.ofNat_toNat]

/-! ## Zigzag -/

theorem getLsbD_neg_and_one (x : BitVec 32) {i : ℕ} (hi : i < 32) :
    (-(x &&& 1)).getLsbD i = x.getLsbD 0 := by
  show (-(x &&& 1#32)).getLsbD i = _
  rw [BitVec.and_one_eq_setWidth_ofBool_getLsbD]
  cases x.getLsbD 0 with
  | false => simp
  | true =>
    have hneg : -(BitVec.setWidth 32 (BitVec.ofBool true)) = BitVec.allOnes 32 := by decide
    rw [hneg, BitVec.getLsbD_allOnes, decide_eq_true hi]

/-- All bits of a zigzag number apart from the first one are complemented by the sign. -/
theorem getLsbD_zigzag (n : BitVec w) {k i : ℕ} (hk : k + 1 = w) (hi : i < w) :
    (n <<< 1 ^^^ n.sshiftRight k).getLsbD i =
      if i = 0 then n.msb else (n.getLsbD (i - 1)).xor n.msb := by
  subst hk
  rw [BitVec.getLsbD_xor, BitVec.getLsbD_shiftLeft, BitVec.getLsbD_sshiftRight]
  obtain rfl | hpos := Nat.eq_zero_or_pos i
  · simp [BitVec.msb_eq_getLsbD_last]
  · have h0 : i ≠ 0 := by omega
    have hk : ¬ k + i < k + 1 := by omega
    have hone : ¬ i < 1 := by omega
    have hge : ¬ k + 1 ≤ i := by omega
    simp only [hi, h0, hk, hone, hge, decide_true, decide_false, Bool.not_false,
      Bool.true_and, if_false]

/-- **Zigzag numbers.**  Every number of 64 bits is read back. -/
theorem dezigzag64_zigzag (n : BitVec 64) : dezigzag64 (.ofBitVec (zigzag n)) = .ofBitVec n := by
  have hsign : ((zigzag n).setWidth 32).getLsbD 0 = n.msb := by
    rw [BitVec.getLsbD_setWidth, zigzag, getLsbD_zigzag n rfl (by decide)]
    rfl
  have hbit {i : ℕ} (hi : i < 63) : ((zigzag n).getLsbD (i + 1)).xor n.msb = n.getLsbD i := by
    rw [zigzag, getLsbD_zigzag n rfl (by omega), if_neg (by omega), Nat.add_sub_cancel,
      Bool.xor_assoc, Bool.xor_self, Bool.xor_false]
  unfold dezigzag64 LongLong.ofBitVec
  congr 1 <;> apply BitVec.eq_of_getLsbD_eq <;> intro i hi <;>
    rw [BitVec.getLsbD_xor, getLsbD_neg_and_one _ hi, hsign]
  · rw [BitVec.getLsbD_setWidth, decide_eq_true hi, Bool.true_and, ← hbit (by omega)]
    congr 1
    obtain hlt | rfl : i < 31 ∨ i = 31 := by omega
    · have hlt' : i + 1 < 32 := by omega
      simp [hlt, hlt', Nat.add_comm 1 i]
    · simp
  · rw [BitVec.getLsbD_setWidth, decide_eq_true hi, Bool.true_and, BitVec.getLsbD_ushiftRight n]
    obtain hlt | rfl : i < 31 ∨ i = 31 := by omega
    · have hlt' : i + 1 < 32 := by omega
      rw [← hbit (by omega)]
      simp [hlt', Nat.add_comm 1 i, Nat.add_assoc]
    · simp [BitVec.msb_eq_getLsbD_last]

theorem neg_top {z : BitVec 32} : -(z >>> 31) = if z.getLsbD 31 then -1 else 0 := by
  have hlt := z.isLt
  have htop : z.getLsbD 31 = decide (z.toNat / 2 ^ 31 = 1) := by
    rw [BitVec.getLsbD, Nat.testBit_eq_decide_div_mod_eq]
    congr 1
    rw [eq_iff_iff]
    omega
  have hshift : z >>> 31 = if z.getLsbD 31 then 1 else 0 := by
    apply BitVec.eq_of_toNat_eq
    rw [BitVec.toNat_ushiftRight, Nat.shiftRight_eq_div_pow, htop]
    by_cases h : z.toNat / 2 ^ 31 = 1
    · rw [decide_eq_true h, if_pos rfl, h]
      rfl
    · rw [decide_eq_false h, if_neg Bool.false_ne_true]
      show _ = 0
      omega
  rw [hshift]
  split_ifs <;> rfl

/-- **Zigzag numbers of 32 bits.**  The lower word is read back.  The upper word is computed from
the number as it was written, and so it is the sign for numbers from 0 to below `2 ^ 30` and for
those below `-2 ^ 30` only. -/
theorem dezigzag32_zigzag32 (n hi : BitVec 32) :
    (dezigzag32 ⟨zigzag32 n, hi⟩).low = n ∧
      ((dezigzag32 ⟨zigzag32 n, hi⟩).hi = (if n.msb then -1 else 0) ↔
        (0 ≤ n.toInt ∧ n.toInt < 2 ^ 30) ∨ n.toInt < -2 ^ 30) := by
  constructor
  · have hsign : (zigzag32 n).getLsbD 0 = n.msb := by
      rw [zigzag32, getLsbD_zigzag n rfl (by decide)]
      rfl
    unfold dezigzag32
    apply BitVec.eq_of_getLsbD_eq
    intro i hi
    rw [BitVec.getLsbD_xor, getLsbD_neg_and_one _ hi, hsign, BitVec.getLsbD_ushiftRight,
      Nat.add_comm]
    obtain hlt | rfl : i < 31 ∨ i = 31 := by omega
    · rw [zigzag32, getLsbD_zigzag n rfl (by omega), if_neg (by omega), Nat.add_sub_cancel,
        Bool.xor_assoc, Bool.xor_self, Bool.xor_false]
    · rw [BitVec.getLsbD_of_ge _ _ (by decide), Bool.false_xor, BitVec.msb_eq_getLsbD_last]
  · have htop : (zigzag32 n).getLsbD 31 = (n.getLsbD 30).xor n.msb := by
      rw [zigzag32, getLsbD_zigzag n rfl (by decide), if_neg (by decide)]
    have hsame : (dezigzag32 ⟨zigzag32 n, hi⟩).hi = (if n.msb then -1 else 0) ↔
        n.getLsbD 30 = false := by
      unfold dezigzag32
      simp only
      rw [neg_top, htop]
      cases n.getLsbD 30 <;> cases n.msb <;> simp
    have hlt := n.isLt
    rw [hsame, BitVec.getLsbD, Nat.testBit_eq_decide_div_mod_eq, decide_eq_false_iff_not,
      BitVec.toInt_eq_toNat_cond]
    split_ifs <;> omega

end SockTestProgram
