import Mathlib.Tactic.Linarith
import SockTestProgram.Io.StreamBuffer

/-!
# The values of the read loop

`readInt32` and `readInt16` compute in `int`.  `rounds` lists the exact integers that the rounds of
their loop compute; `accumulate` is the loop on a machine that wraps (`accumulate_ofInt`).  In each
round `b` is the largest of the three values, so the loop stays inside `int` exactly if its last
`b` does (`rounds_fit_iff`): with two bytes it does, with four it does not.
-/

namespace SockTestProgram

namespace StreamBuffer

/-- What one round of `v += (unsigned char)(read_ptr_[i]) * b; b <<= 8` computes. -/
structure Round where
  /-- `(unsigned char)(read_ptr_[i]) * b` -/
  product : ℤ
  /-- `v` after the addition. -/
  v : ℤ
  /-- `b` after the shift. -/
  b : ℤ
  deriving DecidableEq, Repr

/-- All three values are representable in an `int`. -/
def Round.Fits (r : Round) : Prop := FitsInt r.product ∧ FitsInt r.v ∧ FitsInt r.b

instance (r : Round) : Decidable r.Fits := inferInstanceAs (Decidable (_ ∧ _))

/-- The rounds of the loop, over exact integers. -/
def rounds (v b : ℤ) : Bytes → List Round
  | [] => []
  | c :: cs =>
    let product := c.toNat * b
    ⟨product, v + product, b <<< (8 : ℕ)⟩ :: rounds (v + product) (b <<< (8 : ℕ)) cs

/-- The rounds of `readInt32`. -/
def int32Rounds (H : Memory.Heap UInt8) (sb : StreamBuffer) : List Round :=
  if sb.payLength < 4 then [] else rounds 0 1 (H.load sb.block sb.readPtr 4)

/-- The rounds of `readInt16`. -/
def int16Rounds (H : Memory.Heap UInt8) (sb : StreamBuffer) : List Round :=
  if sb.payLength < 2 then [] else rounds 0 1 (H.load sb.block sb.readPtr 2)

theorem shiftLeft_eight (b : ℤ) : b <<< (8 : ℕ) = b * 256 := by
  rw [Int.shiftLeft_eq]
  norm_num

/-- The loop in wrapping arithmetic ends with the `v` of the last round, modulo `2 ^ 32`. -/
theorem accumulate_ofInt (v b : ℤ) (cs : Bytes) :
    accumulate (BitVec.ofInt 32 v) (BitVec.ofInt 32 b) cs =
      BitVec.ofInt 32 (((rounds v b cs).getLast?.map Round.v).getD v) := by
  induction cs generalizing v b with
  | nil => rfl
  | cons c cs ih =>
    have hc : c.toBitVec.setWidth 32 = BitVec.ofInt 32 c.toNat := by
      apply BitVec.eq_of_toNat_eq
      simp
    have hb : BitVec.ofInt 32 b <<< (8 : ℕ) = BitVec.ofInt 32 (b <<< (8 : ℕ)) := by
      rw [shiftLeft_eight, BitVec.ofInt_mul, BitVec.shiftLeft_eq_mul_twoPow]
      rfl
    have hv : BitVec.ofInt 32 v + BitVec.ofInt 32 c.toNat * BitVec.ofInt 32 b =
        BitVec.ofInt 32 (v + c.toNat * b) := by
      rw [BitVec.ofInt_add, BitVec.ofInt_mul]
    rw [accumulate, hc, hb, hv, ih, rounds, List.getLast?_cons]
    cases (rounds (v + c.toNat * b) (b <<< (8 : ℕ)) cs).getLast? with
    | none => rfl
    | some r => rfl

/-- The output of `readInt32` is the `v` of its last round, modulo `2 ^ 32`. -/
theorem readInt32_eq_rounds (H : Memory.Heap UInt8) (o : Word.ByteOrder) {sb : StreamBuffer}
    (h : 4 ≤ sb.payLength) (value : BitVec 32) :
    (sb.readInt32 H o value).2.1 = Word.networkToHostLong o
      (BitVec.ofInt 32 (((sb.int32Rounds H).getLast?.map Round.v).getD 0)) := by
  have hlen : ¬ sb.payLength < 4 := by omega
  rw [readInt32, if_neg hlen, int32Rounds, if_neg hlen, ← accumulate_ofInt]
  rfl

/-- In every round `b` bounds the other two values, and the last `b` bounds those before it. -/
theorem le_b_of_mem_rounds {v b : ℤ} {cs : Bytes} (hv : 0 ≤ v) (hvb : v < b) {r : Round}
    (hr : r ∈ rounds v b cs) :
    (0 ≤ r.product ∧ r.product < r.b) ∧ (0 ≤ r.v ∧ r.v < r.b) ∧ r.b ≤ b * 256 ^ cs.length := by
  induction cs generalizing v b with
  | nil => cases hr
  | cons c cs ih =>
    have hc : (c.toNat : ℤ) ≤ 255 := by
      have := c.toNat_lt
      omega
    have hproduct : 0 ≤ (c.toNat : ℤ) * b := by
      apply mul_nonneg (Int.natCast_nonneg _)
      omega
    have hle : (c.toNat : ℤ) * b ≤ 255 * b := by
      apply mul_le_mul_of_nonneg_right hc
      omega
    have hpow : b * 256 ^ (c :: cs).length = b * 256 * 256 ^ cs.length := by
      rw [List.length_cons, pow_succ]
      ring
    rw [rounds, List.mem_cons, shiftLeft_eight] at hr
    rw [hpow]
    rcases hr with rfl | hr
    · have hone : (1 : ℤ) ≤ 256 ^ cs.length := one_le_pow₀ (by norm_num)
      simp only
      refine ⟨⟨hproduct, by omega⟩, ⟨by omega, by omega⟩, ?_⟩
      exact le_mul_of_one_le_right (by omega) hone
    · exact ih (by omega) (by omega) hr

/-- The `b` of the last round. -/
theorem exists_last_b (v b : ℤ) {cs : Bytes} (hcs : cs ≠ []) :
    ∃ r ∈ rounds v b cs, r.b = b * 256 ^ cs.length := by
  induction cs generalizing v b with
  | nil => exact absurd rfl hcs
  | cons c cs ih =>
    by_cases hnil : cs = []
    · subst hnil
      refine ⟨_, List.mem_cons_self, ?_⟩
      rw [shiftLeft_eight, List.length_singleton, pow_one]
    · obtain ⟨r, hr, hb⟩ := ih (v + c.toNat * b) (b <<< (8 : ℕ)) hnil
      refine ⟨r, List.mem_cons_of_mem _ hr, ?_⟩
      rw [hb, shiftLeft_eight, List.length_cons, pow_succ]
      ring

/-- The loop stays inside `int` exactly if its last `b` does. -/
theorem rounds_fit_iff {v b : ℤ} {cs : Bytes} (hv : 0 ≤ v) (hvb : v < b) (hcs : cs ≠ []) :
    (∀ r ∈ rounds v b cs, r.Fits) ↔ b * 256 ^ cs.length < 2 ^ 31 := by
  constructor
  · intro h
    obtain ⟨r, hr, hb⟩ := exists_last_b v b hcs
    exact hb ▸ (h r hr).2.2.2
  · intro h r hr
    obtain ⟨hproduct, hv', hb⟩ := le_b_of_mem_rounds hv hvb hr
    refine ⟨?_, ?_, ?_⟩
    all_goals
      unfold FitsInt
      omega

/-- The sum goes past `int` only in the fourth round, and there exactly for a byte from 128 on. -/
theorem fitsInt_last_sum_iff (c₀ c₁ c₂ c₃ : UInt8) :
    (∀ r ∈ rounds 0 1 [c₀, c₁, c₂, c₃], FitsInt r.product ∧ FitsInt r.v) ↔ c₃.toNat < 128 := by
  have h₀ := c₀.toNat_lt
  have h₁ := c₁.toNat_lt
  have h₂ := c₂.toNat_lt
  have h₃ := c₃.toNat_lt
  simp only [rounds, shiftLeft_eight, List.forall_mem_cons, FitsInt, List.not_mem_nil,
    false_imp_iff, implies_true, and_true]
  omega

/-- Two bytes are read without overflow. -/
theorem int16Rounds_fit (H : Memory.Heap UInt8) (sb : StreamBuffer) :
    ∀ r ∈ sb.int16Rounds H, r.Fits := by
  unfold int16Rounds
  split_ifs with hlen
  · intro r hr
    cases hr
  · have hload : (H.load sb.block sb.readPtr 2).length = 2 := H.length_load _ _ _
    refine (rounds_fit_iff le_rfl one_pos ?_).2 ?_
    · exact List.ne_nil_of_length_eq_add_one hload
    · rw [hload]
      norm_num

/-- **Four bytes are never read without overflow**: the last `b <<= 8` gives `2 ^ 32`. -/
theorem int32Rounds_overflow (H : Memory.Heap UInt8) {sb : StreamBuffer} (h : 4 ≤ sb.payLength) :
    ¬ ∀ r ∈ sb.int32Rounds H, r.Fits := by
  have hload : (H.load sb.block sb.readPtr 4).length = 4 := H.length_load _ _ _
  unfold int32Rounds
  rw [if_neg (by omega), rounds_fit_iff le_rfl one_pos (List.ne_nil_of_length_eq_add_one hload),
    hload]
  norm_num

/-- Four zero bytes overflow like any others. -/
theorem int32Rounds_overflow_zeros :
    ¬ ∀ r ∈ (view [0, 0, 0, 0] 4).int32Rounds (Memory.Heap.const 0), r.Fits :=
  int32Rounds_overflow _ (by decide)

/-- The header of a frame of 11 bytes overflows in `b`. -/
theorem int32Rounds_header :
    ¬ ∀ (H : Memory.Heap UInt8) (sb : StreamBuffer), 4 ≤ sb.payLength →
      ∀ r ∈ sb.int32Rounds H, r.Fits := by
  intro h
  have := h (Memory.Heap.const 0) (view [0, 0, 0, 11] 4) (by decide)
  revert this
  decide +kernel

end StreamBuffer

end SockTestProgram
