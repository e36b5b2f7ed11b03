import Mathlib.Algebra.Order.Ring.Nat
import Mathlib.Data.List.Basic
import Mathlib.Data.Fin.Basic

/-!
# Base-128 numbers

A number as groups of seven bits, the least significant group first, each in a byte of its own;
every byte but the last one has its top bit set.
-/

namespace Varint

def encode (n : ℕ) : List UInt8 :=
  if n < 128 then [UInt8.ofNat n] else UInt8.ofNat (n % 128 + 128) :: encode (n / 128)

/-- The group in a byte. -/
def group (b : UInt8) : ℕ := (b &&& 0x7f).toNat

/-- More groups follow. -/
def more (b : UInt8) : Bool := b &&& 0x80 ≠ 0

theorem group_eq (b : UInt8) : group b = b.toNat % 128 := by
  unfold group
  rw [UInt8.toNat_and]
  show b.toNat &&& (2 ^ 7 - 1) = _
  rw [Nat.and_two_pow_sub_one_eq_mod]

theorem more_iff (b : UInt8) : more b = true ↔ 128 ≤ b.toNat := by
  have hall : ∀ i : Fin 256, more (UInt8.ofNat i) = true ↔ 128 ≤ i.val := by decide +kernel
  have hb := hall ⟨b.toNat, b.toNat_lt⟩
  simpa using hb

theorem group_ofNat {g : ℕ} (h : g < 128) : group (UInt8.ofNat g) = g := by
  rw [group_eq, UInt8.toNat_ofNat']
  omega

theorem group_ofNat_add {g : ℕ} (h : g < 128) : group (UInt8.ofNat (g + 128)) = g := by
  rw [group_eq, UInt8.toNat_ofNat']
  omega

theorem more_ofNat {g : ℕ} (h : g < 128) : more (UInt8.ofNat g) = false := by
  rw [Bool.eq_false_iff, ne_eq, more_iff, UInt8.toNat_ofNat']
  omega

theorem more_ofNat_add {g : ℕ} (h : g < 128) : more (UInt8.ofNat (g + 128)) = true := by
  rw [more_iff, UInt8.toNat_ofNat']
  omega

/-! ## The bytes of a number -/

theorem encode_of_lt {n : ℕ} (h : n < 128) : encode n = [UInt8.ofNat n] := by
  rw [encode, if_pos h]

theorem encode_of_le {n : ℕ} (h : 128 ≤ n) :
    encode n = UInt8.ofNat (n % 128 + 128) :: encode (n / 128) := by
  rw [encode, if_neg (by omega)]

theorem length_encode_pos (n : ℕ) : 0 < (encode n).length := by
  by_cases h : n < 128
  · simp [encode_of_lt h]
  · simp [encode_of_le (Nat.le_of_not_lt h)]

theorem pow_succ_le_iff {n i : ℕ} : 128 ^ (i + 1) ≤ n ↔ 128 ^ i ≤ n / 128 := by
  rw [pow_succ, Nat.le_div_iff_mul_le (by decide)]

theorem length_encode_le {n k : ℕ} (h : n < 128 ^ (k + 1)) : (encode n).length ≤ k + 1 := by
  induction k generalizing n with
  | zero => simp [encode_of_lt (by simpa using h)]
  | succ k ih =>
    by_cases hlt : n < 128
    · simp [encode_of_lt hlt]
    · have hdiv : n / 128 < 128 ^ (k + 1) := by
        rw [Nat.div_lt_iff_lt_mul (by decide), ← pow_succ]
        exact h
      rw [encode_of_le (Nat.le_of_not_lt hlt), List.length_cons]
      have := ih hdiv
      omega

/-- Byte `i` of a number that is not the last one. -/
theorem getElem?_encode_of_le {n i : ℕ} (h : 128 ^ (i + 1) ≤ n) (rest : List UInt8) :
    (encode n ++ rest)[i]? = some (UInt8.ofNat (n / 128 ^ i % 128 + 128)) := by
  induction i generalizing n with
  | zero =>
    rw [encode_of_le (by simpa using h)]
    simp
  | succ i ih =>
    have hn : 128 ≤ n := le_trans (Nat.le_self_pow (by omega) 128) h
    rw [encode_of_le hn, List.cons_append, List.getElem?_cons_succ, ih (pow_succ_le_iff.1 h),
      Nat.div_div_eq_div_mul, ← pow_succ']

/-- The last byte of a number. -/
theorem getElem?_encode_last {n i : ℕ} (hle : i = 0 ∨ 128 ^ i ≤ n) (hlt : n < 128 ^ (i + 1))
    (rest : List UInt8) :
    (encode n ++ rest)[i]? = some (UInt8.ofNat (n / 128 ^ i)) ∧ (encode n).length = i + 1 := by
  induction i generalizing n with
  | zero =>
    rw [encode_of_lt (by simpa using hlt)]
    simp
  | succ i ih =>
    have hle' : 128 ^ (i + 1) ≤ n := by omega
    have hn : 128 ≤ n := le_trans (Nat.le_self_pow (by omega) 128) hle'
    obtain ⟨hbyte, hlength⟩ := ih (Or.inr (pow_succ_le_iff.1 hle')) (by
      rw [Nat.div_lt_iff_lt_mul (by decide), ← pow_succ]
      exact hlt)
    rw [encode_of_le hn, List.cons_append, List.getElem?_cons_succ, List.length_cons]
    refine ⟨?_, by omega⟩
    rw [hbyte, Nat.div_div_eq_div_mul, ← pow_succ']

/-- Groups put together by shifting and or-ing. -/
theorem or_shiftLeft_group (n i : ℕ) :
    n % 128 ^ i ||| (n / 128 ^ i % 128) <<< (7 * i) = n % 128 ^ (i + 1) := by
  have hpow : (128 : ℕ) ^ i = 2 ^ (7 * i) := (pow_mul 2 7 i).symm
  have hlt : n % 128 ^ i < 2 ^ (7 * i) := hpow ▸ Nat.mod_lt _ (Nat.pow_pos (by decide))
  rw [Nat.or_comm, ← Nat.shiftLeft_add_eq_or_of_lt hlt, Nat.shiftLeft_eq, ← hpow, Nat.mod_pow_succ,
    Nat.mul_comm, Nat.add_comm]

end Varint
