import Mathlib.Data.List.TakeDrop
import Mathlib.Data.List.Basic

/-!
# Memory blocks

A block of memory is the list of its cells.  `Heap` says what a program sees where it reads cells
that it never wrote: the contents of a block fresh from the allocator and the cells past the end of
a block.  `Heap.load` reads a range of cells (`memcpy`, `memmove` or an indexed read, as a source),
`store` overwrites one (as a destination), `slice` is the part of a block that a pair of pointers
delimits.
-/

namespace Memory

variable {β : Type*}

/-- What lies in memory outside the cells that were written. -/
structure Heap (β : Type*) where
  /-- The block returned by an allocation of `n` cells. -/
  fresh : ℕ → List β
  length_fresh : ∀ n, (fresh n).length = n
  /-- The cell `i` places past the end of a block. -/
  past : List β → ℕ → β

/-- The heap whose unwritten cells all hold `b`. -/
def Heap.const (b : β) : Heap β where
  fresh n := List.replicate n b
  length_fresh _ := List.length_replicate
  past _ _ := b

/-- The cell at offset `i` of a block. -/
def Heap.cell (H : Heap β) (block : List β) (i : ℕ) : β :=
  block[i]?.getD (H.past block (i - block.length))

/-- The `n` cells from offset `i` on. -/
def Heap.load (H : Heap β) (block : List β) (i n : ℕ) : List β :=
  (List.range n).map fun k => H.cell block (i + k)

/-- The `n` cells of the block from offset `i` on, as far as the block reaches. -/
def slice (block : List β) (i n : ℕ) : List β := (block.drop i).take n

/-- Overwrite the cells from offset `i` on. -/
def store (block : List β) (i : ℕ) (data : List β) : List β :=
  block.take i ++ data ++ block.drop (i + data.length)

/-! ## Reading -/

@[simp] theorem Heap.length_load (H : Heap β) (block : List β) (i n : ℕ) :
    (H.load block i n).length = n := by
  simp [Heap.load]

theorem Heap.getElem?_load (H : Heap β) (block : List β) (i n k : ℕ) :
    (H.load block i n)[k]? = if k < n then some (H.cell block (i + k)) else none := by
  unfold Heap.load
  split_ifs with hk
  · simp [hk]
  · simp [Nat.le_of_not_lt hk]

/-- A range is loaded in two parts. -/
theorem Heap.load_add (H : Heap β) (block : List β) (i m n : ℕ) :
    H.load block i (m + n) = H.load block i m ++ H.load block (i + m) n := by
  simp only [Heap.load, List.range_add, List.map_append, List.map_map, Function.comp_def,
    Nat.add_assoc]

theorem getElem?_slice (block : List β) (i n k : ℕ) :
    (slice block i n)[k]? = if k < n then block[i + k]? else none := by
  simp [slice, List.getElem?_take]

/-- Inside the block a load returns the cells of the block. -/
theorem Heap.load_eq_slice (H : Heap β) {block : List β} {i n : ℕ} (h : i + n ≤ block.length) :
    H.load block i n = slice block i n := by
  apply List.ext_getElem?
  intro k
  rw [H.getElem?_load, getElem?_slice]
  split_ifs with hk
  · have hlt : i + k < block.length := by omega
    simp [Heap.cell, List.getElem?_eq_getElem hlt]
  · rfl

theorem slice_self (block : List β) : slice block 0 block.length = block := by
  simp [slice]

/-- A slice is cut in two at any place. -/
theorem slice_add (block : List β) (i m n : ℕ) :
    slice block i (m + n) = slice block i m ++ slice block (i + m) n := by
  simp only [slice, List.take_add, List.drop_drop]

/-! ## Writing -/

theorem length_store {block data : List β} {i : ℕ} (h : i + data.length ≤ block.length) :
    (store block i data).length = block.length := by
  simp only [store, List.length_append, List.length_take, List.length_drop]
  omega

theorem getElem?_store {block data : List β} {i : ℕ} (h : i ≤ block.length) (k : ℕ) :
    (store block i data)[k]? =
      if k < i then block[k]? else if k < i + data.length then data[k - i]? else block[k]? := by
  have hlen : (block.take i).length = i := by simp [h]
  unfold store
  split_ifs with h₁ h₂
  · rw [List.append_assoc, List.getElem?_append_left (by omega), List.getElem?_take, if_pos h₁]
  · rw [List.append_assoc, List.getElem?_append_right (by omega), hlen,
      List.getElem?_append_left (by omega)]
  · rw [List.getElem?_append_right (by simp only [List.length_append]; omega), List.getElem?_drop]
    congr 1
    simp only [List.length_append]
    omega

/-- The cells before the ones overwritten are kept. -/
theorem slice_store_left {block data : List β} {i j n : ℕ} (h : j + n ≤ i)
    (hi : i ≤ block.length) : slice (store block i data) j n = slice block j n := by
  apply List.ext_getElem?
  intro k
  rw [getElem?_slice, getElem?_slice]
  split_ifs with hk
  · rw [getElem?_store hi, if_pos (by omega)]
  · rfl

/-- The cells overwritten hold what was written. -/
theorem slice_store_self {block data : List β} {i : ℕ} (hi : i ≤ block.length) :
    slice (store block i data) i data.length = data := by
  apply List.ext_getElem?
  intro k
  rw [getElem?_slice]
  split_ifs with hk
  · rw [getElem?_store hi, if_neg (by omega), if_pos (by omega), Nat.add_sub_cancel_left]
  · rw [List.getElem?_eq_none (by omega)]

/-- Writing right behind a slice extends it. -/
theorem slice_store_append {block : List β} (data : List β) {i j : ℕ} (hj : j ≤ i)
    (hi : i ≤ block.length) :
    slice (store block i data) j (i - j + data.length) = slice block j (i - j) ++ data := by
  rw [slice_add, slice_store_left (by omega) hi, show j + (i - j) = i by omega,
    slice_store_self hi]

/-- Overwriting the cells behind `pre`. -/
theorem store_append (pre rest data : List β) :
    store (pre ++ rest) pre.length data = pre ++ data ++ rest.drop data.length := by
  simp [store, List.drop_append, List.append_assoc]

theorem store_zero (block data : List β) : store block 0 data = data ++ block.drop data.length := by
  simp [store]

end Memory
