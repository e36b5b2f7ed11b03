import Mathlib.Algebra.Order.Ring.Nat
import Mathlib.Data.Nat.Bitwise
import SockTestProgram.Lib.Memory
import SockTestProgram.Lib.Run

/-!
# Arrays of pbc

`_pbcA_push` of `array.c`: the first items stand behind the struct, the others in a block that is
taken anew whenever the number of items comes to one less than a power of two.  No item is written
behind a block, and all are found where they were pushed (`PbcArray.index_of_run`).
-/

open Lts Memory

namespace SockTestProgram

/-- `INNER_FIELD` and `sizeof(union _pbc_var)`, which the size of a pointer decides. -/
structure ArrayLayout where
  innerField : ℕ
  varSize : ℕ
  pos : 0 < innerField ∧ 0 < varSize

/-- `struct array`, with the cells that `a` points to -/
structure PbcArray (α : Type) where
  number : ℕ
  /-- whether it was opened with a heap -/
  heap : Bool
  cells : List (Option α)
  deriving DecidableEq, Repr

namespace PbcArray

variable {α : Type} (L : ArrayLayout)

/-- The cells behind the struct. -/
def innerCells : List (Option α) := List.replicate L.innerField none

/-- `_pbcA_open_heap`, or `_pbcA_open` -/
def start (heap : Bool) : PbcArray α := ⟨0, heap, innerCells L⟩

/-- A block of `n` items; `none` where `_pbcH_alloc` gets no `int`. -/
def block (heap : Bool) (n : ℕ) : Option (List (Option α)) :=
  if heap = true ∧ 2 ^ 31 ≤ L.varSize * n + 3 then none else some (List.replicate n none)

/-- `while (cap <= a->number + 1)` -/
def capFor (number : ℕ) : ℕ → ℕ → Option ℕ
  | 0, _ => none
  | budget + 1, cap => if cap ≤ number + 1 then capFor number budget (cap * 2) else some cap

/-- What `_pbcA_push` does before it writes. -/
def room (a : PbcArray α) : Option (PbcArray α) :=
  if a.number = 0 then some { a with cells := innerCells L }
  else if L.innerField ≤ a.number then
    if a.number = L.innerField then
      (capFor a.number (a.number + 2) 1).bind fun cap =>
        (block L a.heap cap).map fun outer =>
          { a with cells := store outer 0 (a.cells.take L.innerField) }
    else if a.number < (a.number + 1) ^^^ a.number then
      (block L a.heap ((a.number + 1) * 2)).map fun outer =>
        { a with cells := store outer 0 (a.cells.take a.number) }
    else some a
  else some a

/-- `_pbcA_push`; `none` where it writes behind the cells. -/
def push (a : PbcArray α) (v : α) : Option (PbcArray α) :=
  (a.room L).bind fun a =>
    if a.number < a.cells.length then
      some { a with number := a.number + 1, cells := a.cells.set a.number (some v) }
    else none

/-- `_pbcA_index`; `none` where there is no item. -/
def index (a : PbcArray α) (idx : ℕ) : Option α := (a.cells[idx]?).bind id

/-- The items from 0 to `pbc_array_size`. -/
def toList (a : PbcArray α) : List α := (List.range a.number).filterMap a.index

/-! ## Powers of two -/

/-- The bits of a number and the next one differ above it only before a power of two. -/
theorem lt_xor_succ_iff {n k : ℕ} (hlow : 2 ^ k ≤ n) (hhigh : n < 2 ^ (k + 1)) :
    n < (n + 1) ^^^ n ↔ n + 1 = 2 ^ (k + 1) := by
  constructor
  · intro h
    by_contra hne
    have hlt : (n + 1) ^^^ n < 2 ^ k := by
      refine Nat.lt_pow_two_of_testBit _ fun i hi => ?_
      rw [Nat.testBit_xor]
      obtain rfl | hi := Nat.eq_or_lt_of_le hi
      · rw [Nat.testBit_of_two_pow_le_and_two_pow_add_one_gt hlow hhigh,
          Nat.testBit_of_two_pow_le_and_two_pow_add_one_gt (by omega) (by omega)]
        rfl
      · have hpow : 2 ^ (k + 1) ≤ 2 ^ i := Nat.pow_le_pow_right (by omega) hi
        rw [Nat.testBit_lt_two_pow (by omega), Nat.testBit_lt_two_pow (by omega)]
        rfl
    omega
  · intro h
    have hbit : ((n + 1) ^^^ n).testBit (k + 1) = true := by
      rw [Nat.testBit_xor, h, Nat.testBit_two_pow_self, Nat.testBit_lt_two_pow hhigh]
      rfl
    have := Nat.ge_two_pow_of_testBit hbit
    omega

theorem exists_capFor {number budget j : ℕ} (hbudget : number + 1 < 2 ^ (j + budget))
    (hj : 2 ^ j ≤ 2 * (number + 1)) :
    ∃ k, capFor number (budget + 1) (2 ^ j) = some (2 ^ k) ∧ number + 1 < 2 ^ k ∧
      2 ^ k ≤ 2 * (number + 1) := by
  induction budget generalizing j with
  | zero => exact ⟨j, if_neg (by simpa using hbudget), by simpa using hbudget, hj⟩
  | succ budget ih =>
    unfold capFor
    split_ifs with hle
    · rw [← Nat.pow_succ]
      exact ih (by rwa [Nat.succ_add]) (by rw [Nat.pow_succ]; omega)
    · exact ⟨j, rfl, by omega, hj⟩

/-! ## Items -/

/-- The array holds these items, and how large its cells are. -/
structure Holds (a : PbcArray α) (items : List α) : Prop where
  number : a.number = items.length
  items : a.cells.take a.number = items.map some
  inner : a.number ≤ L.innerField → a.cells.length = L.innerField
  outer : L.innerField < a.number → ∃ k, a.cells.length = 2 ^ (k + 1) ∧ 2 ^ k ≤ a.number ∧
    a.number < 2 ^ (k + 1)

variable {L} {a : PbcArray α} {items : List α}

theorem holds_start (heap : Bool) : (start L heap : PbcArray α).Holds L [] :=
  ⟨rfl, rfl, fun _ => List.length_replicate, fun h => absurd h (Nat.not_lt_zero _)⟩

theorem Holds.length_take (h : a.Holds L items) : (a.cells.take a.number).length = a.number := by
  rw [h.items, List.length_map, h.number]

/-- A block that the items are copied to. -/
theorem Holds.store_take (h : a.Holds L items) {n : ℕ} (hn : a.number < n) :
    (store (List.replicate n none) 0 (a.cells.take a.number)).length = n ∧
      (store (List.replicate n none) 0 (a.cells.take a.number)).take a.number = items.map some := by
  have hfit : 0 + (a.cells.take a.number).length ≤ (List.replicate n (none : Option α)).length := by
    rw [h.length_take, List.length_replicate]
    omega
  refine ⟨by rw [length_store hfit, List.length_replicate], ?_⟩
  rw [store_zero, List.take_append_of_le_length (by rw [h.length_take]),
    List.take_of_length_le (by rw [h.length_take]), h.items]

theorem block_eq (heap : Bool) {n : ℕ} (hn : L.varSize * n + 3 < 2 ^ 31) :
    (block L heap n : Option (List (Option α))) = some (List.replicate n none) := if_neg (by omega)

/-- There is room for one more item, where the items that are there stand first. -/
theorem Holds.exists_room (h : a.Holds L items)
    (hsize : L.varSize * (2 * (items.length + 1)) + 3 < 2 ^ 31) :
    ∃ cells, a.room L = some { a with cells := cells } ∧ cells.take a.number = items.map some ∧
      a.number < cells.length ∧ (a.number < L.innerField → cells.length = L.innerField) ∧
      (L.innerField ≤ a.number →
        ∃ k, cells.length = 2 ^ (k + 1) ∧ 2 ^ k ≤ a.number + 1 ∧ a.number + 1 < 2 ^ (k + 1)) := by
  have hpos := L.pos.1
  have hblock {n : ℕ} (hn : n ≤ 2 * (a.number + 1)) :
      (block L a.heap n : Option (List (Option α))) = some (List.replicate n none) := by
    apply block_eq
    have := Nat.mul_le_mul_left L.varSize hn
    rw [h.number] at this
    omega
  unfold room
  split_ifs with hzero hinner heq hpower
  · have hnil : items = [] := List.length_eq_zero_iff.1 (h.number.symm.trans hzero)
    refine ⟨innerCells L, rfl, by rw [hzero, hnil]; rfl, ?_, fun _ => List.length_replicate,
      fun hle => by omega⟩
    rw [hzero, innerCells, List.length_replicate]
    exact hpos
  · -- the first block
    have hbudget : a.number + 1 < 2 ^ (0 + (a.number + 1)) := by
      rw [Nat.zero_add]
      exact Nat.lt_two_pow_self
    obtain ⟨k, hcap, hlt, hle⟩ := exists_capFor hbudget (by rw [Nat.pow_zero]; omega)
    rw [Nat.pow_zero] at hcap
    obtain ⟨hlength, htake⟩ := h.store_take (n := 2 ^ k) (by omega)
    rw [hcap, Option.bind_some, hblock hle, Option.map_some, ← heq]
    obtain ⟨k, rfl⟩ : ∃ k', k = k' + 1 := ⟨k - 1, by
      have : k ≠ 0 := by
        rintro rfl
        rw [Nat.pow_zero] at hlt
        omega
      omega⟩
    rw [Nat.pow_succ] at hle
    exact ⟨_, rfl, htake, by omega, fun hlt => by omega, fun _ => ⟨k, hlength, by omega, hlt⟩⟩
  · -- a block that is twice as large
    obtain ⟨k, hcells, hlow, hhigh⟩ := h.outer (by omega)
    have hnext := (lt_xor_succ_iff hlow hhigh).1 hpower
    obtain ⟨hlength, htake⟩ := h.store_take (n := (a.number + 1) * 2) (by omega)
    rw [hblock (by omega), Option.map_some]
    rw [Nat.pow_succ] at hnext
    refine ⟨_, rfl, htake, by omega, fun hlt => by omega,
      fun _ => ⟨k + 1, ?_, by rw [Nat.pow_succ]; omega, ?_⟩⟩
    · rw [hlength, hnext, Nat.pow_succ, Nat.pow_succ]
    · rw [Nat.pow_succ, Nat.pow_succ]
      omega
  · obtain ⟨k, hcells, hlow, hhigh⟩ := h.outer (by omega)
    have hnext := (lt_xor_succ_iff hlow hhigh).not.1 hpower
    exact ⟨a.cells, rfl, h.items, by omega, fun hlt => by omega,
      fun _ => ⟨k, hcells, by omega, by omega⟩⟩
  · have hcells := h.inner (by omega)
    exact ⟨a.cells, rfl, h.items, by omega, fun _ => hcells, fun hle => by omega⟩

/-- An item is pushed behind the others. -/
theorem Holds.push (h : a.Holds L items) (v : α)
    (hsize : L.varSize * (2 * (items.length + 1)) + 3 < 2 ^ 31) :
    ∃ a', a.push L v = some a' ∧ a'.Holds L (items ++ [v]) := by
  obtain ⟨cells, hroom, htake, hlt, hinner, houter⟩ := h.exists_room hsize
  have hlength : (cells.set a.number (some v)).length = cells.length := List.length_set
  refine ⟨{ a with number := a.number + 1, cells := cells.set a.number (some v) }, ?_, ?_,
    ?_, ?_, ?_⟩
  · rw [PbcArray.push, hroom, Option.bind_some, if_pos hlt]
  · rw [List.length_append, List.length_singleton, h.number]
  · rw [List.take_add_one, List.getElem?_set_self hlt, List.take_set_of_le le_rfl, htake,
      List.map_append]
    rfl
  · exact fun hle => hlength.trans (hinner (Nat.lt_of_succ_le hle))
  · intro hgt
    obtain ⟨k, hcells, hlow, hhigh⟩ := houter (Nat.le_of_lt_succ hgt)
    exact ⟨k, hlength.trans hcells, hlow, hhigh⟩

/-- The items are what was pushed, one after another. -/
theorem Holds.index (h : a.Holds L items) {idx : ℕ} (hidx : idx < items.length) :
    a.index idx = items[idx]? := by
  have hcell : a.cells[idx]? = (items.map some)[idx]? := by
    rw [← h.items, List.getElem?_take_of_lt (h.number ▸ hidx)]
  rw [PbcArray.index, hcell, List.getElem?_map, List.getElem?_eq_getElem hidx]
  rfl

theorem Holds.toList_eq (h : a.Holds L items) : a.toList = items := by
  have hindex : (List.range items.length).map a.index = items.map some := by
    refine List.ext_getElem (by simp) fun idx hidx _ => ?_
    rw [List.length_map, List.length_range] at hidx
    rw [List.getElem_map, List.getElem_range, List.getElem_map, h.index hidx,
      List.getElem?_eq_getElem hidx]
  calc a.toList
    _ = ((List.range items.length).map a.index).filterMap id := by
      rw [toList, h.number, List.filterMap_map, Function.id_comp]
    _ = items := by
      rw [hindex, List.filterMap_map, Function.id_comp, List.filterMap_some]

/-- **Arrays.**  Every run of pushes is possible, as long as the items do not come to `2 ^ 30`
bytes, and each item is found where it was pushed. -/
theorem index_of_run (L : ArrayLayout) (heap : Bool) {items : List α}
    (hsize : L.varSize * (2 * items.length) + 3 < 2 ^ 31) :
    ∃ a, run (PbcArray.push L) (start L heap) items = some a ∧ a.number = items.length ∧
      ∀ idx < items.length, a.index idx = items[idx]? := by
  have hrun : ∃ a, run (PbcArray.push L) (start L heap) items = some a ∧ a.Holds L items := by
    induction items using List.reverseRecOn with
    | nil => exact ⟨_, rfl, holds_start heap⟩
    | append_singleton items v ih =>
      rw [List.length_append, List.length_singleton] at hsize
      have hle : L.varSize * (2 * items.length) ≤ L.varSize * (2 * (items.length + 1)) :=
        Nat.mul_le_mul_left _ (by omega)
      obtain ⟨a, ha, hholds⟩ := ih (by omega)
      obtain ⟨a', ha', hholds'⟩ := hholds.push v hsize
      exact ⟨a', run_append_eq_some_iff.2 ⟨a, ha, by rw [run_cons, ha']; rfl⟩, hholds'⟩
  obtain ⟨a, ha, hholds⟩ := hrun
  exact ⟨a, ha, hholds.number, fun idx hidx => hholds.index hidx⟩

/-- Ten items, with pointers of 64 bits. -/
theorem index_of_run_ten :
    ∃ a, run (PbcArray.push ⟨2, 16, by decide⟩) (start ⟨2, 16, by decide⟩ true) (List.range 10) =
    some a ∧ a.number = (List.range 10).length ∧
      ∀ idx < (List.range 10).length, a.index idx = (List.range 10)[idx]? :=
  index_of_run ⟨2, 16, by decide⟩ true (by decide)

end PbcArray

end SockTestProgram
