import SockTestProgram.Lib.Memory

/-!
# Buffers that grow

A block of memory that is written from front to back.  Where the room does not last, what was
written goes to a larger block, whose size comes from doubling.  A write that does not fit has no
result (`none`), nor has a block of the size `limit` or more.
-/

open Memory

namespace Growing

variable {β : Type*}

structure Buffer (β : Type*) where
  cells : List β
  /-- The place to write at. -/
  ptr : ℕ
  deriving DecidableEq, Repr

namespace Buffer

/-- What was written so far. -/
def written (b : Buffer β) : List β := b.cells.take b.ptr

def Valid (b : Buffer β) : Prop := b.ptr ≤ b.cells.length ∧ 0 < b.cells.length

instance (b : Buffer β) : Decidable b.Valid := inferInstanceAs (Decidable (_ ∧ _))

/-- Cells are written at `ptr`, which goes behind them. -/
def put (b : Buffer β) (data : List β) : Option (Buffer β) :=
  if b.ptr + data.length ≤ b.cells.length then
    some ⟨store b.cells b.ptr data, b.ptr + data.length⟩
  else none

/-- Cells are written at another place, and `ptr` stays. -/
def overwrite (b : Buffer β) (i : ℕ) (data : List β) : Option (Buffer β) :=
  if i + data.length ≤ b.cells.length then some { b with cells := store b.cells i data } else none

/-- `n` cells from `i` on are moved to `j`. -/
def move (b : Buffer β) (j i n : ℕ) : Option (Buffer β) := b.overwrite j (slice b.cells i n)

/-- Items are written one stride after another, from a place on. -/
def overwriteEvery (stride : ℕ) : Buffer β → ℕ → List (List β) → Option (Buffer β)
  | b, _, [] => some b
  | b, i, item :: items => (b.overwrite i item).bind fun b =>
    overwriteEvery stride b (i + stride) items

/-- The size is doubled once, and on until it is enough. -/
def double (limit size : ℕ) : ℕ → ℕ → Option ℕ
  | 0, _ => none
  | budget + 1, cap =>
    if limit ≤ cap * 2 then none
    else if cap * 2 < size then double limit size budget (cap * 2) else some (cap * 2)

/-- Room is made for `n` cells. -/
def reserve (H : Heap β) (limit : ℕ) (b : Buffer β) (n : ℕ) : Option (Buffer β) :=
  if b.cells.length < b.ptr + n then
    (double limit (b.ptr + n) (b.ptr + n) b.cells.length).map fun cap =>
      ⟨store (H.fresh cap) 0 b.written, b.ptr⟩
  else some b

variable {b : Buffer β} {data rest : List β} {n i limit : ℕ} {H : Heap β}

theorem length_written (h : b.Valid) : b.written.length = b.ptr := by
  rw [written, List.length_take, Nat.min_eq_left h.1]

/-! ## Writing -/

/-- Two stores one behind the other are one. -/
theorem store_store {block : List β} (h : i + data.length ≤ block.length) (rest : List β) :
    store (store block i data) (i + data.length) rest = store block i (data ++ rest) := by
  have htake : (block.take i).length = i := by
    rw [List.length_take]
    omega
  have hlen : (block.take i ++ data).length = i + data.length := by rw [List.length_append, htake]
  have hstore : store block i data = (block.take i ++ data) ++ block.drop (i + data.length) := rfl
  rw [hstore, ← hlen, store_append, List.drop_drop, hlen, store, List.length_append]
  simp only [List.append_assoc, Nat.add_assoc]

theorem put_eq_some (h : b.ptr + data.length ≤ b.cells.length) :
    b.put data = some ⟨store b.cells b.ptr data, b.ptr + data.length⟩ := if_pos h

theorem overwrite_eq_some (h : i + data.length ≤ b.cells.length) :
    b.overwrite i data = some { b with cells := store b.cells i data } := if_pos h

/-- Two writes one after another are one. -/
theorem put_put (b : Buffer β) (data rest : List β) :
    ((b.put data).bind fun b => b.put rest) = b.put (data ++ rest) := by
  by_cases hfit : b.ptr + (data ++ rest).length ≤ b.cells.length
  · rw [List.length_append] at hfit
    have hdata : b.ptr + data.length ≤ b.cells.length := by omega
    have hrest : b.ptr + data.length + rest.length ≤ (store b.cells b.ptr data).length := by
      rw [length_store hdata]
      omega
    rw [put_eq_some hdata, Option.bind_some, put_eq_some hrest,
      put_eq_some (by rw [List.length_append]; omega)]
    congr 2
    · exact store_store hdata rest
    · rw [List.length_append, Nat.add_assoc]
  · rw [put, put, if_neg hfit]
    rw [List.length_append] at hfit
    split_ifs with hdata
    · rw [Option.bind_some, put, if_neg]
      rw [length_store hdata]
      show ¬ b.ptr + data.length + rest.length ≤ b.cells.length
      omega
    · rfl

/-- Items as long as a stride are written one behind the other. -/
theorem overwriteEvery_eq {stride : ℕ} {items : List (List β)}
    (hitems : ∀ item ∈ items, item.length = stride)
    (h : i + items.flatten.length ≤ b.cells.length) :
    overwriteEvery stride b i items = some { b with cells := store b.cells i items.flatten } := by
  induction items generalizing b i with
  | nil =>
    rw [overwriteEvery]
    obtain ⟨cells, ptr⟩ := b
    simp [store]
  | cons item items ih =>
    have hitem := hitems item (by simp)
    rw [List.flatten_cons, List.length_append] at h
    have hfit : i + item.length ≤ b.cells.length := by omega
    have hrest : i + stride + items.flatten.length ≤ (store b.cells i item).length := by
      rw [length_store hfit]
      omega
    rw [overwriteEvery, overwrite_eq_some hfit, Option.bind_some,
      ih (fun item h => hitems item (by simp [h])) hrest, List.flatten_cons]
    simp only [← hitem, store_store hfit]

/-- A single item is written like any other cells. -/
theorem overwriteEvery_singleton {stride : ℕ} (item : List β) :
    overwriteEvery stride b i [item] = b.overwrite i item := by
  rw [overwriteEvery]
  cases b.overwrite i item <;> rfl

/-- A cell between the items is left as it is. -/
theorem getElem?_overwriteEvery {stride : ℕ} {items : List (List β)} {b' : Buffer β}
    (h : overwriteEvery stride b i items = some b') {k : ℕ}
    (hk : ∀ (j : ℕ) (item : List β), items[j]? = some item →
      k < i + stride * j ∨ i + stride * j + item.length ≤ k) :
    b'.cells[k]? = b.cells[k]? ∧ b'.ptr = b.ptr := by
  induction items generalizing b i with
  | nil =>
    obtain rfl := Option.some.inj h
    exact ⟨rfl, rfl⟩
  | cons item items ih =>
    obtain ⟨b₁, hb₁, h⟩ := Option.bind_eq_some_iff.1 h
    have hitems (j : ℕ) (it : List β) (hit : items[j]? = some it) :
        k < i + stride + stride * j ∨ i + stride + stride * j + it.length ≤ k := by
      have := hk (j + 1) it hit
      rw [Nat.mul_succ] at this
      omega
    obtain ⟨hcells, hptr⟩ := ih h hitems
    have hfirst := hk 0 item rfl
    rw [Nat.mul_zero, Nat.add_zero] at hfirst
    unfold overwrite at hb₁
    split_ifs at hb₁ with hfit
    obtain rfl := Option.some.inj hb₁
    refine ⟨?_, hptr⟩
    rw [hcells, getElem?_store (by omega)]
    split_ifs
    · rfl
    · omega
    · rfl

/-- A write that fits is added to what was written. -/
theorem exists_put (h : b.Valid) (hfit : b.ptr + data.length ≤ b.cells.length) :
    ∃ b' : Buffer β, b.put data = some b' ∧ b'.Valid ∧ b'.written = b.written ++ data ∧
      b'.cells.length = b.cells.length := by
  have hlen := length_store hfit
  have hslice := slice_store_append data (Nat.zero_le b.ptr) h.1
  simp only [Nat.sub_zero, slice, List.drop_zero] at hslice
  exact ⟨_, put_eq_some hfit, ⟨hlen.symm ▸ hfit, hlen.symm ▸ h.2⟩, hslice, hlen⟩

/-- The head of what was written is replaced by one as long. -/
theorem exists_overwrite_head (h : b.Valid) {pre head body head' : List β}
    (hwritten : b.written = pre ++ head ++ body) (hlen : head'.length = head.length) :
    ∃ b' : Buffer β, b.overwrite pre.length head' = some b' ∧ b'.Valid ∧
      b'.written = pre ++ head' ++ body := by
  have hptr := length_written h
  have hle := h.1
  rw [hwritten, List.length_append, List.length_append] at hptr
  have hcells : b.cells = pre ++ head ++ body ++ b.cells.drop b.ptr := by
    rw [← hwritten, written, List.take_append_drop]
  have hfit : pre.length + head'.length ≤ b.cells.length := by omega
  have hstore : store b.cells pre.length head' = pre ++ head' ++ (body ++ b.cells.drop b.ptr) := by
    conv_lhs => rw [hcells]
    rw [List.append_assoc pre, List.append_assoc pre, store_append, hlen, List.append_assoc head,
      List.drop_left]
  refine ⟨_, overwrite_eq_some hfit, ⟨?_, ?_⟩, ?_⟩
  · show b.ptr ≤ (store b.cells pre.length head').length
    rwa [length_store hfit]
  · show 0 < (store b.cells pre.length head').length
    rw [length_store hfit]
    exact h.2
  · show (store b.cells pre.length head').take b.ptr = _
    rw [hstore, ← List.append_assoc, List.take_left' (by simp only [List.length_append]; omega)]

/-- The head of what was written is replaced: what is behind it is moved first. -/
theorem exists_rehead (h : b.Valid) {pre head body : List β}
    (hwritten : b.written = pre ++ head ++ body) {head' : List β}
    (hfit : pre.length + head'.length + body.length ≤ b.cells.length) :
    ∃ b₁ b₂ : Buffer β, b.move (pre.length + head'.length) (pre.length + head.length)
      body.length = some b₁ ∧
      b₁.overwrite pre.length head' = some b₂ ∧ b₂.ptr = b.ptr ∧ b₂.cells.length = b.cells.length ∧
      b₂.cells.take (pre.length + head'.length + body.length) = pre ++ head' ++ body := by
  have hptr := length_written h
  rw [hwritten, List.length_append, List.length_append] at hptr
  have hcells : b.cells = pre ++ head ++ body ++ b.cells.drop b.ptr := by
    rw [← hwritten, written, List.take_append_drop]
  have hbody : slice b.cells (pre.length + head.length) body.length = body := by
    rw [slice, hcells, ← List.length_append, List.append_assoc _ body, List.drop_left,
      List.take_left]
  have hmove : pre.length + head'.length + (slice b.cells (pre.length + head.length)
      body.length).length ≤
      b.cells.length := by rwa [hbody]
  have hlen := length_store hmove
  have hhead : pre.length + head'.length ≤
      (store b.cells (pre.length + head'.length)
        (slice b.cells (pre.length + head.length) body.length)).length := by
    omega
  refine ⟨_, _, overwrite_eq_some hmove, overwrite_eq_some hhead, rfl, ?_, ?_⟩
  · exact (length_store hhead).trans hlen
  · have hpre : b.cells.take pre.length = pre := by
      rw [hcells, List.append_assoc pre, List.append_assoc pre, List.take_left]
    have hroom : (b.cells.take (pre.length + head'.length)).length = pre.length + head'.length := by
      rw [List.length_take]
      omega
    have hmoved : store b.cells (pre.length + head'.length) body =
        b.cells.take (pre.length + head'.length) ++
        (body ++ b.cells.drop (pre.length + head'.length + body.length)) := List.append_assoc ..
    have hdrop : (store b.cells (pre.length + head'.length) body).drop (pre.length + head'.length) =
        body ++ b.cells.drop (pre.length + head'.length + body.length) := by
      rw [hmoved, List.drop_append_of_le_length (by omega), List.drop_of_length_le (by omega),
        List.nil_append]
    have htake : (store b.cells (pre.length + head'.length) body).take pre.length = pre := by
      rw [hmoved, List.take_append_of_le_length (by omega), List.take_take,
        Nat.min_eq_left (by omega), hpre]
    rw [hbody]
    show (store _ pre.length head').take _ = _
    rw [store, htake, hdrop, ← List.append_assoc,
      List.take_append_of_le_length (by simp [Nat.add_assoc]),
        List.take_of_length_le (by simp [Nat.add_assoc])]

/-! ## Making room -/

theorem exists_double {size budget cap : ℕ} (hcap : 0 < cap) (hsize : cap < size)
    (hlimit : 2 * size ≤ limit) (hbudget : size ≤ cap + budget) :
    ∃ c, double limit size budget cap = some c ∧ size ≤ c := by
  induction budget generalizing cap with
  | zero => omega
  | succ budget ih =>
    rw [double, if_neg (by omega)]
    split_ifs with hmore
    · exact ih (by omega) hmore (by omega)
    · exact ⟨_, rfl, by omega⟩

/-- Room is made, and what was written is kept. -/
theorem exists_reserve (H : Heap β) (h : b.Valid) (hlimit : 2 * (b.written.length + n) ≤ limit) :
    ∃ b' : Buffer β, b.reserve H limit n = some b' ∧ b'.Valid ∧ b'.written = b.written ∧
      b'.ptr = b.ptr ∧ b.ptr + n ≤ b'.cells.length := by
  have hptr := length_written h
  unfold reserve
  split_ifs with hroom
  · have hbudget : b.ptr + n ≤ b.cells.length + (b.ptr + n) := by omega
    rw [hptr] at hlimit
    obtain ⟨cap, hcap, hle⟩ := exists_double h.2 hroom hlimit hbudget
    have hfresh := H.length_fresh cap
    have hlen : (store (H.fresh cap) 0 b.written).length = cap := by
      rw [length_store (by omega), hfresh]
    refine ⟨⟨store (H.fresh cap) 0 b.written, b.ptr⟩, by rw [hcap, Option.map_some], ⟨?_, ?_⟩,
      ?_, rfl, ?_⟩
    · show b.ptr ≤ (store (H.fresh cap) 0 b.written).length
      omega
    · show 0 < (store (H.fresh cap) 0 b.written).length
      have := h.2
      omega
    · show (store (H.fresh cap) 0 b.written).take b.ptr = b.written
      rw [store_zero, List.take_append_of_le_length (by omega), ← hptr, List.take_length]
    · show b.ptr + n ≤ (store (H.fresh cap) 0 b.written).length
      omega
  · exact ⟨b, rfl, h, rfl, rfl, by omega⟩

/-- A write that room was made for. -/
theorem exists_reserve_put (H : Heap β) (h : b.Valid) (hn : data.length ≤ n)
    (hlimit : 2 * (b.written.length + n) ≤ limit) :
    ∃ b' : Buffer β, ((b.reserve H limit n).bind fun b => b.put data) = some b' ∧ b'.Valid ∧
      b'.written = b.written ++ data := by
  obtain ⟨b₁, hb₁, h₁, hw₁, hp₁, hroom⟩ := exists_reserve H h hlimit
  obtain ⟨b₂, hb₂, h₂, hw₂, -⟩ :=
    exists_put h₁ (show b₁.ptr + data.length ≤ b₁.cells.length by omega)
  exact ⟨b₂, by rw [hb₁, Option.bind_some, hb₂], h₂, by rw [hw₂, hw₁]⟩

/-- Writes one after another, each of which fits as long as the size is not exceeded. -/
theorem exists_foldlM {α σ : Type*} (out : σ → Buffer β) {f : σ → α → Option σ}
    {encode : α → List β} {size : ℕ} {l : List α}
    (hf : ∀ st x, x ∈ l → (out st).Valid → (out st).written.length + (encode x).length ≤ size →
      ∃ st', f st x = some st' ∧ (out st').Valid ∧ (out st').written = (out st).written ++ encode x)
    {st : σ} (h : (out st).Valid)
    (hsize : (out st).written.length + (l.flatMap encode).length ≤ size) :
    ∃ st', l.foldlM f st = some st' ∧ (out st').Valid ∧
      (out st').written = (out st).written ++ l.flatMap encode := by
  induction l generalizing st with
  | nil => exact ⟨st, rfl, h, by simp⟩
  | cons x l ih =>
    rw [List.flatMap_cons, List.length_append] at hsize
    obtain ⟨st₁, hst₁, hvalid₁, hwritten₁⟩ := hf st x (by simp) h (by omega)
    have hsize₁ : (out st₁).written.length + (l.flatMap encode).length ≤ size := by
      rw [hwritten₁, List.length_append]
      omega
    obtain ⟨st', hst', hvalid', hwritten'⟩ :=
      ih (fun st y hy => hf st y (by simp [hy])) hvalid₁ hsize₁
    refine ⟨st', ?_, hvalid', ?_⟩
    · rw [List.foldlM_cons, hst₁]
      exact hst'
    · rw [hwritten', hwritten₁, List.flatMap_cons, List.append_assoc]

end Buffer

end Growing
