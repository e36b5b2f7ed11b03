import SockTestProgram.Io.Fifo

/-!
# The pointers and the copies of an owned `StreamBuffer`

How `append` moves the pointers and when it enlarges the block (`append_grown`), and which ranges of
the blocks its `memcpy` and `memmove` touch (`copies`).  The slide to the front moves as many bytes
as were consumed, so it reads past the end of the block if more than half of the block was consumed
(`copies_inside_iff`).
-/

open Memory Word Lts

namespace SockTestProgram

namespace StreamBuffer

variable {H : Heap UInt8} {o : ByteOrder} {sb sb' : StreamBuffer}

/-- The buffer after a call. -/
def call (H : Heap UInt8) (o : ByteOrder) (sb : StreamBuffer) : Op → Option StreamBuffer
  | .append start length => sb.append H start length
  | .readInt32 value => some (sb.readInt32 H o value).2.2
  | .readInt16 value => some (sb.readInt16 H o value).2.2
  | .readString str length => some (sb.readString H str length).2.2

/-- The payload and the new bytes together are no more than `2 ^ 30`. -/
def Bounded (sb : StreamBuffer) : Op → Prop
  | .append _ length => sb.payLength + length ≤ 2 ^ 30
  | _ => True

instance (sb : StreamBuffer) : DecidablePred sb.Bounded
  | .append _ _ => inferInstanceAs (Decidable (_ ≤ _))
  | .readInt32 _ | .readInt16 _ | .readString _ _ => isTrue trivial

/-- The room that a call asks for: the payload and the new bytes. -/
def requested (sb : StreamBuffer) : Op → ℤ
  | .append _ length => sb.payLength + length
  | _ => 0

/-- The most room that a call of the sequence asks for. -/
def mostRequested (H : Heap UInt8) (o : ByteOrder) : StreamBuffer → List Op → ℤ
  | _, [] => 0
  | sb, op :: ops =>
    max (sb.requested op) ((sb.call H o op).elim 0 fun sb' => mostRequested H o sb' ops)

/-! ## The pointers -/

/-- What an append does to the pointers: the block is doubled some times, and no more than
needed. -/
structure Grown (sb sb' : StreamBuffer) (length : ℤ) : Prop where
  valid : sb'.Valid
  doubled : ∃ k, sb'.endPtr = sb.endPtr * 2 ^ k
  small : sb'.endPtr = sb.endPtr ∨ (sb'.endPtr : ℤ) < 2 * (sb.payLength + length)
  payLength : sb'.payLength = sb.payLength + max length 0

theorem grown_self (hv : sb.Valid) {length : ℤ} (h : length ≤ 0) : Grown sb sb length :=
  ⟨hv, ⟨0, (mul_one _).symm⟩, .inl rfl, by rw [max_eq_right h, add_zero]⟩

theorem grown_copyTail (hv : sb.Valid) {length : ℤ} (hpos : 0 < length) (hl : length ≤ sb.left)
    (start : Bytes) : Grown sb (sb.copyTail H start length.toNat) length where
  valid := hv.copyTail (by omega) start
  doubled := ⟨0, (mul_one _).symm⟩
  small := .inl rfl
  payLength := by
    rw [max_eq_left hpos.le]
    simp only [StreamBuffer.payLength, copyTail]
    omega

/-- The slide keeps the size of the block and of the payload. -/
theorem Grown.of_slide (hv : sb.Valid) {length : ℤ} (h : Grown (sb.slide H) sb' length) :
    Grown sb sb' length := by
  have hpay : (sb.slide H).payLength = sb.payLength := by
    have := hv.read_le
    simp only [StreamBuffer.payLength, slide]
    omega
  have hsmall := h.small
  have hlen := h.payLength
  rw [hpay] at hsmall hlen
  exact ⟨h.valid, h.doubled, hsmall, hlen⟩

/-- The block is doubled only if the payload and the new bytes do not fit. -/
theorem Grown.of_grow (hv : sb.Valid) {length : ℤ} (htot : ¬ length ≤ sb.totLeft)
    (h : Grown (sb.grow H) sb' length) : Grown sb sb' length := by
  have hend : (sb.grow H).endPtr = sb.endPtr * 2 := rfl
  have hpay : (sb.grow H).payLength = sb.payLength := by
    have := hv.read_le
    simp only [StreamBuffer.payLength, grow]
    omega
  obtain ⟨k, hk⟩ := h.doubled
  have hsmall := h.small
  have hlen := h.payLength
  rw [hpay] at hsmall hlen
  refine ⟨h.valid, ⟨k + 1, ?_⟩, .inr ?_, hlen⟩
  · rw [hk, hend, pow_succ', mul_assoc]
  · obtain hsame | hlt := hsmall
    · have hroom : sb.totLeft = sb.endPtr - sb.payLength := by
        simp only [totLeft, left, StreamBuffer.payLength]
        omega
      rw [hsame, hend]
      omega
    · exact hlt

theorem append_grown (hv : sb.Valid) {start : Bytes} {length : ℤ}
    (h : sb.append H start length = some sb') : Grown sb sb' length := by
  fun_induction append H sb start length with
  | case1 sb howned => exact absurd hv.owned howned
  | case2 sb _ hle =>
    obtain rfl := Option.some.inj h
    exact grown_self hv hle
  | case3 => cases h
  | case4 sb _ hpos _ hl =>
    obtain rfl := Option.some.inj h
    exact grown_copyTail hv (by omega) hl start
  | case5 sb _ _ _ _ _ ih => exact (ih hv.slide h).of_slide hv
  | case6 sb _ _ _ _ htot hfits ih =>
    have hlt : sb.endPtr * 2 < 2 ^ 31 := by
      have := hfits.2.2
      omega
    exact (ih (hv.grow hlt) h).of_grow hv htot
  | case7 => cases h

/-! ## Sequences of calls -/

/-- What a call does to the pointers. -/
structure Called (sb sb' : StreamBuffer) (op : Op) : Prop where
  valid : sb'.Valid
  doubled : ∃ k, sb'.endPtr = sb.endPtr * 2 ^ k
  small : sb'.endPtr = sb.endPtr ∨ (sb'.endPtr : ℤ) < 2 * sb.requested op

theorem called_self (hv : sb.Valid) (op : Op) : Called sb sb op :=
  ⟨hv, ⟨0, (mul_one _).symm⟩, .inl rfl⟩

theorem called_takeFront {α : Type} (hv : sb.Valid) (op : Op) (length : ℕ) (old : α)
    (f : Bytes → α) : Called sb (sb.takeFront H length old f).2.2 op := by
  unfold takeFront
  split_ifs with h
  · exact called_self hv op
  · rw [hv.payLength_eq] at h
    exact ⟨(hv.commit (H := H) (by omega)).1, ⟨0, (mul_one _).symm⟩, .inl rfl⟩

/-- Every bounded call returns. -/
theorem call_spec (hv : sb.Valid) {op : Op} (hb : sb.Bounded op) :
    ∃ sb', sb.call H o op = some sb' ∧ Called sb sb' op := by
  cases op with
  | append start length =>
    have happ : ∃ sb', sb.append H start length = some sb' := by
      by_cases hpos : 0 < length
      · obtain ⟨sb', hsb', -⟩ := append_spec (H := H) hv start hpos hb
        exact ⟨sb', hsb'⟩
      · refine ⟨sb, ?_⟩
        rw [append, if_neg (by simp [hv.owned]), if_pos (by omega)]
    obtain ⟨sb', hsb'⟩ := happ
    have hgrown := append_grown hv hsb'
    exact ⟨sb', hsb', hgrown.valid, hgrown.doubled, hgrown.small⟩
  | readInt32 value =>
    refine ⟨_, rfl, ?_⟩
    rw [readInt32_eq]
    exact called_takeFront hv _ 4 value _
  | readInt16 value =>
    refine ⟨_, rfl, ?_⟩
    rw [readInt16_eq]
    exact called_takeFront hv _ 2 value _
  | readString str length =>
    refine ⟨_, rfl, ?_⟩
    rw [readString_eq]
    exact called_takeFront hv _ length str _

/-- The size of the block after a sequence of calls. -/
structure Sized (sb sb' : StreamBuffer) (most : ℤ) : Prop where
  valid : sb'.Valid
  doubled : ∃ k, sb'.endPtr = sb.endPtr * 2 ^ k
  small : sb'.endPtr = sb.endPtr ∨ (sb'.endPtr : ℤ) < 2 * most

theorem run_call (hv : sb.Valid) {ops : List Op} (hops : AllSteps (call H o) Bounded sb ops) :
    ∃ sb', run (call H o) sb ops = some sb' ∧ Sized sb sb' (mostRequested H o sb ops) := by
  induction ops generalizing sb with
  | nil => exact ⟨sb, rfl, hv, ⟨0, (mul_one _).symm⟩, .inl rfl⟩
  | cons op ops ih =>
    obtain ⟨m, hm, hcalled⟩ := call_spec (H := H) (o := o) hv hops.1
    obtain ⟨sb', hrun, hsized⟩ := ih hcalled.valid (hops.2 m hm)
    obtain ⟨k, hk⟩ := hcalled.doubled
    obtain ⟨l, hl⟩ := hsized.doubled
    refine ⟨sb', run_cons_eq_some_iff.2 ⟨m, hm, hrun⟩, hsized.valid, ⟨k + l, ?_⟩, ?_⟩
    · rw [hl, hk, pow_add, mul_assoc]
    · have hmost : mostRequested H o sb (op :: ops) =
          max (sb.requested op) (mostRequested H o m ops) := by
        simp [mostRequested, hm]
      have h₁ := hcalled.small
      have h₂ := hsized.small
      rw [hmost]
      omega

/-- **The pointers of a buffer.**  In a sequence of calls that never leaves more than `2 ^ 30`
bytes unread, every call returns, and no `int` that it computes overflows.  The pointers stay in
order; the size of the block is a power of two, never gets smaller, and is 2 or less than twice
the most room that was asked for.  An append makes the payload longer by exactly the number of
its bytes. -/
theorem pointers_of_calls (H : Heap UInt8) (o : ByteOrder) (ops : List Op)
    (hops : AllSteps (call H o) Bounded (empty H) ops) :
    ∃ sb, run (call H o) (empty H) ops = some sb ∧
      (sb.readPtr ≤ sb.writePtr ∧ sb.writePtr ≤ sb.endPtr) ∧
      (∃ k, sb.endPtr = 2 ^ k) ∧
      (sb.endPtr = 2 ∨ (sb.endPtr : ℤ) < 2 * mostRequested H o (empty H) ops) ∧
      (∀ op, sb.Bounded op → ∃ sb', sb.call H o op = some sb' ∧ sb.endPtr ≤ sb'.endPtr) ∧
      ∀ start length, sb.payLength + length ≤ 2 ^ 30 → ∃ sb', sb.append H start length = some sb' ∧
        sb'.payLength = sb.payLength + max length 0 := by
  obtain ⟨sb, hrun, hsized⟩ := run_call (valid_empty (H := H)) hops
  have hv := hsized.valid
  refine ⟨sb, hrun, ⟨hv.read_le, hv.write_le⟩, ?_, hsized.small, fun op hop => ?_, ?_⟩
  · obtain ⟨k, hk⟩ := hsized.doubled
    exact ⟨k + 1, by rw [hk, pow_succ']; rfl⟩
  · obtain ⟨sb', hsb', hcalled⟩ := call_spec (H := H) (o := o) hv hop
    obtain ⟨k, hk⟩ := hcalled.doubled
    exact ⟨sb', hsb', hk ▸ Nat.le_mul_of_pos_right _ (Nat.two_pow_pos k)⟩
  · intro start length hlen
    have happend : sb.Bounded (.append start length) := hlen
    obtain ⟨sb', hsb', -⟩ := call_spec (H := H) (o := o) hv happend
    exact ⟨sb', hsb', (append_grown hv hsb').payLength⟩

/-- Three appends with a read between them: 4 bytes, then 2 + 3, then 5 + 4. -/
theorem pointers_of_calls_nine :
    let H := Heap.const (0 : UInt8)
    let ops := [Op.append [1, 2, 3, 4] 4, .readInt16 0, .append [5, 6, 7] 3,
      .append [8, 9, 10, 11] 4]
    ∃ sb, run (call H .little) (empty H) ops = some sb ∧ (∃ k, sb.endPtr = 2 ^ k) ∧
      (sb.endPtr = 2 ∨ (sb.endPtr : ℤ) < 2 * mostRequested H .little (empty H) ops) := by
  intro H ops
  obtain ⟨sb, hrun, -, hpow, hsmall, -⟩ := pointers_of_calls H .little ops (by decide +kernel)
  exact ⟨sb, hrun, hpow, hsmall⟩

/-! ## The copies -/

/-- A range of cells of a block of `size` cells. -/
structure CellRange where
  offset : ℕ
  length : ℕ
  size : ℕ
  deriving DecidableEq, Repr

def CellRange.Inside (r : CellRange) : Prop := r.offset + r.length ≤ r.size

instance : DecidablePred CellRange.Inside := fun _ => inferInstanceAs (Decidable (_ ≤ _))

/-- A `memcpy` or `memmove`.  There is no source where it copies the bytes of the caller. -/
structure Copy where
  source : Option CellRange
  dest : CellRange
  deriving DecidableEq, Repr

def Copy.Inside (c : Copy) : Prop := (∀ r ∈ c.source, r.Inside) ∧ c.dest.Inside

instance : DecidablePred Copy.Inside := fun _ => inferInstanceAs (Decidable (_ ∧ _))

/-- `memcpy(write_ptr_, start, length)` -/
def tailCopy (sb : StreamBuffer) (length : ℕ) : Copy := ⟨none, ⟨sb.writePtr, length, sb.endPtr⟩⟩

/-- `memmove(begin_ptr_, read_ptr_, offset)` -/
def slideCopy (sb : StreamBuffer) : Copy :=
  ⟨some ⟨sb.readPtr, sb.readPtr, sb.endPtr⟩, ⟨0, sb.readPtr, sb.endPtr⟩⟩

/-- `memcpy(new_read_ptr, read_ptr_, pay_length)` -/
def growCopy (sb : StreamBuffer) : Copy :=
  ⟨some ⟨sb.readPtr, sb.payLength.toNat, sb.endPtr⟩, ⟨0, sb.payLength.toNat, sb.endPtr * 2⟩⟩

/-- The copies that `append` makes, in order. -/
def copies (H : Heap UInt8) (sb : StreamBuffer) (length : ℤ) : List Copy :=
  if ¬ sb.owned then []
  else if length ≤ 0 then []
  else if length ≤ sb.left then [sb.tailCopy length.toNat]
  else if length ≤ sb.totLeft then sb.slideCopy :: copies H (sb.slide H) length
  else if 0 < sb.endPtr ∧ FitsInt (sb.endPtr * 2) then sb.growCopy :: copies H (sb.grow H) length
  else []
termination_by 2 * (2 ^ 31 - sb.endPtr) + if 0 < sb.readPtr then 1 else 0
decreasing_by
  · have hread : 0 < sb.readPtr := by simp only [totLeft] at *; omega
    simp [slide, hread]
  · simp only [grow, lt_self_iff_false, if_false, FitsInt] at *
    omega

/-- Every copy of the call is inside the block. -/
def CopiesInside (H : Heap UInt8) (sb : StreamBuffer) : Op → Prop
  | .append _ length => ∀ c ∈ sb.copies H length, c.Inside
  | _ => True

instance (sb : StreamBuffer) : DecidablePred (sb.CopiesInside H)
  | .append _ length => inferInstanceAs (Decidable (∀ c ∈ sb.copies H length, _))
  | .readInt32 _ | .readInt16 _ | .readString _ _ => isTrue trivial

/-- If the call slides, no more than half of the block was consumed. -/
def SlideFits (sb : StreamBuffer) : Op → Prop
  | .append _ length => sb.Slides length → 2 * sb.readPtr ≤ sb.endPtr
  | _ => True

instance (sb : StreamBuffer) : DecidablePred sb.SlideFits
  | .append _ _ => inferInstanceAs (Decidable (_ → _))
  | .readInt32 _ | .readInt16 _ | .readString _ _ => isTrue trivial

theorem inside_tailCopy (hv : sb.Valid) {length : ℤ} (hl : length ≤ sb.left) :
    (sb.tailCopy length.toNat).Inside := by
  have := hv.write_le
  refine ⟨by simp [tailCopy], ?_⟩
  simp only [tailCopy, CellRange.Inside, left] at *
  omega

theorem inside_growCopy (hv : sb.Valid) : sb.growCopy.Inside := by
  have hr := hv.read_le
  have hw := hv.write_le
  have hpay := hv.payLength_eq
  have hlen : sb.unreadLen = sb.writePtr - sb.readPtr := rfl
  constructor
  · simp only [growCopy, Option.mem_some_iff, forall_eq', CellRange.Inside]
    omega
  · simp only [growCopy, CellRange.Inside]
    omega

/-- The slide reads the cells up to twice the consumed part. -/
theorem inside_slideCopy_iff (hv : sb.Valid) :
    sb.slideCopy.Inside ↔ 2 * sb.readPtr ≤ sb.endPtr := by
  have hr := hv.read_le
  have hw := hv.write_le
  simp only [slideCopy, Copy.Inside, Option.mem_some_iff, forall_eq', CellRange.Inside]
  omega

/-- Where nothing was consumed the block is doubled until the new bytes fit, and all copies are
inside the blocks. -/
theorem inside_of_readPtr_zero (hv : sb.Valid) (h0 : sb.readPtr = 0) (length : ℤ) :
    ∀ c ∈ sb.copies H length, c.Inside := by
  induction hn : 2 ^ 31 - sb.endPtr using Nat.strong_induction_on generalizing sb with
  | _ n ih =>
    unfold copies
    split_ifs with _ _ hl ht hfits
    · simp
    · simpa using inside_tailCopy hv hl
    · exact absurd ht (by simpa [totLeft, h0] using hl)
    · have hlt : sb.endPtr * 2 < 2 ^ 31 := by
        have := hfits.2.2
        omega
      have hrest := ih (2 ^ 31 - (sb.grow H).endPtr) (by simp only [grow]; omega)
        (hv.grow hlt) rfl rfl
      simpa using ⟨inside_growCopy hv, hrest⟩
    · simp
    · simp

/-- The copies of an append are inside the blocks unless it slides and reads past the end. -/
theorem copiesInside_iff (hv : sb.Valid) (op : Op) : sb.CopiesInside H op ↔ sb.SlideFits op := by
  cases op with
  | append start length =>
    simp only [CopiesInside, SlideFits]
    by_cases hslides : sb.Slides length
    · obtain ⟨hpos, hl, ht⟩ := hslides
      have hcopies : sb.copies H length = sb.slideCopy :: (sb.slide H).copies H length := by
        rw [copies, if_neg (by simp [hv.owned]), if_neg (by omega), if_neg (by omega), if_pos ht]
      have hrest : ∀ c ∈ (sb.slide H).copies H length, c.Inside := by
        apply inside_of_readPtr_zero hv.slide
        simp [slide]
      rw [hcopies, List.forall_mem_cons, inside_slideCopy_iff hv]
      exact ⟨fun h _ => h.1, fun h => ⟨h ⟨hpos, hl, ht⟩, hrest⟩⟩
    · refine iff_of_true ?_ fun h => absurd h hslides
      unfold copies
      split_ifs with _ hpos hl ht hfits
      · simp
      · simpa using inside_tailCopy hv hl
      · exact absurd ⟨by omega, by omega, ht⟩ hslides
      · have hlt : sb.endPtr * 2 < 2 ^ 31 := by
          have := hfits.2.2
          omega
        simpa using ⟨inside_growCopy hv, inside_of_readPtr_zero (hv.grow hlt) rfl length⟩
      · simp
      · simp
  | _ => exact Iff.rfl

theorem allSteps_copiesInside_iff (hv : sb.Valid) {ops : List Op}
    (hops : AllSteps (call H o) Bounded sb ops) :
    AllSteps (call H o) (CopiesInside H) sb ops ↔ AllSteps (call H o) SlideFits sb ops := by
  induction ops generalizing sb with
  | nil => exact Iff.rfl
  | cons op ops ih =>
    obtain ⟨m, hm, hcalled⟩ := call_spec (H := H) (o := o) hv hops.1
    simp only [AllSteps, hm, Option.some.injEq, forall_eq']
    rw [copiesInside_iff hv, ih hcalled.valid (hops.2 m hm)]

/-- **The copies of a buffer.**  In a sequence of calls that never leaves more than `2 ^ 30` bytes
unread, every copy stays inside the blocks exactly if no append slides after more than half of the
block was consumed. -/
theorem copies_inside_iff (H : Heap UInt8) (o : ByteOrder) (ops : List Op)
    (hops : AllSteps (call H o) Bounded (empty H) ops) :
    AllSteps (call H o) (CopiesInside H) (empty H) ops ↔
      AllSteps (call H o) SlideFits (empty H) ops :=
  allSteps_copiesInside_iff valid_empty hops

/-- Four bytes in, two out, two more in: the slide reads the last two bytes of the block. -/
theorem copies_inside_of_half :
    let H := Heap.const (0 : UInt8)
    let ops := [Op.append [1, 2, 3, 4] 4, .readString [] 2, .append [5, 6] 2]
    AllSteps (call H .little) (CopiesInside H) (empty H) ops :=
  (copies_inside_iff (Heap.const 0) .little
    [Op.append [1, 2, 3, 4] 4, .readString [] 2, .append [5, 6] 2] (by decide +kernel)).2
    (by decide +kernel)

/-- Four bytes in, three out, one more in: the slide moves three bytes from the last one on. -/
theorem slide_reads_past_end :
    let H := Heap.const (0 : UInt8)
    let ops := [Op.append [1, 2, 3, 4] 4, .readString [] 3]
    AllSteps (call H .little) Bounded (empty H) (ops ++ [.append [5] 1]) ∧
      ¬ AllSteps (call H .little) (CopiesInside H) (empty H) (ops ++ [.append [5] 1]) ∧
      ∃ sb, run (call H .little) (empty H) ops = some sb ∧
        sb.copies H 1 = [⟨some ⟨3, 3, 4⟩, ⟨0, 3, 4⟩⟩, ⟨none, ⟨1, 1, 4⟩⟩] :=
  ⟨by decide +kernel, by decide +kernel, exists_run_of_any (by decide +kernel)⟩

end StreamBuffer

end SockTestProgram
