import SockTestProgram.Io.StreamBuffer
import SockTestProgram.Lib.Run

/-!
# The byte stream of an owned `StreamBuffer`

What one `append` does to the unread bytes (`append_spec`), and from it what a whole sequence of
appends and reads does.  The slide to the front moves as many bytes as were consumed, whatever the
number of unread bytes: the unread bytes `u` become `slid u n`, which is `u` exactly if `u` is no
longer than the consumed part or repeats with its length as a period (`slid_eq_self_iff`).
-/

open Memory Word Lts

namespace SockTestProgram

namespace StreamBuffer

variable {H : Heap UInt8} {sb : StreamBuffer}

/-- The pointers of an owned buffer are in order and its block is a block of `int` size. -/
structure Valid (sb : StreamBuffer) : Prop where
  owned : sb.owned = true
  read_le : sb.readPtr ≤ sb.writePtr
  write_le : sb.writePtr ≤ sb.endPtr
  length_block : sb.block.length = sb.endPtr
  end_pos : 0 < sb.endPtr
  end_lt : sb.endPtr < 2 ^ 31

/-- The number of unread bytes. -/
def unreadLen (sb : StreamBuffer) : ℕ := sb.writePtr - sb.readPtr

theorem Valid.payLength_eq (hv : sb.Valid) : sb.payLength = sb.unreadLen := by
  have := hv.read_le
  simp only [payLength, unreadLen]
  omega

theorem Valid.unread_eq (hv : sb.Valid) :
    sb.unread H = slice sb.block sb.readPtr sb.unreadLen := by
  have := hv.read_le
  have := hv.write_le
  have := hv.length_block
  rw [unread, hv.payLength_eq, Int.toNat_natCast, H.load_eq_slice]
  simp only [unreadLen]
  omega

theorem Valid.length_unread (hv : sb.Valid) : (sb.unread H).length = sb.unreadLen := by
  rw [unread, hv.payLength_eq, Int.toNat_natCast, Heap.length_load]

theorem valid_empty : (empty H).Valid :=
  ⟨rfl, le_rfl, Nat.zero_le _, H.length_fresh 2, by simp [empty], by simp [empty]⟩

/-- No `int` that `append` computes overflows in a valid buffer. -/
theorem Valid.fitsInt (hv : sb.Valid) :
    FitsInt sb.payLength ∧ FitsInt sb.left ∧ FitsInt sb.totLeft := by
  have := hv.read_le
  have := hv.write_le
  have := hv.end_lt
  simp only [FitsInt, payLength, left, totLeft]
  omega

/-! ## The three branches of `append` -/

theorem Valid.copyTail (hv : sb.Valid) {length : ℕ} (h : (length : ℤ) ≤ sb.left) (start : Bytes) :
    (sb.copyTail H start length).Valid := by
  have hroom : sb.writePtr + length ≤ sb.endPtr := by
    have := hv.write_le
    simp only [left] at h
    omega
  refine ⟨hv.owned, ?_, hroom, ?_, hv.end_pos, hv.end_lt⟩
  · exact le_trans hv.read_le (Nat.le_add_right _ _)
  · exact (length_store (by simpa [hv.length_block] using hroom)).trans hv.length_block

theorem Valid.unread_copyTail (hv : sb.Valid) {length : ℕ} (h : (length : ℤ) ≤ sb.left)
    (start : Bytes) :
    (sb.copyTail H start length).unread H = sb.unread H ++ H.load start 0 length := by
  have hlen : (H.load start 0 length).length = length := H.length_load _ _ _
  rw [(hv.copyTail h start).unread_eq, hv.unread_eq]
  have hw : sb.writePtr ≤ sb.block.length := hv.length_block ▸ hv.write_le
  have key := slice_store_append (H.load start 0 length) hv.read_le hw
  rw [hlen] at key
  rw [show (sb.copyTail H start length).unreadLen = sb.writePtr - sb.readPtr + length from ?_]
  · exact key
  · have := hv.read_le
    simp only [unreadLen, StreamBuffer.copyTail]
    omega

/-- The unread bytes after a slide that moves only `n` of them. -/
def slid (u : Bytes) (n : ℕ) : Bytes := u.take n ++ u.take (u.length - n)

theorem length_slid (u : Bytes) (n : ℕ) : (slid u n).length = u.length := by
  simp only [slid, List.length_append, List.length_take]
  omega

/-- A slide keeps the unread bytes iff those it does not move repeat the ones before them. -/
theorem slid_eq_self_iff (u : Bytes) (n : ℕ) : slid u n = u ↔ u.drop n = u.take (u.length - n) := by
  conv_lhs => rhs; rw [← List.take_append_drop n u]
  rw [slid, List.append_cancel_left_eq, eq_comm]

theorem getElem?_slid {u : Bytes} {n k : ℕ} (hk : k < u.length) :
    (slid u n)[k]? = if k < n then u[k]? else u[k - n]? := by
  unfold slid
  split_ifs with h
  · rw [List.getElem?_append_left (by simp only [List.length_take]; omega), List.getElem?_take,
      if_pos h]
  · have hlen : (u.take n).length = n := by simp only [List.length_take]; omega
    rw [List.getElem?_append_right (by omega), hlen, List.getElem?_take, if_pos (by omega)]

theorem Valid.slide (hv : sb.Valid) : (sb.slide H).Valid := by
  have := hv.read_le
  have := hv.write_le
  refine ⟨hv.owned, ?_, ?_, ?_, hv.end_pos, hv.end_lt⟩
  · simp [StreamBuffer.slide]
  · simp only [StreamBuffer.slide]
    omega
  · refine (length_store ?_).trans hv.length_block
    rw [Heap.length_load, hv.length_block]
    omega

theorem Valid.unread_slide (hv : sb.Valid) :
    (sb.slide H).unread H = slid (sb.unread H) sb.readPtr := by
  have hr := hv.read_le
  have hw := hv.write_le
  have hl := hv.length_block
  have hlen := hv.length_unread (H := H)
  have hlen' : (sb.slide H).unreadLen = sb.unreadLen := by
    simp only [unreadLen, StreamBuffer.slide]
    omega
  have huread {k : ℕ} (hk : k < sb.unreadLen) : (sb.unread H)[k]? = sb.block[sb.readPtr + k]? := by
    rw [hv.unread_eq, getElem?_slice, if_pos hk]
  apply List.ext_getElem?
  intro k
  by_cases hk : k < sb.unreadLen
  · rw [getElem?_slid (by omega), (hv.slide (H := H)).unread_eq, hlen', getElem?_slice, if_pos hk]
    simp only [StreamBuffer.slide, Nat.sub_self, Nat.zero_add]
    rw [getElem?_store (Nat.zero_le _), if_neg (Nat.not_lt_zero _), Heap.length_load, Nat.zero_add,
      Nat.sub_zero]
    have hlt : sb.readPtr + k < sb.block.length := by
      simp only [unreadLen] at hk
      omega
    split_ifs with hkr
    -- a byte that the `memmove` moves
    · rw [H.getElem?_load, if_pos hkr, huread hk, Heap.cell, List.getElem?_eq_getElem hlt]
      rfl
    -- a byte that it leaves as it was
    · rw [huread (by omega), show sb.readPtr + (k - sb.readPtr) = k by omega]
  · have h₁ := (hv.slide (H := H)).length_unread (H := H)
    have h₂ := length_slid (sb.unread H) sb.readPtr
    rw [List.getElem?_eq_none (by omega), List.getElem?_eq_none (by omega)]

theorem Valid.grow (hv : sb.Valid) (h : sb.endPtr * 2 < 2 ^ 31) : (sb.grow H).Valid := by
  have hr := hv.read_le
  have hw := hv.write_le
  have he := hv.end_pos
  refine ⟨hv.owned, Nat.zero_le _, ?_, ?_, ?_, h⟩
  · simp only [StreamBuffer.grow, hv.payLength_eq, Int.toNat_natCast, unreadLen]
    omega
  · refine (length_store ?_).trans (H.length_fresh _)
    rw [Heap.length_load, H.length_fresh, hv.payLength_eq, Int.toNat_natCast, unreadLen]
    omega
  · simp only [StreamBuffer.grow]
    omega

theorem Valid.unread_grow (hv : sb.Valid) (h : sb.endPtr * 2 < 2 ^ 31) :
    (sb.grow H).unread H = sb.unread H := by
  have hlen : (sb.unread H).length = sb.unreadLen := hv.length_unread
  have hlen' : (sb.grow H).unreadLen = sb.unreadLen := by
    simp only [unreadLen, StreamBuffer.grow, hv.payLength_eq, Int.toNat_natCast, Nat.sub_zero]
  rw [(hv.grow h).unread_eq, hlen', ← hlen]
  exact slice_store_self (Nat.zero_le _)

/-! ## `append` -/

/-- The call takes the sliding branch of `append`. -/
def Slides (sb : StreamBuffer) (length : ℤ) : Prop :=
  0 < length ∧ sb.left < length ∧ length ≤ sb.totLeft

instance (sb : StreamBuffer) (length : ℤ) : Decidable (sb.Slides length) :=
  inferInstanceAs (Decidable (_ ∧ _))

/-- What an append to a buffer with unread bytes `u` must lead to. -/
def Appended (H : Heap UInt8) (u start : Bytes) (length : ℤ) (sb' : StreamBuffer) : Prop :=
  sb'.Valid ∧ sb'.unread H = u ++ H.load start 0 length.toNat

theorem append_of_le_left (hv : sb.Valid) {start : Bytes} {length : ℤ} (hpos : 0 < length)
    (hl : length ≤ sb.left) :
    ∃ sb', sb.append H start length = some sb' ∧ Appended H (sb.unread H) start length sb' := by
  have hl' : (length.toNat : ℤ) ≤ sb.left := by omega
  refine ⟨sb.copyTail H start length.toNat, ?_, hv.copyTail hl' start, hv.unread_copyTail hl' start⟩
  rw [append, if_neg (by simp [hv.owned]), if_neg (by omega), if_neg (not_not.2 hv.fitsInt),
    if_pos hl]

/-- A buffer that never slides doubles its block until the new bytes fit. -/
theorem append_of_readPtr_zero (hv : sb.Valid) (h0 : sb.readPtr = 0) {start : Bytes} {length : ℤ}
    (hpos : 0 < length) (hb : sb.payLength + length ≤ 2 ^ 30) :
    ∃ sb', sb.append H start length = some sb' ∧ Appended H (sb.unread H) start length sb' := by
  induction hn : 2 ^ 31 - sb.endPtr using Nat.strong_induction_on generalizing sb with
  | _ n ih =>
    by_cases hl : length ≤ sb.left
    · exact append_of_le_left hv hpos hl
    have htot : ¬ length ≤ sb.totLeft := by simpa [totLeft, h0] using hl
    -- the block is smaller than the payload and the new bytes together
    have hsmall : sb.endPtr * 2 < 2 ^ 31 := by
      simp only [left, payLength, h0] at hl hb
      omega
    have hpay : (sb.grow H).payLength = sb.payLength := by
      simp [StreamBuffer.grow, payLength, h0]
    have hend := hv.end_pos
    obtain ⟨sb', happ, hres⟩ := ih (2 ^ 31 - (sb.grow H).endPtr)
      (by simp only [StreamBuffer.grow]; omega) (hv.grow hsmall) rfl (hpay ▸ hb) rfl
    refine ⟨sb', ?_, hv.unread_grow hsmall ▸ hres⟩
    rw [append, if_neg (by simp [hv.owned]), if_neg (by omega), if_neg (not_not.2 hv.fitsInt),
      if_neg hl, if_neg htot, if_pos ⟨hend, by simp only [FitsInt]; omega⟩]
    exact happ

/-- `append` returns, and adds the new bytes behind the unread ones, which a slide may change. -/
theorem append_spec (hv : sb.Valid) (start : Bytes) {length : ℤ} (hpos : 0 < length)
    (hb : sb.payLength + length ≤ 2 ^ 30) :
    ∃ sb', sb.append H start length = some sb' ∧
      Appended H (if sb.Slides length then slid (sb.unread H) sb.readPtr else sb.unread H)
        start length sb' := by
  by_cases hl : length ≤ sb.left
  · rw [if_neg fun h => absurd h.2.1 (by omega)]
    exact append_of_le_left hv hpos hl
  rw [append, if_neg (by simp [hv.owned]), if_neg (by omega), if_neg (not_not.2 hv.fitsInt),
    if_neg hl]
  by_cases ht : length ≤ sb.totLeft
  · have hslides : sb.Slides length := ⟨hpos, by omega, ht⟩
    rw [if_pos ht, if_pos hslides, ← hv.unread_slide]
    -- after the slide all the room is at the tail
    refine append_of_le_left hv.slide hpos ?_
    have := hv.read_le
    simp only [totLeft, left, StreamBuffer.slide] at ht ⊢
    omega
  · have hr := hv.read_le
    have hw := hv.write_le
    have hsmall : sb.endPtr * 2 < 2 ^ 31 := by
      simp only [totLeft, left, payLength] at ht hb
      omega
    have hpay : (sb.grow H).payLength = sb.payLength := by
      simp only [StreamBuffer.grow, payLength]
      omega
    have hslides : ¬ sb.Slides length := fun h => ht h.2.2
    rw [if_neg ht, if_pos ⟨hv.end_pos, by simp only [FitsInt]; omega⟩, if_neg hslides,
      ← hv.unread_grow hsmall]
    exact append_of_readPtr_zero (hv.grow hsmall) rfl hpos (hpay ▸ hb)

/-! ## Histories of calls -/

/-- A call on a buffer.  The reads carry the old value of their output parameter. -/
inductive Op
  | append (start : Bytes) (length : ℤ)
  | readInt32 (value : BitVec 32)
  | readInt16 (value : BitVec 32)
  | readString (str : Bytes) (length : ℕ)
  deriving DecidableEq, Repr

/-- A buffer with the bytes that went into it and the bytes that came out of it so far. -/
structure History where
  sb : StreamBuffer
  appended : Bytes
  consumed : Bytes
  deriving DecidableEq, Repr

def History.start (H : Heap UInt8) : History := ⟨empty H, [], []⟩

/-- The four bytes that `readInt32` turns into `value`. -/
def int32Bytes (o : ByteOrder) (value : BitVec 32) : Bytes :=
  storeInt .little (hostToNetworkLong o value)

/-- The two bytes that `readInt16` turns into `value`. -/
def int16Bytes (o : ByteOrder) (value : BitVec 32) : Bytes :=
  (storeInt .little ((hostToNetworkShort o (value.setWidth 16)).setWidth 32)).take 2

/-- The state after a read with the given result, output and buffer. -/
def History.afterRead {α : Type} (h : History) (bytes : α → Bytes) (r : Bool × α × StreamBuffer) :
    History :=
  { h with sb := r.2.2, consumed := h.consumed ++ if r.1 then bytes r.2.1 else [] }

/-- One call.  The caller of `append` passes at least `length` bytes. -/
def step (H : Heap UInt8) (o : ByteOrder) (h : History) : Op → Option History
  | .append start length =>
    if length.toNat ≤ start.length then
      (h.sb.append H start length).map fun sb =>
        { h with sb, appended := h.appended ++ start.take length.toNat }
    else none
  | .readInt32 value => some (h.afterRead (int32Bytes o) (h.sb.readInt32 H o value))
  | .readInt16 value => some (h.afterRead (int16Bytes o) (h.sb.readInt16 H o value))
  | .readString str length => some (h.afterRead id (h.sb.readString H str length))

/-- The call is one the caller may make: enough bytes, and no more than `2 ^ 30` of them unread. -/
def Allowed (h : History) : Op → Prop
  | .append start length => length.toNat ≤ start.length ∧ h.sb.payLength + length ≤ 2 ^ 30
  | _ => True

instance (h : History) : ∀ op, Decidable (Allowed h op)
  | .append _ _ => inferInstanceAs (Decidable (_ ∧ _))
  | .readInt32 _ | .readInt16 _ | .readString _ _ => isTrue trivial

/-- If the call slides, the unread bytes are no longer than the part consumed before them, or
repeat with the length of that part as a period. -/
def SlidesHarmlessly (H : Heap UInt8) (h : History) : Op → Prop
  | .append _ length => h.sb.Slides length →
      (h.sb.unread H).drop h.sb.readPtr =
        (h.sb.unread H).take ((h.sb.unread H).length - h.sb.readPtr)
  | _ => True

instance (h : History) : ∀ op, Decidable (SlidesHarmlessly H h op)
  | .append _ _ => inferInstanceAs (Decidable (_ → _))
  | .readInt32 _ | .readInt16 _ | .readString _ _ => isTrue trivial

/-- The bytes that came out, followed by the unread ones, are the bytes that went in; and a read
that would fail now leaves the output parameter and the buffer alone. -/
structure History.IsFifo (H : Heap UInt8) (o : ByteOrder) (h : History) : Prop where
  stream : h.consumed ++ h.sb.unread H = h.appended
  int32 : ∀ value, (h.sb.readInt32 H o value).1 = false →
    (h.sb.readInt32 H o value).2 = (value, h.sb)
  int16 : ∀ value, (h.sb.readInt16 H o value).1 = false →
    (h.sb.readInt16 H o value).2 = (value, h.sb)
  string : ∀ str length, (h.sb.readString H str length).1 = false →
    (h.sb.readString H str length).2 = (str, h.sb)

/-! ### Reads -/

/-- A successful read takes the bytes it returns off the front of the unread ones. -/
def TakesFront (H : Heap UInt8) (sb sb' : StreamBuffer) (out : Bytes) : Prop :=
  sb'.Valid ∧ sb.unread H = out ++ sb'.unread H

theorem Valid.commit (hv : sb.Valid) {n : ℕ} (hn : n ≤ sb.unreadLen) :
    TakesFront H sb (sb.commit n) (H.load sb.block sb.readPtr n) := by
  have hr := hv.read_le
  have hw := hv.write_le
  have hl := hv.length_block
  simp only [unreadLen] at hn
  have hv' : (sb.commit n).Valid :=
    ⟨hv.owned, by simp only [StreamBuffer.commit]; omega, hw, hl, hv.end_pos, hv.end_lt⟩
  refine ⟨hv', ?_⟩
  rw [hv.unread_eq, hv'.unread_eq, H.load_eq_slice (by omega),
    show sb.unreadLen = n + (sb.commit n).unreadLen from ?_, slice_add]
  · rfl
  · simp only [unreadLen, StreamBuffer.commit]
    omega

theorem load_four (H : Heap UInt8) (block : Bytes) (i : ℕ) :
    ∃ a b c d, H.load block i 4 = [a, b, c, d] :=
  ⟨_, _, _, _, rfl⟩

theorem load_two (H : Heap UInt8) (block : Bytes) (i : ℕ) : ∃ a b, H.load block i 2 = [a, b] :=
  ⟨_, _, rfl⟩

theorem int32Bytes_accumulate (o : ByteOrder) (a b c d : UInt8) :
    int32Bytes o (networkToHostLong o (accumulate 0#32 1#32 [a, b, c, d])) = [a, b, c, d] := by
  rw [int32Bytes, hostToNetworkLong_networkToHostLong, accumulate_four, storeInt_little_ofBytes]

theorem int16Bytes_accumulate (o : ByteOrder) (a b : UInt8) :
    int16Bytes o ((networkToHostShort o
      ((accumulate 0#32 1#32 [a, b]).setWidth 16)).setWidth 32) = [a, b] := by
  have hsmall : ((ofBytes 0 0 b a).setWidth 16).setWidth 32 = ofBytes 0 0 b a := by
    apply BitVec.eq_of_toNat_eq
    have ha := a.toNat_lt
    have hb := b.toNat_lt
    simp only [BitVec.toNat_setWidth, toNat_ofBytes, UInt8.toNat_zero]
    omega
  rw [int16Bytes, BitVec.setWidth_setWidth_of_le _ (by omega), BitVec.setWidth_eq,
    hostToNetworkShort_networkToHostShort, accumulate_two, hsmall, storeInt_little_ofBytes]
  rfl

theorem takeFront_cases {α : Type} (hv : sb.Valid) (length : ℕ) (old : α) (f : Bytes → α) :
    sb.takeFront H length old f = (false, old, sb) ∨
      ∃ sb', sb.takeFront H length old f = (true, f (H.load sb.block sb.readPtr length), sb') ∧
        TakesFront H sb sb' (H.load sb.block sb.readPtr length) := by
  unfold takeFront
  split_ifs with h
  · exact Or.inl rfl
  · rw [hv.payLength_eq] at h
    exact Or.inr ⟨_, rfl, hv.commit (by omega)⟩

theorem readInt32_cases (hv : sb.Valid) (o : ByteOrder) (value : BitVec 32) :
    sb.readInt32 H o value = (false, value, sb) ∨
      ∃ v sb', sb.readInt32 H o value = (true, v, sb') ∧ TakesFront H sb sb' (int32Bytes o v) := by
  rw [readInt32_eq]
  refine (takeFront_cases hv 4 value _).imp id ?_
  rintro ⟨sb', h, htakes⟩
  obtain ⟨a, b, c, d, hl⟩ := load_four H sb.block sb.readPtr
  refine ⟨_, sb', h, ?_⟩
  rw [hl, int32Bytes_accumulate, ← hl]
  exact htakes

theorem readInt16_cases (hv : sb.Valid) (o : ByteOrder) (value : BitVec 32) :
    sb.readInt16 H o value = (false, value, sb) ∨
      ∃ v sb', sb.readInt16 H o value = (true, v, sb') ∧ TakesFront H sb sb' (int16Bytes o v) := by
  rw [readInt16_eq]
  refine (takeFront_cases hv 2 value _).imp id ?_
  rintro ⟨sb', h, htakes⟩
  obtain ⟨a, b, hl⟩ := load_two H sb.block sb.readPtr
  refine ⟨_, sb', h, ?_⟩
  rw [hl, int16Bytes_accumulate, ← hl]
  exact htakes

theorem readString_cases (hv : sb.Valid) (str : Bytes) (length : ℕ) :
    sb.readString H str length = (false, str, sb) ∨
      ∃ v sb', sb.readString H str length = (true, v, sb') ∧ TakesFront H sb sb' v := by
  rw [readString_eq]
  refine (takeFront_cases hv length str id).imp id ?_
  rintro ⟨sb', h, htakes⟩
  exact ⟨_, sb', h, htakes⟩

/-- A read that either fails or takes its output off the front keeps the stream. -/
theorem stream_afterRead {α : Type} {h : History} {old : α} {r : Bool × α × StreamBuffer}
    (bytes : α → Bytes) (hv : h.sb.Valid)
    (hr : r = (false, old, h.sb) ∨ ∃ v sb', r = (true, v, sb') ∧ TakesFront H h.sb sb' (bytes v)) :
    (h.afterRead bytes r).sb.Valid ∧
      (h.afterRead bytes r).consumed ++ (h.afterRead bytes r).sb.unread H =
        h.consumed ++ h.sb.unread H := by
  obtain rfl | ⟨v, sb', rfl, hv', hu⟩ := hr
  · simp [History.afterRead, hv]
  · simp [History.afterRead, hv', hu]

/-! ### One call and a whole history -/

theorem isFifo_iff {h : History} (hv : h.sb.Valid) (o : ByteOrder) :
    h.IsFifo H o ↔ h.consumed ++ h.sb.unread H = h.appended := by
  refine ⟨History.IsFifo.stream, fun hs => ⟨hs, fun value hf => ?_, fun value hf => ?_,
    fun str length hf => ?_⟩⟩
  · obtain h' | ⟨v, sb', h', -⟩ := readInt32_cases (H := H) hv o value <;> simp_all
  · obtain h' | ⟨v, sb', h', -⟩ := readInt16_cases (H := H) hv o value <;> simp_all
  · obtain h' | ⟨v, sb', h', -⟩ := readString_cases (H := H) hv str length <;> simp_all

theorem load_take {start : Bytes} {n : ℕ} (h : n ≤ start.length) :
    H.load start 0 n = start.take n := by
  rw [H.load_eq_slice (by omega), slice, List.drop_zero]

/-- One allowed call returns, keeps the pointers in order, and keeps the stream iff it does not
slide or slides harmlessly. -/
theorem step_spec {o : ByteOrder} {h : History} {op : Op} (hv : h.sb.Valid) (hop : Allowed h op) :
    ∃ h', step H o h op = some h' ∧ h'.sb.Valid ∧
      (h.consumed ++ h.sb.unread H = h.appended →
        (h'.consumed ++ h'.sb.unread H = h'.appended ↔ SlidesHarmlessly H h op)) := by
  cases op with
  | append start length =>
    obtain ⟨hstart, hb⟩ := hop
    simp only [step, if_pos hstart, SlidesHarmlessly]
    by_cases hpos : 0 < length
    · obtain ⟨sb', happ, hv', hu⟩ := append_spec (H := H) hv start hpos hb
      refine ⟨_, by rw [happ]; rfl, hv', fun hs => ?_⟩
      rw [hu, load_take hstart, ← List.append_assoc, List.append_cancel_right_eq, ← hs,
        List.append_cancel_left_eq]
      by_cases hsl : h.sb.Slides length
      · simp only [hsl, if_true, true_imp_iff, slid_eq_self_iff]
      · simp [hsl]
    · have hzero : length.toNat = 0 := by omega
      refine ⟨{ h with appended := h.appended ++ start.take length.toNat }, ?_, hv, fun hs => ?_⟩
      · rw [append, if_neg (by simp [hv.owned]), if_pos (by omega)]
        rfl
      · have hno : ¬ h.sb.Slides length := fun hsl => hpos hsl.1
        simp [hzero, hs, hno]
  | readInt32 value =>
    obtain ⟨hv', hs'⟩ := stream_afterRead _ hv (readInt32_cases (H := H) hv o value)
    exact ⟨_, rfl, hv', fun hs => iff_of_true (hs'.trans hs) trivial⟩
  | readInt16 value =>
    obtain ⟨hv', hs'⟩ := stream_afterRead _ hv (readInt16_cases (H := H) hv o value)
    exact ⟨_, rfl, hv', fun hs => iff_of_true (hs'.trans hs) trivial⟩
  | readString str length =>
    obtain ⟨hv', hs'⟩ := stream_afterRead id hv (readString_cases (H := H) hv str length)
    exact ⟨_, rfl, hv', fun hs => iff_of_true (hs'.trans hs) trivial⟩

/-- **The byte stream of a buffer.**  Every allowed history of calls returns, and the buffer is a
FIFO byte stream all along it iff no call slides unread bytes that are longer than the consumed
part before them, unless they repeat with its length. -/
theorem isFifo_iff_slidesHarmlessly (H : Heap UInt8) (o : ByteOrder) (ops : List Op)
    (hops : AllSteps (step H o) Allowed (History.start H) ops) :
    (∃ h, run (step H o) (History.start H) ops = some h) ∧
      ((∀ pre h, pre <+: ops → run (step H o) (History.start H) pre = some h → h.IsFifo H o) ↔
        AllSteps (step H o) (SlidesHarmlessly H) (History.start H) ops) := by
  have hstart : (History.start H).consumed ++ (History.start H).sb.unread H =
      (History.start H).appended := by
    simp [History.start, unread, payLength, empty, Heap.load]
  constructor
  · obtain ⟨h, hrun, -⟩ := exists_run (I := fun h => h.sb.Valid)
      (fun h op hv hop => (step_spec hv hop).imp fun h' hh => ⟨hh.1, hh.2.1⟩) valid_empty hops
    exact ⟨h, hrun⟩
  · refine forall_states_iff_allSteps (I := fun h => h.sb.Valid) (J := fun h => h.IsFifo H o)
      (fun h op hv hs hop => ?_) valid_empty ((isFifo_iff valid_empty o).2 hstart) hops
    obtain ⟨h', hstep, hv', hiff⟩ := step_spec (o := o) hv hop
    exact ⟨h', hstep, hv', (isFifo_iff hv' o).trans (hiff hs.stream)⟩

/-- Four bytes in, two out, two more in: the slide moves both unread bytes. -/
theorem isFifo_of_short_payload :
    let H := Heap.const (0 : UInt8)
    let ops := [Op.append [1, 2, 3, 4] 4, .readString [] 2, .append [5, 6] 2]
    ∀ pre h, pre <+: ops → run (step H .little) (History.start H) pre = some h →
      h.IsFifo H .little :=
  (isFifo_iff_slidesHarmlessly (Heap.const 0) .little
    [Op.append [1, 2, 3, 4] 4, .readString [] 2, .append [5, 6] 2] (by decide +kernel)).2.2
    (by decide +kernel)

/-- The bytes 2, 3, 4 are unread when the byte 5 is appended, and 2, 2, 3, 5 afterwards. -/
theorem slide_loses_bytes :
    let H := Heap.const (0 : UInt8)
    let ops := [Op.append [1, 2, 3, 4] 4, .readString [] 1, .append [5] 1]
    AllSteps (step H .little) Allowed (History.start H) ops ∧
      ¬ ∀ pre h, pre <+: ops → run (step H .little) (History.start H) pre = some h →
        h.IsFifo H .little := by
  refine ⟨by decide +kernel, fun hall => ?_⟩
  have hfifo := hall _ ⟨⟨[2, 2, 3, 5], 0, 4, 4, true⟩, [1, 2, 3, 4, 5], [1]⟩
    (List.prefix_refl _) (by decide +kernel)
  exact absurd hfifo.stream (by decide +kernel)

end StreamBuffer

end SockTestProgram
