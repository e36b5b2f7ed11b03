import SockTestProgram.Io.Fifo

/-!
# Views and owned buffers

A view over the bytes of a string and a buffer that the string was appended to, in whatever chunks,
cannot be told apart by reading (`owned_agrees_with_view`).  What a read returns depends only on the
unread bytes (`Agree`).
-/

open Memory Word Lts

namespace SockTestProgram

namespace StreamBuffer

variable {H : Heap UInt8} {o : ByteOrder} {sb sb' v : StreamBuffer}

/-- A read, with the old value of its output parameter. -/
inductive Read
  | int32 (value : BitVec 32)
  | int16 (value : BitVec 32)
  | string (str : Bytes) (length : ℕ)
  deriving DecidableEq, Repr

/-- The output parameter of a read. -/
inductive Output
  | int (value : BitVec 32)
  | string (str : Bytes)
  deriving DecidableEq, Repr

/-- What the caller of a read sees: the result, the output parameter and `payLength()`
afterwards. -/
structure Answer where
  result : Bool
  output : Output
  payLength : ℤ
  deriving DecidableEq, Repr

def read (H : Heap UInt8) (o : ByteOrder) (sb : StreamBuffer) : Read → Answer × StreamBuffer
  | .int32 value =>
    let r := sb.readInt32 H o value
    (⟨r.1, .int r.2.1, r.2.2.payLength⟩, r.2.2)
  | .int16 value =>
    let r := sb.readInt16 H o value
    (⟨r.1, .int r.2.1, r.2.2.payLength⟩, r.2.2)
  | .string str length =>
    let r := sb.readString H str length
    (⟨r.1, .string r.2.1, r.2.2.payLength⟩, r.2.2)

/-- What the caller sees of one read after another. -/
def answers (H : Heap UInt8) (o : ByteOrder) : StreamBuffer → List Read → List Answer
  | _, [] => []
  | sb, r :: reads => (sb.read H o r).1 :: answers H o (sb.read H o r).2 reads

/-- The buffer after one read after another. -/
def afterReads (H : Heap UInt8) (o : ByteOrder) (sb : StreamBuffer) (reads : List Read) :
    StreamBuffer :=
  reads.foldl (fun sb r => (sb.read H o r).2) sb

/-- Append a whole chunk. -/
def appendChunk (H : Heap UInt8) (sb : StreamBuffer) (chunk : Bytes) : Option StreamBuffer :=
  sb.append H chunk chunk.length

/-! ## Reads see the unread bytes only -/

/-- The same bytes are unread in both buffers. -/
structure Agree (H : Heap UInt8) (sb v : StreamBuffer) : Prop where
  payLength : sb.payLength = v.payLength
  unread : sb.unread H = v.unread H

theorem payLength_commit (sb : StreamBuffer) (n : ℕ) :
    (sb.commit n).payLength = sb.payLength - n := by
  simp only [StreamBuffer.payLength, commit]
  omega

theorem unread_eq_append {n : ℕ} (h : (n : ℤ) ≤ sb.payLength) :
    sb.unread H = H.load sb.block sb.readPtr n ++ (sb.commit n).unread H := by
  have hlen : sb.payLength.toNat = n + (sb.commit n).payLength.toNat := by
    rw [payLength_commit]
    omega
  rw [StreamBuffer.unread, hlen, H.load_add]
  rfl

/-- Two buffers that agree hand out the same bytes, and agree afterwards. -/
theorem Agree.commit (h : Agree H sb v) {n : ℕ} (hn : (n : ℤ) ≤ sb.payLength) :
    H.load sb.block sb.readPtr n = H.load v.block v.readPtr n ∧
      Agree H (sb.commit n) (v.commit n) := by
  have hunread := h.unread
  have hn' : (n : ℤ) ≤ v.payLength := h.payLength ▸ hn
  rw [unread_eq_append hn, unread_eq_append hn'] at hunread
  have hlen : (H.load sb.block sb.readPtr n).length = (H.load v.block v.readPtr n).length := by
    rw [H.length_load, H.length_load]
  obtain ⟨hload, hrest⟩ := List.append_inj hunread hlen
  refine ⟨hload, ?_, hrest⟩
  rw [payLength_commit, payLength_commit, h.payLength]

theorem Agree.takeFront {α : Type} (h : Agree H sb v) (length : ℕ) (old : α) (f : Bytes → α) :
    (sb.takeFront H length old f).1 = (v.takeFront H length old f).1 ∧
      (sb.takeFront H length old f).2.1 = (v.takeFront H length old f).2.1 ∧
      Agree H (sb.takeFront H length old f).2.2 (v.takeFront H length old f).2.2 := by
  have hpay := h.payLength
  unfold StreamBuffer.takeFront
  by_cases hlt : sb.payLength < length
  · rw [if_pos hlt, if_pos (hpay ▸ hlt)]
    exact ⟨rfl, rfl, h⟩
  · obtain ⟨hload, hagree⟩ := h.commit (n := length) (by omega)
    rw [if_neg hlt, if_neg (hpay ▸ hlt)]
    exact ⟨rfl, congrArg f hload, hagree⟩

theorem Agree.read (h : Agree H sb v) (r : Read) :
    (sb.read H o r).1 = (v.read H o r).1 ∧ Agree H (sb.read H o r).2 (v.read H o r).2 := by
  cases r with
  | int32 value =>
    simp only [StreamBuffer.read, readInt32_eq]
    obtain ⟨hresult, houtput, hagree⟩ := h.takeFront 4 value _
    exact ⟨by rw [hresult, houtput, hagree.payLength], hagree⟩
  | int16 value =>
    simp only [StreamBuffer.read, readInt16_eq]
    obtain ⟨hresult, houtput, hagree⟩ := h.takeFront 2 value _
    exact ⟨by rw [hresult, houtput, hagree.payLength], hagree⟩
  | string str length =>
    simp only [StreamBuffer.read, readString_eq]
    obtain ⟨hresult, houtput, hagree⟩ := h.takeFront length str _
    exact ⟨by rw [hresult, houtput, hagree.payLength], hagree⟩

theorem Agree.answers (h : Agree H sb v) (reads : List Read) :
    sb.answers H o reads = v.answers H o reads := by
  induction reads generalizing sb v with
  | nil => rfl
  | cons r reads ih =>
    obtain ⟨hanswer, hagree⟩ := h.read (o := o) r
    rw [StreamBuffer.answers, StreamBuffer.answers, hanswer, ih hagree]

/-! ## The view -/

theorem takeFront_owned {α : Type} (sb : StreamBuffer) (length : ℕ) (old : α) (f : Bytes → α) :
    (sb.takeFront H length old f).2.2.owned = sb.owned := by
  unfold takeFront
  split_ifs <;> rfl

theorem read_owned (sb : StreamBuffer) (r : Read) : (sb.read H o r).2.owned = sb.owned := by
  cases r with
  | int32 value =>
    simp only [StreamBuffer.read, readInt32_eq]
    exact takeFront_owned sb 4 value _
  | int16 value =>
    simp only [StreamBuffer.read, readInt16_eq]
    exact takeFront_owned sb 2 value _
  | string str length =>
    simp only [StreamBuffer.read, readString_eq]
    exact takeFront_owned sb length str _

theorem afterReads_owned (sb : StreamBuffer) (reads : List Read) :
    (sb.afterReads H o reads).owned = sb.owned := by
  induction reads generalizing sb with
  | nil => rfl
  | cons r reads ih => exact (ih _).trans (read_owned sb r)

theorem append_of_not_owned (h : sb.owned = false) (start : Bytes) (length : ℤ) :
    sb.append H start length = some sb := by
  rw [append, if_pos (by simp [h])]

theorem unread_view (s : Bytes) : (view s s.length).unread H = s := by
  have hpay : (view s s.length).payLength.toNat = s.length := by simp [payLength, view]
  rw [unread, hpay]
  exact (H.load_eq_slice (by simp [view])).trans (slice_self s)

/-! ## The owned buffer before its first read -/

theorem readPtr_append {start : Bytes} {length : ℤ} (h0 : sb.readPtr = 0)
    (h : sb.append H start length = some sb') : sb'.readPtr = 0 := by
  fun_induction append H sb start length with
  | case1 | case2 | case4 =>
    obtain rfl := Option.some.inj h
    exact h0
  | case3 | case7 => cases h
  | case5 sb _ _ _ _ _ ih => exact ih (by simp [slide]) h
  | case6 sb _ _ _ _ _ _ ih => exact ih rfl h

/-- Nothing was read yet of the bytes that are in the buffer. -/
structure Holds (H : Heap UInt8) (sb : StreamBuffer) (s : Bytes) : Prop where
  valid : sb.Valid
  readPtr : sb.readPtr = 0
  unread : sb.unread H = s

theorem holds_empty (H : Heap UInt8) : Holds H (empty H) [] :=
  ⟨valid_empty, rfl, by simp [StreamBuffer.unread, payLength, empty, Heap.load]⟩

theorem Holds.payLength {s : Bytes} (h : Holds H sb s) : sb.payLength = s.length := by
  rw [h.valid.payLength_eq, ← h.valid.length_unread (H := H), h.unread]

/-- A chunk is added behind the bytes in the buffer; before the first read no append slides. -/
theorem Holds.append {s chunk : Bytes} (h : Holds H sb s)
    (hlen : (s ++ chunk).length ≤ 2 ^ 30) :
    ∃ sb', sb.appendChunk H chunk = some sb' ∧ Holds H sb' (s ++ chunk) := by
  rw [List.length_append] at hlen
  by_cases hpos : 0 < chunk.length
  · have hb : sb.payLength + chunk.length ≤ 2 ^ 30 := by
      rw [h.payLength]
      omega
    obtain ⟨sb', happ, happended⟩ := append_of_readPtr_zero h.valid h.readPtr
      (show (0 : ℤ) < chunk.length by omega) hb
    refine ⟨sb', happ, happended.1, readPtr_append h.readPtr happ, ?_⟩
    rw [happended.2, h.unread, Int.toNat_natCast, load_take le_rfl, List.take_length]
  · obtain rfl : chunk = [] := List.length_eq_zero_iff.1 (by omega)
    refine ⟨sb, ?_, by rwa [List.append_nil]⟩
    rw [appendChunk, StreamBuffer.append, if_neg (by simp [h.valid.owned]), if_pos (by simp)]

theorem Holds.chunks {s : Bytes} (h : Holds H sb s) {chunks : List Bytes}
    (hlen : (s ++ chunks.flatten).length ≤ 2 ^ 30) :
    ∃ sb', run (appendChunk H) sb chunks = some sb' ∧ Holds H sb' (s ++ chunks.flatten) := by
  induction chunks generalizing sb s with
  | nil => exact ⟨sb, rfl, by simpa using h⟩
  | cons chunk chunks ih =>
    rw [List.flatten_cons, ← List.append_assoc] at hlen ⊢
    have hchunk : (s ++ chunk).length ≤ 2 ^ 30 := by
      rw [List.length_append] at hlen
      omega
    obtain ⟨m, hm, hholds⟩ := h.append hchunk
    obtain ⟨sb', hrun, hholds'⟩ := ih hholds hlen
    exact ⟨sb', run_cons_eq_some_iff.2 ⟨m, hm, hrun⟩, hholds'⟩

theorem Holds.agree {s : Bytes} (h : Holds H sb s) : Agree H sb (view s s.length) := by
  refine ⟨?_, h.unread.trans (unread_view s).symm⟩
  rw [h.payLength]
  simp [StreamBuffer.payLength, view]

/-- **Views and owned buffers agree.**  A string of at most `2 ^ 30` bytes that is appended in
chunks is read like a view over it: every read has the same result, the same output and the same
`payLength()`. An append to the view changes nothing. -/
theorem owned_agrees_with_view (H : Heap UInt8) (o : ByteOrder) {s : Bytes} (hs : s.length ≤ 2 ^ 30)
    {chunks : List Bytes} (hchunks : chunks.flatten = s) (reads : List Read) :
    ∃ sb, run (appendChunk H) (empty H) chunks = some sb ∧
      sb.payLength = (view s s.length).payLength ∧
      sb.answers H o reads = (view s s.length).answers H o reads ∧
      ∀ start length, ((view s s.length).afterReads H o reads).append H start length =
        some ((view s s.length).afterReads H o reads) := by
  have hlen : ([] ++ chunks.flatten).length ≤ 2 ^ 30 := by simpa [hchunks] using hs
  obtain ⟨sb, hrun, hholds⟩ := (holds_empty H).chunks hlen
  rw [List.nil_append, hchunks] at hholds
  refine ⟨sb, hrun, hholds.agree.payLength, hholds.agree.answers reads, fun start length => ?_⟩
  exact append_of_not_owned (afterReads_owned _ reads) start length

/-- Six bytes in three chunks, one of them empty. -/
theorem owned_agrees_with_view_six :
    let H := Heap.const (0 : UInt8)
    let s : Bytes := [0, 0, 0, 7, 1, 2]
    ∃ sb, run (appendChunk H) (empty H) [[0, 0, 0], [], [7, 1, 2]] = some sb ∧
      sb.answers H .little [.int32 0, .string [] 3, .int16 0] =
        (view s s.length).answers H .little [.int32 0, .string [] 3, .int16 0] ∧
      (view s s.length).answers H .little [.int32 0, .string [] 3, .int16 0] =
        [⟨true, .int 7, 2⟩, ⟨false, .string [], 2⟩, ⟨true, .int 258, 0⟩] := by
  intro H s
  have hchunks : [[0, 0, 0], [], [7, 1, 2]].flatten = s := rfl
  obtain ⟨sb, hrun, -, hanswers, -⟩ := owned_agrees_with_view H .little (s := s) (by decide) hchunks
    [.int32 0, .string [] 3, .int16 0]
  exact ⟨sb, hrun, hanswers, by decide +kernel⟩

end StreamBuffer

end SockTestProgram
