import SockTestProgram.Pbc.Draft

/-!
# Packed arrays

What `pbc_wmessage_buffer` adds to a message for an array of numbers: a field with the encodings of
the numbers, whatever length was expected of them (`exists_packPacked`).  Numbers of 32 bits are an
exception, if there is more than one: they are written eight bytes apart.
-/

open Growing Memory Varint Word

namespace SockTestProgram

variable {H : Heap UInt8} {R : Reals} {b : Buffer UInt8} {p : Packed}

/-- Without numbers that are not zero. -/
def Reals.zero : Reals := ⟨fun _ => ⟨0, 0⟩, fun _ => 0⟩

namespace WMessage

/-! ## Arrays of numbers -/

/-- The bytes of a value of an array. -/
def packedBytes (R : Reals) (t : PType) (v : LongLong) : Bytes :=
  ((packedWire R t v).map WireValue.encode).getD [0]

theorem length_packedBytes_pos (R : Reals) (t : PType) (v : LongLong) :
    0 < (packedBytes R t v).length := by
  unfold packedBytes
  cases h : packedWire R t v with
  | none => decide
  | some w =>
    show 0 < w.encode.length
    cases w with
    | varint n => exact length_encode_pos _
    | bit64 low hi => simp [WireValue.encode]
    | lend s =>
      have := length_encode_pos s.length
      simp only [WireValue.encode, List.length_append]
      omega
    | bit32 x => simp [WireValue.encode]

theorem length_le_length_flatMap {α : Type} {encode : α → Bytes} (hpos : ∀ x, 0 < (encode x).length)
    (l : List α) :
    l.length ≤ (l.flatMap encode).length := by
  induction l with
  | nil => simp
  | cons x l ih =>
    have := hpos x
    rw [List.flatMap_cons, List.length_append, List.length_cons]
    omega

theorem varintBytes_eq {t : PType} {encode : LongLong → Bytes} (h : varintBytes t = some encode)
    (R : Reals) (v : LongLong) : encode v = packedBytes R t v ∧ (encode v).length ≤ 10 := by
  have h32 (x : BitVec 32) : (pbcVEncode32 x).length ≤ 10 :=
  (length_pbcVEncode32_le x).trans (by decide)
  unfold packedBytes
  cases t <;> cases h <;>
    simp only [packedWire, integerWire, Option.map_some, Option.getD_some, WireValue.encode,
      pbcVEncode_eq, ← pbcVEncode32_eq_setWidth, pbcVZigzag32, pbcVZigzag, true_and, h32]
  all_goals
    rw [← pbcVEncode_eq]
    exact length_pbcVEncode_le _

/-- The numbers of an array are written one behind the other. -/
theorem exists_packNumbers (H : Heap UInt8) {t : PType} {encode : LongLong → Bytes}
    (hencode : varintBytes t = some encode) (R : Reals) {vs : List LongLong} (h : b.Valid)
    (hsize : b.written.length + (vs.flatMap (packedBytes R t)).length ≤ 2 ^ 28) :
    ∃ b', vs.foldlM (packNumber H encode) b = some b' ∧ b'.Valid ∧
      b'.written = b.written ++ vs.flatMap (packedBytes R t) := by
  refine Buffer.exists_foldlM id (fun b v _ hvalid hsize => ?_) h hsize
  obtain ⟨hbytes, hlen⟩ := varintBytes_eq hencode R v
  have hlimit : 2 * (b.written.length + 10) ≤ intLimit := by
    simp only [id_eq] at hsize
    rw [intLimit_eq]
    omega
  obtain ⟨b', hb', hvalid', hwritten'⟩ := Buffer.exists_reserve_put H hvalid hlen hlimit
  rw [hbytes] at hwritten'
  exact ⟨b', hb', hvalid', hwritten'⟩

/-- The length before the numbers is put right. -/
theorem exists_rewriteLength (H : Heap UInt8) {pre head body : Bytes} (h : b.Valid)
    (hwritten : b.written = pre ++ head ++ body) (hsize : b.written.length ≤ 2 ^ 28) :
    ∃ b', rewriteLength H pre.length head.length body.length b = some b' ∧ b'.Valid ∧
      b'.written = pre ++ pbcVEncode32 (BitVec.ofNat 32 body.length) ++ body := by
  have htemp := length_pbcVEncode32_le (BitVec.ofNat 32 body.length)
  unfold rewriteLength
  simp only
  split_ifs with hlen
  · exact Buffer.exists_overwrite_head h hwritten hlen
  · have hlimit : 2 * (b.written.length + (pbcVEncode32 (BitVec.ofNat 32 body.length)).length) ≤
        intLimit := by
      rw [intLimit_eq]
      omega
    obtain ⟨b₁, h₁, hvalid₁, hwritten₁, hptr₁, hroom₁⟩ := Buffer.exists_reserve H h hlimit
    have hptr := Buffer.length_written h
    rw [hwritten, List.length_append, List.length_append] at hptr
    obtain ⟨b₂, b₃, h₂, h₃, hptr₃, hcells₃, hwritten₃⟩ :=
      Buffer.exists_rehead hvalid₁ (hwritten₁.trans hwritten)
      (show pre.length + (pbcVEncode32 (BitVec.ofNat 32 body.length)).length + body.length ≤
        b₁.cells.length by omega)
    have hend : b₃.ptr + (pbcVEncode32 (BitVec.ofNat 32 body.length)).length - head.length =
        pre.length + (pbcVEncode32 (BitVec.ofNat 32 body.length)).length + body.length := by omega
    refine ⟨⟨b₃.cells, b₃.ptr + (pbcVEncode32 (BitVec.ofNat 32 body.length)).length - head.length⟩,
      ?_, ⟨?_, ?_⟩, ?_⟩
    · simp only [h₁, h₂, h₃, Option.bind_eq_bind, Option.bind_some]
    · simp only
      omega
    · simp only
      have := hvalid₁.2
      omega
    · rw [Buffer.written]
      simp only [hend]
      exact hwritten₃

theorem packedBytes_of_none {t : PType} (h : varintBytes t = none) (hfixed : t.isFixed = false)
    (R : Reals) (v : LongLong) : packedBytes R t v = [0] := by
  cases t <;> first | exact absurd hfixed (by decide) | rfl | cases h

theorem flatMap_zero {vs : List LongLong} {encode : LongLong → Bytes} (h : ∀ v, encode v = [0]) :
    vs.flatMap encode = List.replicate vs.length 0 := by
  induction vs with
  | nil => rfl
  | cons v vs ih =>
    rw [List.flatMap_cons, h, ih]
    rfl

/-- The numbers, or as many zeros, come behind the length that is expected of them. -/
theorem exists_packBody (H : Heap UInt8) (R : Reals) (p : Packed) (hfixed : p.ptype.isFixed = false)
    (h : b.Valid) (hsize : b.written.length + (p.bytes R).length ≤ 2 ^ 28)
    (hroom : b.ptr + p.data.length ≤ b.cells.length) :
    ∃ b' error, packBody H p b = some (b', error) ∧ b'.Valid ∧
      b'.written = b.written ++ p.bytes R := by
  unfold packBody
  cases hencode : varintBytes p.ptype with
  | none =>
    have hbytes : p.bytes R = List.replicate p.data.length 0 :=
      flatMap_zero fun v => packedBytes_of_none hencode hfixed R v
    obtain ⟨b', hb', hvalid', hwritten', -⟩ := Buffer.exists_put h
      (show b.ptr + (List.replicate p.data.length (0 : UInt8)).length ≤
        b.cells.length by simpa using hroom)
    exact ⟨b', _, by simp only [hb', Option.map_some]; rfl, hvalid', by rw [hwritten', hbytes]⟩
  | some encode =>
    obtain ⟨b', hb', hvalid', hwritten'⟩ := exists_packNumbers H hencode R h hsize
    exact ⟨b', none, by simp only [hb', Option.map_some], hvalid', hwritten'⟩

/-- A length, and what has this length. -/
def lengthAnd (body : Bytes) : Bytes := pbcVEncode32 (BitVec.ofNat 32 body.length) ++ body

theorem exists_packPackedVarint (H : Heap UInt8) (R : Reals) (p : Packed)
    (hfixed : p.ptype.isFixed = false) (h : b.Valid)
    (hsize : b.written.length + 5 + (p.bytes R).length ≤ 2 ^ 28) :
    ∃ b' error, packPackedVarint H p b = some (b', error) ∧ b'.Valid ∧
      b'.written = b.written ++ lengthAnd (p.bytes R) := by
  have hn : p.data.length ≤ (p.bytes R).length :=
    length_le_length_flatMap (fun v => length_packedBytes_pos R p.ptype v) p.data
  have hlenle : p.data.length ≤ expectedLength p ∧ expectedLength p ≤ p.data.length * 2 := by
    unfold expectedLength
    split_ifs <;> omega
  have hhead := length_pbcVEncode32_le (BitVec.ofNat 32 (expectedLength p))
  have hlimit : 2 * (b.written.length + (10 + expectedLength p)) ≤ intLimit := by
    rw [intLimit_eq]
    omega
  have hptr := Buffer.length_written h
  obtain ⟨b₁, h₁, hvalid₁, hwritten₁, hptr₁, hroom₁⟩ := Buffer.exists_reserve H h hlimit
  obtain ⟨b₂, h₂, hvalid₂, hwritten₂, hcells₂⟩ := Buffer.exists_put hvalid₁
    (show b₁.ptr + (pbcVEncode32 (BitVec.ofNat 32 (expectedLength p))).length ≤
      b₁.cells.length by omega)
  have hptr₂ := Buffer.length_written hvalid₂
  rw [hwritten₁] at hwritten₂
  rw [hwritten₂, List.length_append] at hptr₂
  have hsize₂ : b₂.written.length + (p.bytes R).length ≤ 2 ^ 28 := by
    rw [hwritten₂, List.length_append]
    omega
  obtain ⟨b₃, error, h₃, hvalid₃, hwritten₃⟩ :=
    exists_packBody H R p hfixed hvalid₂ hsize₂ (by omega)
  have hptr₃ := Buffer.length_written hvalid₃
  rw [hwritten₂] at hwritten₃
  rw [hwritten₃, List.length_append, List.length_append] at hptr₃
  have hend : b₃.ptr - (b.ptr + (pbcVEncode32 (BitVec.ofNat 32 (expectedLength p))).length) =
      (p.bytes R).length := by omega
  unfold packPackedVarint
  simp only [h₁, h₂, h₃, hend, Option.bind_eq_bind, Option.bind_some]
  split_ifs with hlen
  · refine ⟨b₃, error, rfl, hvalid₃, ?_⟩
    rw [hwritten₃, lengthAnd, hlen, List.append_assoc]
  · obtain ⟨b₄, h₄, hvalid₄, hwritten₄⟩ := exists_rewriteLength H hvalid₃ hwritten₃ (by
      rw [hwritten₃, List.length_append, List.length_append]
      omega)
    rw [hptr] at h₄
    exact ⟨b₄, error, by rw [h₄, Option.map_some], hvalid₄,
      by rw [hwritten₄, lengthAnd, List.append_assoc]⟩

/-! ## Arrays of words -/

theorem flatten_map {α : Type} (encode : α → Bytes) (l : List α) :
    (l.map encode).flatten = l.flatMap encode := by
  rw [List.flatMap_def]

/-- Items are written where they belong if the stride is their size, or there is one of them at
most. -/
theorem overwriteEvery_items {size stride : ℕ} {encode : LongLong → Bytes}
    (hsize : ∀ v, (encode v).length = size) {vs : List LongLong}
    (hstride : stride = size ∨ vs.length ≤ 1) {i : ℕ}
    (hfit : i + (vs.flatMap encode).length ≤ b.cells.length) :
    b.overwriteEvery stride i (vs.map encode) =
      some { b with cells := store b.cells i (vs.flatMap encode) } := by
  rw [← flatten_map] at hfit ⊢
  obtain rfl | hle := hstride
  · refine Buffer.overwriteEvery_eq (fun item hitem => ?_) hfit
    obtain ⟨v, -, rfl⟩ := List.mem_map.1 hitem
    exact hsize v
  · match vs, hle with
    | [], _ => exact Buffer.overwriteEvery_eq (by simp) hfit
    | [v], _ =>
      rw [List.map_singleton, List.flatten_singleton] at hfit ⊢
      rw [Buffer.overwriteEvery_singleton, Buffer.overwrite_eq_some hfit]

theorem exists_packFixed (H : Heap UInt8) (p : Packed) {size stride : ℕ} {encode : LongLong → Bytes}
    (hencode : ∀ v, (encode v).length = size) (hstride : stride = size ∨ p.data.length ≤ 1)
    (h : b.Valid) (hsize : b.written.length + 5 + (p.data.flatMap encode).length ≤ 2 ^ 28) :
    ∃ b', packFixed H size stride encode p b = some b' ∧ b'.Valid ∧
      b'.written = b.written ++ lengthAnd (p.data.flatMap encode) := by
  have hlen : (p.data.flatMap encode).length = p.data.length * size := by
    rw [List.length_flatMap]
    simp [hencode]
  have hhead := length_pbcVEncode32_le (BitVec.ofNat 32 (p.data.length * size))
  have hlimit : 2 * (b.written.length + (10 + p.data.length * size)) ≤ intLimit := by
    rw [intLimit_eq]
    omega
  obtain ⟨b₁, h₁, hvalid₁, hwritten₁, hptr₁, hroom₁⟩ := Buffer.exists_reserve H h hlimit
  obtain ⟨b₂, h₂, hvalid₂, hwritten₂, hcells₂⟩ := Buffer.exists_put hvalid₁
    (show b₁.ptr + (pbcVEncode32 (BitVec.ofNat 32 (p.data.length * size))).length ≤
      b₁.cells.length by omega)
  have hptr := Buffer.length_written h
  have hptr₂ := Buffer.length_written hvalid₂
  rw [hwritten₂, hwritten₁, List.length_append] at hptr₂
  have hfit : b₂.ptr + (p.data.flatMap encode).length ≤ b₂.cells.length := by omega
  obtain ⟨b₃, h₃, hvalid₃, hwritten₃, -⟩ := Buffer.exists_put hvalid₂ hfit
  refine ⟨b₃, ?_, hvalid₃, ?_⟩
  · rw [Buffer.put_eq_some hfit, hlen] at h₃
    unfold packFixed
    simp only [h₁, h₂, overwriteEvery_items hencode hstride hfit, Option.bind_eq_bind,
      Option.bind_some]
    exact h₃
  · rw [hwritten₃, hwritten₂, hwritten₁, lengthAnd, hlen, List.append_assoc]

/-- An array that `_pack_packed_32` leaves room for: one number at most, if it takes 32 bits. -/
def FitsStride (p : Packed) : Prop :=
  p.ptype = .float ∨ p.ptype = .fixed32 ∨ p.ptype = .sfixed32 → p.data.length ≤ 1

instance (p : Packed) : Decidable (FitsStride p) := inferInstanceAs (Decidable (_ → _))

theorem length_int32Encode (x : BitVec 32) : (int32Encode x).length = 4 := rfl

theorem length_int64Encode (v : LongLong) : (int64Encode v).length = 8 := rfl

theorem packedBytes_word64 (R : Reals) {t : PType} (ht : t = .double ∨ t = .fixed64 ∨ t = .sfixed64)
    (v : LongLong) : packedBytes R t v = int64Encode v := by
  rw [int64Encode, int32Encode_eq, int32Encode_eq]
  obtain rfl | rfl | rfl := ht <;> rfl

theorem packedBytes_float (R : Reals) (v : LongLong) :
    packedBytes R .float v = int32Encode (R.toFloat v) := by
  rw [int32Encode_eq]
  rfl

theorem packedBytes_word32 (R : Reals) {t : PType} (ht : t = .fixed32 ∨ t = .sfixed32)
    (v : LongLong) :
    packedBytes R t v = int32Encode v.low := by
  rw [int32Encode_eq]
  obtain rfl | rfl := ht <;> rfl

theorem exists_packPacked64 (H : Heap UInt8) (R : Reals) (p : Packed)
    (ht : p.ptype = .double ∨ p.ptype = .fixed64 ∨ p.ptype = .sfixed64) (h : b.Valid)
    (hsize : b.written.length + 5 + (p.bytes R).length ≤ 2 ^ 28) :
    ∃ b', packPacked64 H p b = some b' ∧ b'.Valid ∧
      b'.written = b.written ++ lengthAnd (p.bytes R) := by
  have hbytes : p.bytes R = p.data.flatMap int64Encode :=
    congrArg p.data.flatMap (funext fun v => packedBytes_word64 R ht v)
  rw [hbytes] at hsize ⊢
  exact exists_packFixed H p length_int64Encode (.inl rfl) h hsize

/-- A number of 32 bits in an array. -/
def wordBytes (R : Reals) (t : PType) (v : LongLong) : Bytes :=
  int32Encode (if t = .float then R.toFloat v else v.low)

theorem packPacked32_eq (H : Heap UInt8) (R : Reals) (p : Packed) :
    packPacked32 H R p = packFixed H 4 8 (wordBytes R p.ptype) p := by
  unfold packPacked32 wordBytes
  split_ifs <;> rfl

theorem bytes_eq_flatMap_wordBytes (R : Reals) {p : Packed}
    (ht : p.ptype = .float ∨ p.ptype = .fixed32 ∨ p.ptype = .sfixed32) :
    p.bytes R = p.data.flatMap (wordBytes R p.ptype) := by
  refine congrArg p.data.flatMap (funext fun v => ?_)
  unfold wordBytes
  split_ifs with hfloat
  · rw [hfloat]
    exact packedBytes_float R v
  · exact packedBytes_word32 R (ht.resolve_left hfloat) v

theorem exists_packPacked32 (H : Heap UInt8) (R : Reals) (p : Packed)
    (ht : p.ptype = .float ∨ p.ptype = .fixed32 ∨ p.ptype = .sfixed32) (hfits : FitsStride p)
    (h : b.Valid) (hsize : b.written.length + 5 + (p.bytes R).length ≤ 2 ^ 28) :
    ∃ b', packPacked32 H R p b = some b' ∧ b'.Valid ∧
      b'.written = b.written ++ lengthAnd (p.bytes R) := by
  rw [bytes_eq_flatMap_wordBytes R ht] at hsize ⊢
  rw [packPacked32_eq]
  exact exists_packFixed H p (fun v => length_int32Encode _) (.inr (hfits ht)) h hsize

/-- Four bytes behind the first number nothing is written. -/
theorem getElem?_packFixed {encode : LongLong → Bytes} (hencode : ∀ v, (encode v).length = 4)
    {b' : Buffer UInt8} (h : packFixed H 4 8 encode p b = some b')
    (hroom : b.ptr + (10 + p.data.length * 4) ≤ b.cells.length) (hn : 2 ≤ p.data.length) :
    b'.written[b.ptr + (pbcVEncode32 (BitVec.ofNat 32 (p.data.length * 4))).length + 4]? =
      b.cells[b.ptr + (pbcVEncode32 (BitVec.ofNat 32 (p.data.length * 4))).length + 4]? := by
  have hhead := length_pbcVEncode32_le (BitVec.ofNat 32 (p.data.length * 4))
  unfold packFixed at h
  simp only [Buffer.reserve, if_neg (Nat.not_lt.2 hroom), Option.bind_eq_bind,
    Option.bind_some] at h
  rw [Buffer.put_eq_some (by omega), Option.bind_some] at h
  simp only at h
  generalize (pbcVEncode32 (BitVec.ofNat 32 (p.data.length * 4))) = head at hhead h ⊢
  obtain ⟨b₃, hb₃, h⟩ := Option.bind_eq_some_iff.1 h
  obtain rfl := Option.some.inj h
  have hitems (j : ℕ) (item : Bytes) (hitem : (p.data.map encode)[j]? = some item) :
      item.length = 4 := by
    obtain ⟨v, -, rfl⟩ := List.mem_map.1 (List.mem_of_getElem? hitem)
    exact hencode v
  obtain ⟨hcells, hptr⟩ := Buffer.getElem?_overwriteEvery hb₃ (k := b.ptr + head.length + 4) fun j
    item hitem => by
    rw [hitems j item hitem]
    omega
  simp only at hptr hcells
  rw [Buffer.written, List.getElem?_take, if_pos (by simp only [hptr]; omega), hcells,
    getElem?_store (by omega), if_neg (by omega), if_neg (by omega)]

/-- **Numbers of 32 bits.**  `_pack_packed_32` writes an array as it is read, in any memory, if
and only if there is one number at most: bytes that were never written stand in the place of the
second one. -/
theorem packPacked32_iff (R : Reals) (p : Packed)
    (ht : p.ptype = .float ∨ p.ptype = .fixed32 ∨ p.ptype = .sfixed32)
    (hsize : (p.bytes R).length ≤ 2 ^ 27) :
    (∀ (H : Heap UInt8) (b : Buffer UInt8), b.Valid → b.written.length ≤ 2 ^ 27 - 5 →
      ∃ b', packPacked32 H R p b = some b' ∧ b'.written = b.written ++ lengthAnd (p.bytes R)) ↔
      p.data.length ≤ 1 := by
  constructor
  · intro h
    by_contra hn
    have hbytes := bytes_eq_flatMap_wordBytes R ht
    have hlen : (p.bytes R).length = p.data.length * 4 := by
      rw [hbytes, List.length_flatMap]
      simp [wordBytes, length_int32Encode]
    -- a block without the byte that belongs there
    obtain ⟨x, hx⟩ : ∃ x, (p.bytes R)[4]? = some x := ⟨_, List.getElem?_eq_getElem (by omega)⟩
    let b : Buffer UInt8 := ⟨List.replicate (10 + p.data.length * 4) (x + 1), 0⟩
    have hcells : b.cells.length = 10 + p.data.length * 4 := List.length_replicate
    obtain ⟨b', hb', hwritten⟩ :=
      h (Heap.const 0) b ⟨Nat.zero_le _, by omega⟩ (by simp [b, Buffer.written])
    rw [packPacked32_eq] at hb'
    have hkept := getElem?_packFixed (fun v => length_int32Encode _) hb' (by rw [hcells]; simp [b])
      (by omega)
    have hhead := length_pbcVEncode32_le (BitVec.ofNat 32 (p.data.length * 4))
    have hnil : b.written = [] := List.take_zero
    have hptr : b.ptr = 0 := rfl
    have hold : b.cells[(pbcVEncode32 (BitVec.ofNat 32 (p.data.length * 4))).length + 4]? =
        some (x + 1) := by
      rw [List.getElem?_replicate, if_pos (by omega)]
    rw [hptr, Nat.zero_add, hold, hwritten, hnil, List.nil_append, lengthAnd, hlen,
      List.getElem?_append_right (by omega), Nat.add_sub_cancel_left, hx] at hkept
    have hne : x ≠ x + 1 := by
      intro heq
      have := congrArg UInt8.toNat heq
      rw [UInt8.toNat_add] at this
      have hlt := x.toNat_lt
      have hone : (1 : UInt8).toNat = 1 := rfl
      omega
    exact hne (Option.some.inj hkept)
  · intro hn H b hvalid hwritten
    obtain ⟨b', hb', -, hwritten'⟩ := exists_packPacked32 H R p ht (fun _ => hn) hvalid (by omega)
    exact ⟨b', hb', hwritten'⟩

/-- Two numbers are too many. -/
theorem packPacked32_iff_two : ¬ ∀ (H : Heap UInt8) (b : Buffer UInt8), b.Valid →
    b.written.length ≤ 2 ^ 27 - 5 →
    ∃ b', packPacked32 H Reals.zero ⟨1, .fixed32, [⟨1, 0⟩, ⟨2, 0⟩]⟩ b = some b' ∧
      b'.written = b.written ++ lengthAnd
        (Packed.bytes Reals.zero ⟨1, .fixed32, [⟨1, 0⟩, ⟨2, 0⟩]⟩) := by
  intro h
  have hle :=
    (packPacked32_iff Reals.zero ⟨1, .fixed32, [⟨1, 0⟩, ⟨2, 0⟩]⟩ (by decide) (by decide)).1 h
  exact absurd hle (by decide)

/-- **Packed arrays.**  What is added for an array is a field with the encodings of its numbers. -/
theorem exists_packPacked (H : Heap UInt8) (R : Reals) (p : Packed) (hid : 0 ≤ p.id ∧ p.id < 2 ^ 28)
    (hfits : FitsStride p) (h : b.Valid)
    (hsize : b.written.length + 10 + (p.bytes R).length ≤ 2 ^ 28) :
    ∃ b' error, packPacked H R p b = some (b', error) ∧ b'.Valid ∧
      b'.written = b.written ++ (⟨p.id.toNat, .lend (p.bytes R)⟩ : WireField).encode := by
  have htag := length_tag_le p.id 2
  have hlimit : 2 * (b.written.length + 10) ≤ intLimit := by
    rw [intLimit_eq]
    omega
  obtain ⟨b₁, h₁, hvalid₁, hwritten₁, hptr₁, hroom₁⟩ := Buffer.exists_reserve H h hlimit
  obtain ⟨b₂, h₂, hvalid₂, hwritten₂, -⟩ := Buffer.exists_put hvalid₁
    (show b₁.ptr + (pbcVEncode32 (tagWord p.id 2)).length ≤ b₁.cells.length by omega)
  rw [hwritten₁] at hwritten₂
  have hsize₂ : b₂.written.length + 5 + (p.bytes R).length ≤ 2 ^ 28 := by
    rw [hwritten₂, List.length_append]
    omega
  have hencode : (⟨p.id.toNat, .lend (p.bytes R)⟩ : WireField).encode =
      pbcVEncode32 (tagWord p.id 2) ++ lengthAnd (p.bytes R) := by
    have htag := pbcVEncode32_tagWord hid (show 2 < 8 by decide)
    rw [show (2 : BitVec 32) = BitVec.ofNat 32 2 from rfl, htag, lengthAnd, pbcVEncode32_eq,
      BitVec.toNat_ofNat, Nat.mod_eq_of_lt (by omega)]
    rfl
  have hdone {b₃ : Buffer UInt8} (hwritten₃ : b₃.written = b₂.written ++ lengthAnd (p.bytes R)) :
      b₃.written = b.written ++ (⟨p.id.toNat, .lend (p.bytes R)⟩ : WireField).encode := by
    rw [hwritten₃, hwritten₂, hencode, List.append_assoc]
  unfold packPacked
  simp only [h₁, h₂, Option.bind_eq_bind, Option.bind_some]
  cases ht : p.ptype with
  | double | fixed64 | sfixed64 =>
    obtain ⟨b₃, h₃, hvalid₃, hwritten₃⟩ := exists_packPacked64 H R p (by simp [ht]) hvalid₂ hsize₂
    exact ⟨b₃, none, by simp only [h₃, Option.map_some], hvalid₃, hdone hwritten₃⟩
  | float | fixed32 | sfixed32 =>
    obtain ⟨b₃, h₃, hvalid₃, hwritten₃⟩ :=
      exists_packPacked32 H R p (by simp [ht]) hfits hvalid₂ hsize₂
    exact ⟨b₃, none, by simp only [h₃, Option.map_some], hvalid₃, hdone hwritten₃⟩
  | _ =>
    obtain ⟨b₃, error, h₃, hvalid₃, hwritten₃⟩ :=
      exists_packPackedVarint H R p (by rw [ht]; rfl) hvalid₂ hsize₂
    exact ⟨b₃, error, h₃, hvalid₃, hdone hwritten₃⟩

end WMessage

end SockTestProgram
