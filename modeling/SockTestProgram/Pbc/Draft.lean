import SockTestProgram.Pbc.WMessage

/-!
# What is written

A message that is written, as the fields that come out (`Draft`).  The functions of `wmessage.c`
work on it without buffers; every run of calls on messages of moderate size does the same to the
buffers (`Writers.shows_of_run`).
-/

open Growing Memory Varint Word

namespace SockTestProgram

/-! ## Values on the wire -/

/-- What an integer of a type is on the wire. -/
def integerWire (t : PType) (v : LongLong) : Option WireValue :=
  match t with
  | .int64 | .uint64 | .int32 => some (.varint v.number)
  | .uint32 | .enum | .bool => some (.varint (v.low.setWidth 64))
  | .fixed64 | .sfixed64 => some (.bit64 v.low v.hi)
  | .fixed32 | .sfixed32 => some (.bit32 v.low)
  | .sint32 => some (.varint ((zigzag32 v.low).setWidth 64))
  | .sint64 => some (.varint (zigzag v.number))
  | _ => none

def realWire (R : Reals) (t : PType) (v : LongLong) : Option WireValue :=
  match t with
  | .float => some (.bit32 (R.toFloat v))
  | .double => some (.bit64 v.low v.hi)
  | _ => none

/-- A number of a packed array.  Only the lower words of an `int32` are written. -/
def packedWire (R : Reals) (t : PType) (v : LongLong) : Option WireValue :=
  match t with
  | .double => some (.bit64 v.low v.hi)
  | .float => some (.bit32 (R.toFloat v))
  | .int32 => some (.varint (v.low.setWidth 64))
  | _ => integerWire t v

/-- The bytes of an array.  For a value of another type a zero is written. -/
def Packed.bytes (R : Reals) (p : Packed) : Bytes :=
  p.data.flatMap fun v => ((packedWire R p.ptype v).map WireValue.encode).getD [0]

theorem pbcVEncode32_eq_setWidth (x : BitVec 32) :
    pbcVEncode32 x = encode (x.setWidth 64).toNat := by
  have hlt := x.isLt
  rw [pbcVEncode32_eq, BitVec.toNat_setWidth, Nat.mod_eq_of_lt (by omega)]

theorem toByte_and (x : BitVec 32) (k : ℕ) : toByte (x >>> (8 * k) &&& 0xff) = byte x k := by
  apply UInt8.eq_of_toBitVec_eq
  apply BitVec.eq_of_toNat_eq
  have hand : (x >>> (8 * k) &&& 0xff).toNat = (x >>> (8 * k)).toNat % 2 ^ 8 := by
    rw [BitVec.toNat_and]
    exact Nat.and_two_pow_sub_one_eq_mod _ 8
  show ((x >>> (8 * k) &&& 0xff).setWidth 8).toNat = (x.extractLsb' (8 * k) 8).toNat
  rw [BitVec.toNat_setWidth, hand, BitVec.extractLsb'_toNat, BitVec.toNat_ushiftRight, Nat.mod_mod]

theorem int32Encode_eq (low : BitVec 32) : int32Encode low = (bytesBE low).reverse := by
  have h0 := toByte_and low 0
  rw [Nat.mul_zero, BitVec.ushiftRight_zero] at h0
  rw [int32Encode, h0, toByte_and low 1, toByte_and low 2, toByte_and low 3]
  rfl

theorem integerBytes_eq (t : PType) (v : LongLong) :
    integerBytes t v = (integerWire t v).map fun w => (BitVec.ofNat 32 w.wiretype, w.encode) := by
  cases t <;> simp only [integerBytes, integerWire, Option.map_some, Option.map_none,
    WireValue.wiretype, WireValue.encode, pbcVEncode_eq, pbcVEncode32_eq_setWidth, int64Encode,
    int32Encode_eq, pbcVZigzag32, pbcVZigzag] <;> rfl

theorem realBytes_eq (R : Reals) (t : PType) (v : LongLong) :
    realBytes R t v = (realWire R t v).map fun w => (BitVec.ofNat 32 w.wiretype, w.encode) := by
  cases t <;> simp only [realBytes, realWire, Option.map_some, Option.map_none, WireValue.wiretype,
    WireValue.encode, int64Encode, int32Encode_eq] <;> rfl

/-- The numbers of fields that are read as they are written. -/
def Field.Numbered (f : Field) : Prop := 0 ≤ f.id ∧ f.id < 2 ^ 28

instance (f : Field) : Decidable f.Numbered := inferInstanceAs (Decidable (_ ∧ _))

/-- A value with its field, on the wire. -/
def wireField (f : Field) (w : WireValue) : WireField := ⟨f.id.toNat, w⟩

theorem pbcVEncode32_tagWord {id : ℤ} (hid : 0 ≤ id ∧ id < 2 ^ 28) {wiretype : ℕ}
    (hw : wiretype < 8) :
    pbcVEncode32 (tagWord id (BitVec.ofNat 32 wiretype)) = encode (8 * id.toNat + wiretype) := by
  obtain ⟨n, rfl⟩ := Int.eq_ofNat_of_zero_le hid.1
  have hn : n < 2 ^ 28 := by omega
  have htag : (tagWord n (BitVec.ofNat 32 wiretype)).toNat = 8 * n + wiretype := by
    have hshift : (BitVec.ofInt 32 n <<< 3).toNat = n <<< 3 := by
      rw [BitVec.ofInt_natCast, BitVec.toNat_shiftLeft, BitVec.toNat_ofNat, Nat.shiftLeft_eq,
        Nat.shiftLeft_eq]
      omega
    rw [tagWord, BitVec.toNat_or, hshift, BitVec.toNat_ofNat, Nat.mod_eq_of_lt (by omega),
      ← Nat.shiftLeft_add_eq_or_of_lt (by omega), Nat.shiftLeft_eq]
    omega
  rw [pbcVEncode32_eq, htag]
  rfl

theorem wiretype_lt (w : WireValue) : w.wiretype < 8 := by
  cases w <;> simp [WireValue.wiretype]

theorem encode_wireField {f : Field} (hf : f.Numbered) (w : WireValue) :
    (wireField f w).encode =
      pbcVEncode32 (tagWord f.id (BitVec.ofNat 32 w.wiretype)) ++ w.encode := by
  rw [pbcVEncode32_tagWord hf (wiretype_lt w)]
  rfl

/-- Values of the type are bytes behind their length. -/
def PType.isLend : PType → Bool
  | .string | .bytes | .message => true
  | _ => false

def WireValue.isLend : WireValue → Bool
  | .lend _ => true
  | _ => false

/-! ## Drafts -/

/-- A value is added to the array of a field. -/
def Packed.pushed (f : Field) (var : LongLong) : Option Packed → Packed
  | none => ⟨f.id, f.type, [var]⟩
  | some p => { p with data := p.data ++ [var] }

/-- A message as the values that are written, the arrays of packed fields, and the messages
inside. -/
structure Draft where
  type : PbcMessage
  fields : List (Field × WireValue)
  packed : String → Option Packed
  sub : List (ℕ × Field)

namespace Draft

variable (R : Reals) (types : PbcTypes)

def new (type : PbcMessage) : Draft := ⟨type, [], fun _ => none, []⟩

def push (d : Draft) (f : Field) (key : String) (v : LongLong) : Draft :=
  { d with packed := Function.update d.packed key (some (Packed.pushed f v (d.packed key))) }

def add (d : Draft) (f : Field) (w : Option WireValue) : Draft :=
  { d with fields := d.fields ++ (w.map (f, ·)).toList }

def integer (d : Draft) (key : String) (v : LongLong) : Draft :=
  match d.type.named key with
  | none => d
  | some f =>
    if f.label = .packed then d.push f key v
    else if f.label = .optional ∧ WMessage.integerIsDefault R types f v then d
    else d.add f (integerWire f.type v)

def real (d : Draft) (key : String) (v : LongLong) : Draft :=
  match d.type.named key with
  | none => d
  | some f =>
    if f.label = .packed then d.push f key v
    else if f.label = .optional ∧ WMessage.realIsDefault R types f v then d
    else d.add f (realWire R f.type v)

/-- What a string is on the wire; that of an enumeration is the name of an enumerator. -/
def stringWire (f : Field) (v : Bytes) : Option WireValue :=
  match f.type with
  | .enum => (WMessage.enumId types f v).map fun id => .varint (id.setWidth 64)
  | .string | .bytes => some (.lend v)
  | _ => none

/-- A string; `none` where the comparison with the default has no result. -/
def string (d : Draft) (key : String) (v : Bytes) : Option Draft :=
  match d.type.named key with
  | none => some d
  | some f =>
    if f.label = .packed then
      if f.type = .enum then
        match WMessage.enumId types f v with
        | none => some d
        | some id => some (d.push f key ⟨id, 0⟩)
      else some d
    else
      (if f.label = .optional then WMessage.stringIsDefault R types f v else some false).map
        fun isDefault =>
        if isDefault then d else d.add f (stringWire types f v)

end Draft

/-- The drafts of all messages of a writer. -/
abbrev Drafts : Type := List Draft

namespace Drafts

variable (R : Reals) (types : PbcTypes)

def update (ds : Drafts) (i : ℕ) (f : Draft → Option Draft) : Option Drafts :=
  ds[i]?.bind fun d => (f d).map fun d => ds.set i d

def message (ds : Drafts) (i : ℕ) (key : String) : Option Drafts :=
  ds[i]?.bind fun d =>
    match d.type.named key with
    | none => some ds
    | some f =>
      if f.type = .message then
        (types.msgs f.typeName).map fun msg =>
          ds.set i { d with sub := d.sub ++ [(ds.length, f)] } ++ [Draft.new msg]
      else none

def step (ds : Drafts) : WriteCall → Option Drafts
  | .integer i key v => ds.update i fun d => some (d.integer R types key v)
  | .real i key v => ds.update i fun d => some (d.real R types key v)
  | .string i key v => ds.update i fun d => d.string R types key v
  | .message i key => ds.message types i key

end Drafts

/-! ## Values in the buffer -/

variable {H : Heap UInt8} {R : Reals} {types : PbcTypes} {b : Buffer UInt8} {f : Field}
  {key : String}
  {m : WMessage} {d : Draft}

/-- A field with its value, or nothing. -/
def fieldBytes (f : Field) (w : Option WireValue) : Bytes :=
  (w.map fun w => (wireField f w).encode).getD []

/-- The bytes that come of the values. -/
def Draft.bytes (d : Draft) : Bytes := encodeFields (d.fields.map fun v => wireField v.1 v.2)

theorem Draft.bytes_add (d : Draft) (f : Field) (w : Option WireValue) :
    (d.add f w).bytes = d.bytes ++ fieldBytes f w := by
  unfold bytes add encodeFields fieldBytes
  cases w <;> simp

theorem length_tag_le (id : ℤ) (wiretype : BitVec 32) :
    (pbcVEncode32 (tagWord id wiretype)).length ≤ 5 := length_pbcVEncode32_le _

theorem length_encode_integerWire {t : PType} {v : LongLong} {w : WireValue}
    (h : integerWire t v = some w) : w.encode.length ≤ 10 := by
  have hvarint (n : BitVec 64) : (WireValue.varint n).encode.length ≤ 10 := length_encode_le (by
    have := n.isLt
    omega)
  have hbit64 (low hi : BitVec 32) : (WireValue.bit64 low hi).encode.length ≤ 10 := by
    simp [WireValue.encode]
  have hbit32 (low : BitVec 32) : (WireValue.bit32 low).encode.length ≤ 10 := by
    simp [WireValue.encode]
  cases t <;> cases h <;> first | exact hvarint _ | exact hbit64 _ _ | exact hbit32 _

theorem length_encode_realWire {t : PType} {v : LongLong} {w : WireValue}
    (h : realWire R t v = some w) : w.encode.length ≤ 8 := by
  cases t <;> cases h <;> simp [WireValue.encode]

/-- A value is written with its tag. -/
theorem exists_putField (H : Heap UInt8) (hf : f.Numbered) {w : Option WireValue} {room : ℕ}
    (hw : ∀ v, w = some v → 5 + v.encode.length ≤ room) (h : b.Valid)
    (hlimit : 2 * (b.written.length + room) ≤ intLimit) :
    ∃ b' : Buffer UInt8,
      WMessage.putField H f room
        (w.map fun w => (BitVec.ofNat 32 w.wiretype, w.encode)) b = some b' ∧
        b'.Valid ∧ b'.written = b.written ++ fieldBytes f w := by
  cases w with
  | none =>
    obtain ⟨b', hb', hvalid, hwritten, -⟩ := Buffer.exists_reserve H h hlimit
    exact ⟨b', by simp [WMessage.putField, hb'], hvalid, by simp [hwritten, fieldBytes]⟩
  | some v =>
    have hlen : (wireField f v).encode.length ≤ room := by
      have := length_tag_le f.id (BitVec.ofNat 32 v.wiretype)
      have := hw v rfl
      rw [encode_wireField hf, List.length_append]
      omega
    obtain ⟨b', hb', hvalid, hwritten⟩ := Buffer.exists_reserve_put H h hlen hlimit
    refine ⟨b', ?_, hvalid, hwritten⟩
    rw [encode_wireField hf] at hb'
    simp only [← Buffer.put_put] at hb'
    exact hb'

theorem intLimit_eq : intLimit = 2 ^ 31 := rfl

/-- A string with its tag and its length. -/
theorem encode_lend (hf : f.Numbered) {v : Bytes} (hv : v.length < 2 ^ 28) :
    (wireField f (.lend v)).encode =
      pbcVEncode32 (tagWord f.id 2) ++ pbcVEncode32 (BitVec.ofNat 32 v.length) ++ v := by
  rw [encode_wireField hf, List.append_assoc, pbcVEncode32_eq (BitVec.ofNat 32 v.length),
    BitVec.toNat_ofNat, Nat.mod_eq_of_lt (by omega)]
  rfl

theorem length_le_encode_lend (f : Field) (v : Bytes) :
    v.length ≤ (wireField f (.lend v)).encode.length := by
  simp only [WireField.encode, wireField, WireValue.encode, List.length_append]
  omega

/-- Room for a string is made in two steps. -/
theorem exists_putLend (H : Heap UInt8) (hf : f.Numbered) {v : Bytes} (hvalid : b.Valid)
    (hroom : b.ptr + 20 ≤ b.cells.length)
    (hmoderate : b.written.length + (wireField f (.lend v)).encode.length < 2 ^ 28) :
    ∃ out₁ out₂ out₃ out₄ : Buffer UInt8,
      b.put (pbcVEncode32 (tagWord f.id 2)) = some out₁ ∧
      out₁.put (pbcVEncode32 (BitVec.ofNat 32 v.length)) = some out₂ ∧
      out₂.reserve H intLimit v.length = some out₃ ∧ out₃.put v = some out₄ ∧ out₄.Valid ∧
      out₄.written = b.written ++ (wireField f (.lend v)).encode := by
  have hv := length_le_encode_lend f v
  have htag := length_tag_le f.id 2
  have hlen := length_pbcVEncode32_le (BitVec.ofNat 32 v.length)
  have hptr := Buffer.length_written hvalid
  rw [encode_lend hf (by omega), List.length_append, List.length_append] at hmoderate
  obtain ⟨out₁, h₁, hvalid₁, hwritten₁, hcells₁⟩ := Buffer.exists_put hvalid
    (show b.ptr + (pbcVEncode32 (tagWord f.id 2)).length ≤ b.cells.length by omega)
  have hptr₁ := Buffer.length_written hvalid₁
  rw [hwritten₁, List.length_append] at hptr₁
  obtain ⟨out₂, h₂, hvalid₂, hwritten₂, -⟩ := Buffer.exists_put hvalid₁
    (show out₁.ptr + (pbcVEncode32 (BitVec.ofNat 32 v.length)).length ≤ out₁.cells.length by omega)
  have hlimit : 2 * (out₂.written.length + v.length) ≤ intLimit := by
    rw [hwritten₂, hwritten₁, List.length_append, List.length_append, intLimit_eq]
    omega
  obtain ⟨out₃, h₃, hvalid₃, hwritten₃, hptr₃, hroom₃⟩ := Buffer.exists_reserve H hvalid₂ hlimit
  obtain ⟨out₄, h₄, hvalid₄, hwritten₄, -⟩ := Buffer.exists_put hvalid₃
    (show out₃.ptr + v.length ≤ out₃.cells.length by omega)
  refine ⟨out₁, out₂, out₃, out₄, h₁, h₂, h₃, h₄, hvalid₄, ?_⟩
  rw [hwritten₄, hwritten₃, hwritten₂, hwritten₁, encode_lend hf (by omega)]
  simp only [List.append_assoc]

/-- From here on `int` overflows where an array grows. -/
def arrayLimit : ℕ := 2 ^ 26

/-- Up to this size of messages and of arrays `int` does not overflow. -/
def Draft.Moderate (d : Draft) : Prop :=
  d.bytes.length < 2 ^ 27 ∧ ∀ key p, d.packed key = some p → p.data.length < arrayLimit

/-! ## A message shows its draft -/

/-- The array holds the values. -/
structure PackedArray.Shows (a : PackedArray) (p : Packed) : Prop where
  id : a.id = p.id
  ptype : a.ptype = p.ptype
  data : a.data.Holds varLayout p.data

namespace PackedArray

/-- A value goes behind the others. -/
theorem exists_pushed (f : Field) (v : LongLong) {a : Option PackedArray} {p : Option Packed}
    (h : Option.Rel Shows a p) (hlimit : (Packed.pushed f v p).data.length < arrayLimit) :
    ∃ a', pushed f v a = some a' ∧ a'.Shows (Packed.pushed f v p) := by
  have hpush {data : PbcArray LongLong} {items : List LongLong} (hdata : data.Holds varLayout items)
      (hlen : items.length + 1 < arrayLimit) :
      ∃ data', data.push varLayout v = some data' ∧ data'.Holds varLayout (items ++ [v]) := by
    have hsize : varLayout.varSize * (2 * (items.length + 1)) + 3 < 2 ^ 31 := by
      unfold arrayLimit at hlen
      show 16 * (2 * (items.length + 1)) + 3 < 2 ^ 31
      omega
    exact hdata.push v hsize
  unfold pushed
  cases h with
  | none =>
    obtain ⟨data, hdata, hholds⟩ := hpush (PbcArray.holds_start true) hlimit
    exact ⟨⟨f.id, f.type, data⟩, by simp only [Option.getD_none, hdata, Option.map_some], rfl,
      rfl, hholds⟩
  | @some a p hshows =>
    have hlen : p.data.length + 1 < arrayLimit := by
      simpa only [Packed.pushed, List.length_append, List.length_singleton] using hlimit
    obtain ⟨data, hdata, hholds⟩ := hpush hshows.data hlen
    exact ⟨{ a with data }, by simp only [Option.getD_some, hdata, Option.map_some], hshows.id,
      hshows.ptype, hholds⟩

theorem Shows.read_eq {a : PackedArray} {p : Packed} (h : a.Shows p) : a.read = p := by
  unfold read
  rw [h.id, h.ptype, h.data.toList_eq]

end PackedArray

/-- A message is where its draft is. -/
structure WMessage.Shows (m : WMessage) (d : Draft) : Prop where
  type : m.type = d.type
  numbered : ∀ f ∈ d.type.fields, f.Numbered
  valid : m.out.Valid
  written : m.out.written = d.bytes
  sub : m.sub = d.sub
  packed : ∃ arrays, (m.packed.getD (MapSp.new 4)).Holds stringHash arrays ∧
    ∀ key, Option.Rel PackedArray.Shows (arrays key) (d.packed key)

namespace WMessage.Shows

theorem numbered_of_named (h : m.Shows d) (hf : m.type.named key = some f) : f.Numbered := by
  rw [h.type] at hf
  exact h.numbered f (List.mem_of_find?_eq_some hf)

/-- Only the buffer changes, by the bytes of a value. -/
theorem add (h : m.Shows d) {out : Buffer UInt8} (hvalid : out.Valid) {w : Option WireValue}
    (hwritten : out.written = m.out.written ++ fieldBytes f w) : { m with out }.Shows (d.add f w) :=
  ⟨h.type, h.numbered, hvalid, by rw [hwritten, h.written, Draft.bytes_add], h.sub, h.packed⟩

/-- A function that writes does to a message what it does to the draft. -/
def Does (x : Written) (d : Draft) : Prop := ∃ m error, x = some (m, error) ∧ m.Shows d

theorem push (h : m.Shows d) (f : Field) (key : String) (v : LongLong)
    (hmoderate : (d.push f key v).Moderate) :
    Does (m.pushPacked f key v) (d.push f key v) := by
  obtain ⟨arrays, hholds, hrel⟩ := h.packed
  have hlimit := hmoderate.2 key _ (Function.update_self ..)
  obtain ⟨a, ha, hshows⟩ := PackedArray.exists_pushed f v (hrel key) hlimit
  obtain ⟨packed, hpacked, hholds', -⟩ := hholds.queryInsert ha
  refine ⟨{ m with packed := some packed }, none, ?_, h.type, h.numbered, h.valid, h.written, h.sub,
    _, hholds', ?_⟩
  · rw [pushPacked, hpacked, Option.map_some]
  · intro key'
    show Option.Rel _ (Function.update arrays key (some a) key')
      (Function.update d.packed key (some (Packed.pushed f v (d.packed key))) key')
    by_cases hkey : key' = key
    · subst hkey
      rw [Function.update_self, Function.update_self]
      exact .some hshows
    · rw [Function.update_of_ne hkey, Function.update_of_ne hkey]
      exact hrel key'

theorem limit (h : m.Shows d) (hmoderate : d.Moderate) {room : ℕ} (hroom : room ≤ 20) :
    2 * (m.out.written.length + room) ≤ intLimit := by
  have := hmoderate.1
  rw [h.written, intLimit_eq]
  omega

theorem exists_put (h : m.Shows d) (hmoderate : d.Moderate) (hf : f.Numbered) {w : Option WireValue}
    {room : ℕ} (hroom : room ≤ 20) (hw : ∀ v, w = some v → 5 + v.encode.length ≤ room) :
    Does ((putField H f room (w.map fun w => (BitVec.ofNat 32 w.wiretype, w.encode)) m.out).map
      fun out => ({ m with out }, none)) (d.add f w) := by
  obtain ⟨out, hout, hvalid, hwritten⟩ := exists_putField H hf hw h.valid (h.limit hmoderate hroom)
  exact ⟨_, _, by rw [hout, Option.map_some], h.add hvalid hwritten⟩

theorem integer (h : m.Shows d) (hmoderate : d.Moderate) {key : String} (hkey : stringHash key ≠ 0)
    (v : LongLong) (hmoderate' : (d.integer R types key v).Moderate) :
    Does (m.integer H R types key v) (d.integer R types key v) := by
  unfold WMessage.integer
  unfold Draft.integer at hmoderate' ⊢
  rw [m.type.query_eq hkey, Option.bind_some]
  rw [← h.type] at hmoderate' ⊢
  cases hf : m.type.named key with
  | none => exact ⟨m, _, rfl, h⟩
  | some f =>
    simp only [hf] at hmoderate' ⊢
    split_ifs at hmoderate' ⊢ with hpacked hdefault
    · exact h.push f key v hmoderate'
    · exact ⟨m, _, rfl, h⟩
    · rw [integerBytes_eq]
      refine h.exists_put hmoderate (h.numbered_of_named hf) le_rfl fun w hw => ?_
      have := length_encode_integerWire hw
      omega

theorem real (h : m.Shows d) (hmoderate : d.Moderate) {key : String} (hkey : stringHash key ≠ 0)
    (v : LongLong) (hmoderate' : (d.real R types key v).Moderate) :
    Does (m.real H R types key v) (d.real R types key v) := by
  unfold WMessage.real
  unfold Draft.real at hmoderate' ⊢
  rw [m.type.query_eq hkey, Option.bind_some]
  rw [← h.type] at hmoderate' ⊢
  cases hf : m.type.named key with
  | none => exact ⟨m, _, rfl, h⟩
  | some f =>
    simp only [hf] at hmoderate' ⊢
    split_ifs at hmoderate' ⊢ with hpacked hdefault
    · exact h.push f key v hmoderate'
    · exact ⟨m, _, rfl, h⟩
    · have hroom : 18 ≤ 20 := by decide
      rw [realBytes_eq]
      refine h.exists_put hmoderate (h.numbered_of_named hf) hroom fun w hw => ?_
      have := length_encode_realWire hw
      omega

theorem putString (h : m.Shows d) (hf : f.Numbered) {v : Bytes}
    (hmoderate : Draft.Moderate (d.add f (Draft.stringWire types f v))) :
    Does (m.putString H types f v) (d.add f (Draft.stringWire types f v)) := by
  obtain ⟨hbytes, hpacked⟩ := hmoderate
  rw [Draft.bytes_add, List.length_append] at hbytes
  have hd : d.Moderate := ⟨by omega, hpacked⟩
  obtain ⟨out, hout, hvalid, hwritten, hptr, hroom⟩ :=
    Buffer.exists_reserve H h.valid (h.limit hd le_rfl)
  have hlend (ht : Draft.stringWire types f v = some (.lend v)) :
      ∃ out₁ out₂ out₃ out₄ : Buffer UInt8, out.put (pbcVEncode32 (tagWord f.id 2)) = some out₁ ∧
        out₁.put (pbcVEncode32 (BitVec.ofNat 32 v.length)) = some out₂ ∧
        out₂.reserve H intLimit v.length = some out₃ ∧ out₃.put v = some out₄ ∧
        { m with out := out₄ }.Shows (d.add f (Draft.stringWire types f v)) := by
    have hsize : out.written.length + (wireField f (.lend v)).encode.length < 2 ^ 28 := by
      rw [ht] at hbytes
      rw [hwritten, h.written]
      exact lt_trans hbytes (by decide)
    obtain ⟨out₁, out₂, out₃, out₄, h₁, h₂, h₃, h₄, hvalid₄, hwritten₄⟩ :=
      exists_putLend H hf hvalid (by omega) hsize
    refine ⟨out₁, out₂, out₃, out₄, h₁, h₂, h₃, h₄, h.add hvalid₄ ?_⟩
    rw [hwritten₄, hwritten, ht]
    rfl
  have hnothing : { m with out }.Shows (d.add f none) :=
    h.add hvalid (by rw [hwritten]; exact (List.append_nil _).symm)
  unfold WMessage.putString
  simp only [hout, Option.bind_eq_bind, Option.bind_some]
  unfold Draft.stringWire at hlend ⊢
  cases htype : f.type with
  | string | bytes =>
    simp only [htype, forall_const] at hlend ⊢
    obtain ⟨out₁, out₂, out₃, out₄, h₁, h₂, h₃, h₄, hshows⟩ := hlend
    exact ⟨_, none, by simp only [h₁, h₂, h₃, h₄, Option.bind_some], hshows⟩
  | enum =>
    simp only
    cases hid : enumId types f v with
    | none => exact ⟨_, _, rfl, hnothing⟩
    | some id =>
      have hbytes : (wireField f (.varint (id.setWidth 64))).encode =
          pbcVEncode32 (tagWord f.id 0) ++ pbcVEncode32 id := by
        rw [encode_wireField hf, pbcVEncode32_eq_setWidth id]
        rfl
      have htag := length_tag_le f.id 0
      have hnumber := length_pbcVEncode32_le id
      have hfit : out.ptr + (wireField f (.varint (id.setWidth 64))).encode.length ≤
          out.cells.length := by
        rw [hbytes, List.length_append]
        omega
      obtain ⟨out', hout', hvalid', hwritten', -⟩ := Buffer.exists_put hvalid hfit
      rw [hbytes, ← Buffer.put_put] at hout'
      obtain ⟨out₁, h₁, h₂⟩ := Option.bind_eq_some_iff.1 hout'
      refine ⟨_, none, by simp only [h₁, h₂, Option.bind_some], h.add hvalid' ?_⟩
      rw [hwritten', hwritten]
      rfl
  | _ => exact ⟨_, _, rfl, hnothing⟩

theorem string (h : m.Shows d) {key : String} (hkey : stringHash key ≠ 0) {v : Bytes} {d' : Draft}
    (hd' : d.string R types key v = some d') (hmoderate : d'.Moderate) :
    Does (m.string H R types key v) d' := by
  unfold Draft.string at hd'
  unfold WMessage.string
  rw [m.type.query_eq hkey, Option.bind_some]
  rw [← h.type] at hd'
  cases hf : m.type.named key with
  | none =>
    rw [hf] at hd'
    cases hd'
    exact ⟨m, _, rfl, h⟩
  | some f =>
    simp only [hf] at hd' ⊢
    by_cases hpacked : f.label = .packed
    · rw [if_pos hpacked] at hd' ⊢
      by_cases henum : f.type = .enum
      · rw [if_pos henum] at hd' ⊢
        cases hid : enumId types f v with
        | none =>
          rw [hid] at hd'
          cases hd'
          exact ⟨m, _, rfl, h⟩
        | some id =>
          rw [hid] at hd'
          cases hd'
          exact h.push f key ⟨id, 0⟩ hmoderate
      · rw [if_neg henum] at hd' ⊢
        cases hd'
        exact ⟨m, _, rfl, h⟩
    · rw [if_neg hpacked] at hd' ⊢
      obtain ⟨isDefault, hdefault, hd'⟩ := Option.map_eq_some_iff.1 hd'
      rw [hdefault, Option.bind_some]
      cases isDefault with
      | true =>
        cases hd'
        exact ⟨m, _, rfl, h⟩
      | false =>
        cases hd'
        exact h.putString (h.numbered_of_named hf) hmoderate

end WMessage.Shows

/-! ## All messages show their drafts -/

/-- What a call can do to a message: nothing, to add a number to an array, or to add a value of
the type of its field. -/
inductive Draft.Writes : Draft → Draft → Prop
  | nothing (d : Draft) : Writes d d
  | push {d : Draft} {f : Field} {key : String} (hf : d.type.named key = some f)
      (hpacked : f.label = .packed)
      (v : LongLong) : Writes d (d.push f key v)
  | add {d : Draft} {f : Field} {key : String} {w : Option WireValue}
      (hf : d.type.named key = some f)
      (hpacked : f.label ≠ .packed) (hw : ∀ v, w = some v → v.isLend = f.type.isLend) :
        Writes d (d.add f w)

namespace Draft

theorem writes_integer (d : Draft) (key : String) (v : LongLong) :
    d.Writes (d.integer R types key v) := by
  unfold integer
  split
  · exact .nothing d
  next f hf =>
    split_ifs with hpacked
    · exact .push hf hpacked v
    · exact .nothing d
    · refine .add hf hpacked fun w hw => ?_
      cases ht : f.type <;> rw [ht] at hw <;> cases hw <;> rfl

theorem writes_real (d : Draft) (key : String) (v : LongLong) :
    d.Writes (d.real R types key v) := by
  unfold real
  split
  · exact .nothing d
  next f hf =>
    split_ifs with hpacked
    · exact .push hf hpacked v
    · exact .nothing d
    · refine .add hf hpacked fun w hw => ?_
      cases ht : f.type <;> rw [ht] at hw <;> cases hw <;> rfl

theorem isLend_stringWire {v : Bytes} {w : WireValue} (h : stringWire types f v = some w) :
    w.isLend = f.type.isLend := by
  unfold stringWire at h
  split at h
  next henum =>
    obtain ⟨id, -, rfl⟩ := Option.map_eq_some_iff.1 h
    rw [henum]
    rfl
  next hstring =>
    cases h
    rw [hstring]
    rfl
  next hbytes =>
    cases h
    rw [hbytes]
    rfl
  · cases h

theorem writes_string {d d' : Draft} {key : String} {v : Bytes}
    (h : d.string R types key v = some d') :
    d.Writes d' := by
  unfold string at h
  split at h
  · cases h
    exact .nothing d
  next f hf =>
    split_ifs at h with hpacked henum
    · split at h <;> cases h
      · exact .nothing d
      · exact .push hf hpacked _
    · cases h
      exact .nothing d
    all_goals
      obtain ⟨isDefault, -, rfl⟩ := Option.map_eq_some_iff.1 h
      cases isDefault with
      | true => exact .nothing d
      | false => exact .add hf hpacked fun w hw => isLend_stringWire hw

theorem Writes.type_eq {d d' : Draft} (h : d.Writes d') : d'.type = d.type := by
  cases h <;> rfl

theorem Writes.sub_eq {d d' : Draft} (h : d.Writes d') : d'.sub = d.sub := by
  cases h <;> rfl

/-- The bytes only grow. -/
theorem Writes.bytes_eq {d d' : Draft} (h : d.Writes d') : ∃ s, d'.bytes = d.bytes ++ s := by
  cases h with
  | nothing => exact ⟨[], (List.append_nil _).symm⟩
  | push => exact ⟨[], (List.append_nil _).symm⟩
  | add => exact ⟨_, bytes_add ..⟩

/-- The bytes and the arrays only grow. -/
theorem Writes.moderate {d d' : Draft} (h : d.Writes d') (hmoderate : d'.Moderate) :
    d.Moderate := by
  obtain ⟨s, hs⟩ := h.bytes_eq
  obtain ⟨hbytes, hpacked⟩ := hmoderate
  rw [hs, List.length_append] at hbytes
  refine ⟨by omega, ?_⟩
  cases h with
  | nothing => exact hpacked
  | add => exact hpacked
  | @push f key hf hlabel v =>
    intro key' p hp
    have hupdate (q : Packed) :
        Function.update d.packed key (some (Packed.pushed f v (d.packed key))) key' = some q →
        q.data.length < arrayLimit := hpacked key' q
    by_cases hkey : key' = key
    · subst hkey
      have hlen := hupdate _ (Function.update_self ..)
      rw [hp, Packed.pushed, List.length_append] at hlen
      exact lt_of_le_of_lt (Nat.le_add_right _ _) hlen
    · exact hupdate p ((Function.update_of_ne hkey ..).trans hp)

end Draft

namespace Drafts

variable {ds ds' : Drafts}

/-- What a call does: something is written to a message, or a message inside it is made. -/
theorem step_cases {c : WriteCall} (h : ds.step R types c = some ds') :
    (∃ (i : ℕ) (d d' : Draft), ds[i]? = some d ∧ d.Writes d' ∧ ds' = ds.set i d') ∨
      ∃ (i : ℕ) (d : Draft) (key : String) (f : Field) (msg : PbcMessage), ds[i]? = some d ∧
        d.type.named key = some f ∧ f.type = .message ∧ types.msgs f.typeName = some msg ∧
        ds' = ds.set i { d with sub := d.sub ++ [(ds.length, f)] } ++ [Draft.new msg] := by
  have hupdate {i : ℕ} {f : Draft → Option Draft} (hf : ∀ d d', f d = some d' → d.Writes d')
      (h : ds.update i f = some ds') :
      ∃ (i : ℕ) (d d' : Draft), ds[i]? = some d ∧ d.Writes d' ∧ ds' = ds.set i d' := by
    obtain ⟨d, hd, h⟩ := Option.bind_eq_some_iff.1 h
    obtain ⟨d', hd', rfl⟩ := Option.map_eq_some_iff.1 h
    exact ⟨i, d, d', hd, hf d d' hd', rfl⟩
  cases c with
  | integer i key v =>
    exact .inl (hupdate (fun d d' hd' => Option.some.inj hd' ▸ d.writes_integer key v) h)
  | real i key v =>
    exact .inl (hupdate (fun d d' hd' => Option.some.inj hd' ▸ d.writes_real key v) h)
  | string i key v => exact .inl (hupdate (fun d d' hd' => Draft.writes_string hd') h)
  | message i key =>
    obtain ⟨d, hd, h⟩ := Option.bind_eq_some_iff.1 h
    cases hf : d.type.named key with
    | none =>
      rw [hf] at h
      cases h
      obtain ⟨hi, rfl⟩ := List.getElem?_eq_some_iff.1 hd
      exact .inl ⟨i, ds[i], ds[i], hd, .nothing _, (List.set_getElem_self hi).symm⟩
    | some f =>
      simp only [hf] at h
      split_ifs at h with hmessage
      obtain ⟨msg, hmsg, rfl⟩ := Option.map_eq_some_iff.1 h
      exact .inr ⟨i, d, key, f, msg, hd, hf, hmessage, hmsg, rfl⟩

/-- All messages are of moderate size. -/
def Moderate (ds : Drafts) : Prop := ∀ d ∈ ds, Draft.Moderate d

theorem moderate_of_step {c : WriteCall} (h : ds.step R types c = some ds')
    (hmoderate : ds'.Moderate) :
    ds.Moderate := by
  have hset {i : ℕ} {d d' : Draft} (hd : ds[i]? = some d) (hgrows : d'.Moderate → d.Moderate)
      (hset : ∀ e ∈ ds.set i d', Draft.Moderate e) : ds.Moderate := by
    obtain ⟨hi, rfl⟩ := List.getElem?_eq_some_iff.1 hd
    intro e he
    obtain ⟨k, hk, rfl⟩ := List.getElem_of_mem he
    by_cases hki : k = i
    · subst hki
      exact hgrows (hset d' (List.mem_set hi d'))
    · refine hset _ (List.mem_iff_getElem?.2 ⟨k, ?_⟩)
      rw [List.getElem?_set_ne (Ne.symm hki), List.getElem?_eq_getElem hk]
  obtain ⟨i, d, d', hd, hwrites, rfl⟩ | ⟨i, d, key, f, msg, hd, -, -, -, rfl⟩ := step_cases h
  · exact hset hd hwrites.moderate hmoderate
  · have hsame : Draft.Moderate { d with sub := d.sub ++ [(ds.length, f)] } → d.Moderate := id
    exact hset hd hsame fun e he => hmoderate e (List.mem_append_left _ he)

end Drafts

/-- All field numbers of registered messages are read as they are written. -/
def PbcTypes.Numbered (types : PbcTypes) : Prop :=
  ∀ name msg, types.msgs name = some msg → ∀ f ∈ msg.fields, f.Numbered

namespace Writers

/-- Every message is where its draft is. -/
def Shows (ws : Writers) (ds : Drafts) : Prop :=
  ∀ i : ℕ, Option.Rel WMessage.Shows ws.msgs[i]? ds[i]?

variable {ws : Writers} {ds ds' : Drafts}

theorem Shows.length_eq (h : ws.Shows ds) : ws.msgs.length = ds.length := by
  apply Nat.le_antisymm
  · by_contra hlt
    have hnone := h ds.length
    rw [List.getElem?_eq_none le_rfl, List.getElem?_eq_getElem (by omega)] at hnone
    cases hnone
  · by_contra hlt
    have hnone := h ws.msgs.length
    rw [List.getElem?_eq_none le_rfl, List.getElem?_eq_getElem (by omega)] at hnone
    cases hnone

theorem Shows.exists_message (h : ws.Shows ds) {i : ℕ} {d : Draft} (hd : ds[i]? = some d) :
    ∃ m, ws.msgs[i]? = some m ∧ m.Shows d := by
  have hi := h i
  rw [hd] at hi
  cases hm : ws.msgs[i]? with
  | none =>
    rw [hm] at hi
    cases hi
  | some m =>
    rw [hm] at hi
    cases hi with
    | some hshows => exact ⟨m, rfl, hshows⟩

theorem Shows.set (h : ws.Shows ds) {i : ℕ} {m : WMessage} {d : Draft} (hshows : m.Shows d)
    (error : String) :
    Shows ⟨ws.msgs.set i m, error⟩ (List.set ds i d) := by
  intro k
  have hlen := h.length_eq
  by_cases hki : i = k
  · subst hki
    by_cases hi : i < ds.length
    · rw [List.getElem?_set_self (by omega), List.getElem?_set_self hi]
      exact .some hshows
    · rw [List.getElem?_eq_none (by simp; omega), List.getElem?_eq_none (by simp; omega)]
      exact .none
  · rw [List.getElem?_set_ne hki, List.getElem?_set_ne hki]
    exact h k

theorem Shows.append (h : ws.Shows ds) {m : WMessage} {d : Draft} (hshows : m.Shows d)
    (error : String) :
    Shows ⟨ws.msgs ++ [m], error⟩ (ds ++ [d]) := by
  intro k
  have hlen := h.length_eq
  obtain hlt | rfl | hgt := Nat.lt_trichotomy k ds.length
  · rw [List.getElem?_append_left (by omega), List.getElem?_append_left hlt]
    exact h k
  · rw [List.getElem?_append_right (by omega), List.getElem?_append_right le_rfl, hlen,
      Nat.sub_self]
    exact .some hshows
  · rw [List.getElem?_eq_none (by simp; omega), List.getElem?_eq_none (by simp; omega)]
    exact .none

theorem Shows.update (h : ws.Shows ds) {i : ℕ} {f : WMessage → Written} {g : Draft → Option Draft}
    (hg : Drafts.update ds i g = some ds') (hmoderate : Drafts.Moderate ds)
    (hf : ∀ m d d', m.Shows d → Draft.Moderate d → g d = some d' → d' ∈ ds' → WMessage.Shows.Does
      (f m) d') :
    ∃ ws', ws.update i f = some ws' ∧ ws'.Shows ds' := by
  obtain ⟨d, hd, hg⟩ := Option.bind_eq_some_iff.1 hg
  obtain ⟨d', hd', rfl⟩ := Option.map_eq_some_iff.1 hg
  obtain ⟨hi, -⟩ := List.getElem?_eq_some_iff.1 hd
  obtain ⟨m, hm, hshows⟩ := h.exists_message hd
  obtain ⟨m', error, hm', hshows'⟩ :=
    hf m d d' hshows (hmoderate d (List.mem_of_getElem? hd)) hd' (List.mem_set hi d')
  refine ⟨⟨ws.msgs.set i m', error.getD ws.lasterror⟩, ?_, h.set hshows' _⟩
  simp only [Writers.update, hm, hm', Option.bind_eq_bind, Option.bind_some]

theorem shows_new (H : Heap UInt8) {msg : PbcMessage} (hmsg : ∀ f ∈ msg.fields, f.Numbered) :
    (WMessage.new H msg).Shows (Draft.new msg) := by
  refine ⟨rfl, hmsg, ⟨Nat.zero_le _, ?_⟩, rfl, rfl, _, MapSp.holds_new stringHash 4, fun _ => .none⟩
  show 0 < (H.fresh 64).length
  rw [H.length_fresh]
  decide

theorem Shows.message (htypes : types.Numbered) (h : ws.Shows ds) {i : ℕ} {key : String}
    (hkey : stringHash key ≠ 0) (hds' : Drafts.message types ds i key = some ds') :
    ∃ ws', ws.message H types i key = some ws' ∧ ws'.Shows ds' := by
  obtain ⟨d, hd, hds'⟩ := Option.bind_eq_some_iff.1 hds'
  obtain ⟨m, hm, hshows⟩ := h.exists_message hd
  unfold Writers.message
  simp only [hm, m.type.query_eq hkey, Option.bind_eq_bind, Option.bind_some]
  have htype := hshows.type
  cases hf : d.type.named key with
  | none =>
    have hf' : m.type.named key = none := by rw [htype, hf]
    simp only [hf] at hds'
    simp only [hf']
    cases hds'
    exact ⟨_, rfl, h⟩
  | some f =>
    have hf' : m.type.named key = some f := by rw [htype, hf]
    simp only [hf] at hds'
    simp only [hf']
    split_ifs at hds' ⊢ with hmessage
    obtain ⟨msg, hmsg, rfl⟩ := Option.map_eq_some_iff.1 hds'
    have hparent : { m with sub := m.sub ++ [(ws.msgs.length, f)] }.Shows
        { d with sub := d.sub ++ [(ds.length, f)] } :=
      ⟨hshows.type, hshows.numbered, hshows.valid, hshows.written, by rw [hshows.sub, h.length_eq],
        hshows.packed⟩
    have hnew := shows_new H (htypes f.typeName msg hmsg)
    simp only [hmsg, Option.bind_some]
    exact ⟨_, rfl, (h.set hparent ws.lasterror).append hnew ws.lasterror⟩

theorem Shows.step (htypes : types.Numbered) (h : ws.Shows ds) {c : WriteCall}
    (hkey : stringHash c.key ≠ 0) (hds' : Drafts.step R types ds c = some ds')
    (hmoderate : Drafts.Moderate ds') :
    ∃ ws', ws.step H R types c = some ws' ∧ ws'.Shows ds' := by
  have hds := Drafts.moderate_of_step hds' hmoderate
  cases c with
  | integer i key v =>
    refine h.update hds' hds fun m d d' hm hd hd' hmem => ?_
    obtain rfl := Option.some.inj hd'
    exact hm.integer hd hkey v (hmoderate _ hmem)
  | real i key v =>
    refine h.update hds' hds fun m d d' hm hd hd' hmem => ?_
    obtain rfl := Option.some.inj hd'
    exact hm.real hd hkey v (hmoderate _ hmem)
  | string i key v =>
    exact h.update hds' hds fun m d d' hm _ hd' hmem => hm.string hkey hd' (hmoderate d' hmem)
  | message i key => exact h.message htypes hkey hds'

/-- In every run of calls the buffers hold what is written, as long as no message gets too large
and no key is compared with `NULL`. -/
theorem shows_of_run (htypes : types.Numbered) {typeName : String} {msg : PbcMessage}
    (hmsg : types.msgs typeName = some msg) {calls : List WriteCall}
    (hkeys : ∀ c ∈ calls, stringHash c.key ≠ 0)
    (hrun : Lts.run (Drafts.step R types) [Draft.new msg] calls = some ds)
    (hmoderate : Drafts.Moderate ds) :
    ∃ ws, (Writers.new H types typeName).bind
        (fun ws => Lts.run (Writers.step H R types) ws calls) = some ws ∧
      ws.Shows ds := by
  have hstart : Shows ⟨[WMessage.new H msg], ""⟩ [Draft.new msg] := by
    intro k
    cases k with
    | zero => exact .some (shows_new H (htypes typeName msg hmsg))
    | succ k => exact .none
  obtain ⟨ws, hws, hshows⟩ := Lts.run_refines (J := Drafts.Moderate)
    (fun _ _ _ => Drafts.moderate_of_step) (fun _ _ _ _ hkey hR hs hJ => hR.step htypes hkey hs hJ)
      hkeys hrun hmoderate
    hstart
  exact ⟨ws, by rw [Writers.new, hmsg]; exact hws, hshows⟩

end Writers

end SockTestProgram
