import SockTestProgram.Lib.Growing
import SockTestProgram.Pbc.Encode
import SockTestProgram.Pbc.Map
import SockTestProgram.Pbc.PbcArray

/-!
# Writing messages

`wmessage.c`, with the defaults of fields as `_set_default` of `register.c` and `set_field_one` of
`bootstrap.c` enter them.  The numbers and strings of a message go to a buffer of its own, those of
packed fields to arrays in a map; `pbc_wmessage_buffer` adds the arrays and the messages inside to
what is in the buffer.

A write outside a buffer, an overflow of `int` where a buffer or an array grows, and a key that is
compared with `NULL` have no result (`none`).
-/

open Growing Memory

namespace SockTestProgram

/-- The bytes of a string in the program text. -/
def utf8 (s : String) : Bytes := s.toUTF8.toList

/-- The string that starts at these bytes ends before the first zero byte. -/
def cString (s : Bytes) : Bytes := s.takeWhile (· ≠ 0)

/-- The field of a name. -/
def PbcMessage.named (m : PbcMessage) (key : String) : Option Field := m.fields.find? (·.name = key)

/-- `_pbcM_sp_query` on `name`; `none` where the key is compared with `NULL`. -/
def PbcMessage.query (m : PbcMessage) (key : String) : Option (Option Field) :=
  match (pushMessage stringHash m.fields).query stringHash key with
  | .ok found => some found
  | _ => none

/-- Keys are found by their names, apart from those whose hash is that of an empty slot. -/
theorem PbcMessage.query_eq (m : PbcMessage) {key : String} (hkey : stringHash key ≠ 0) :
    m.query key = some (m.named key) := by
  rw [query, (holds_pushMessage stringHash m.distinct).query, if_neg fun h => hkey h.2]
  rfl

/-- `_pbcM_si_query` on `name`, of a string in memory. -/
def PbcEnum.numberOf (e : PbcEnum) (name : Bytes) : Option ℤ :=
  (e.values.find? (utf8 ·.1 = name)).map Prod.snd

/-! ## Reals -/

/-- What the C library and the processor do with reals. -/
structure Reals where
  strtod : String → LongLong
  /-- The float that a double is converted to. -/
  toFloat : LongLong → BitVec 32

namespace LongLong

/-- A double that is not a number. -/
def isNaN (r : LongLong) : Bool :=
  0x7ff00000 < r.hi &&& 0x7fffffff || (r.hi &&& 0x7fffffff = 0x7ff00000 && r.low ≠ 0)

def isZero (r : LongLong) : Bool := r.hi &&& 0x7fffffff = 0 && r.low = 0

/-- `==` of doubles -/
def realEq (r r' : LongLong) : Bool :=
  !r.isNaN && !r'.isNaN && (r = r' || (r.isZero && r'.isZero))

end LongLong

/-! ## Defaults -/

/-- `default_v` of a field.  An integer and a real share their place. -/
inductive DefaultValue
  | integer (v : LongLong)
  | s (str : Bytes)
  | e (id : BitVec 32) (name : Bytes)
  deriving DecidableEq, Repr

/-- The digits of `strtoll(value, NULL, 10)`. -/
def digits (n : ℕ) : List Char → ℕ
  | [] => n
  | c :: cs => if c.isDigit then digits (10 * n + (c.toNat - '0'.toNat)) cs else n

/-- The number that `strtoll(value, NULL, 10)` reads, before it is cut to the range. -/
def decimal (value : String) : ℤ :=
  match value.toList.dropWhile Char.isWhitespace with
  | '-' :: cs => -(digits 0 cs)
  | '+' :: cs => digits 0 cs
  | cs => digits 0 cs

/-- `strtoll` and `strtol`, of words of 64 bits. -/
def strtoll (value : String) : BitVec 64 :=
  .ofInt 64 (max (-2 ^ 63) (min (2 ^ 63 - 1) (decimal value)))

/-- `strtoul`, of words of 64 bits.  A number with a sign is negated as a word. -/
def strtoul (value : String) : BitVec 64 :=
  if 2 ^ 64 ≤ (decimal value).natAbs then .allOnes 64 else .ofInt 64 (decimal value)

/-- The `switch` of `_set_default`, of a default that is not empty.  `fixed64` is missing from
it. -/
def setDefault (R : Reals) (f : Field) : DefaultValue :=
  match f.type with
  | .double | .float => .integer (R.strtod f.defaultValue)
  | .string => .s (utf8 f.defaultValue)
  | .bool => .integer ⟨if f.defaultValue = "true" then 1 else 0, 0⟩
  | .uint64 | .int64 | .sfixed64 | .sint64 => .integer (.ofBitVec (strtoll f.defaultValue))
  | .int32 | .fixed32 | .sfixed32 | .sint32 =>
    let low := (strtoll f.defaultValue).setWidth 32
    .integer ⟨low, if low.toInt < 0 then -1 else 0⟩
  | .uint32 => .integer ⟨(strtoul f.defaultValue).setWidth 32, 0⟩
  | .bytes | .message => .s []
  | _ => .integer ⟨0, 0⟩

/-- `set_field_one`, of an enumeration: the default, or the first enumerator.  A default that is
not in the enumeration leaves the number undefined (`none`). -/
def PbcEnum.default (e : PbcEnum) (value : String) : Option DefaultValue :=
  if value.isEmpty then e.values.head?.map fun v => .e (BitVec.ofInt 32 v.2) (utf8 v.1)
  else
    (e.number value).bind fun id =>
      (e.name id).map fun name => .e (BitVec.ofInt 32 id) (utf8 name)

/-- `default_v` -/
def PbcTypes.defaultV (R : Reals) (types : PbcTypes) (f : Field) : Option DefaultValue :=
  if f.type = .enum then (types.enums f.typeName).bind fun e => e.default f.defaultValue
  else if f.defaultValue.isEmpty then
    if f.type = .string ∨ f.type = .bytes then some (.s []) else some (.integer ⟨0, 0⟩)
  else some (setDefault R f)

/-! ## Bytes -/

/-- A field's number and the wire type (`f->id << 3 | …`). -/
def tagWord (id : ℤ) (wiretype : BitVec 32) : BitVec 32 := BitVec.ofInt 32 id <<< 3 ||| wiretype

/-- `int32_encode` and `float_encode` -/
def int32Encode (low : BitVec 32) : Bytes :=
  [toByte (low &&& 0xff), toByte (low >>> 8 &&& 0xff), toByte (low >>> 16 &&& 0xff),
    toByte (low >>> 24 &&& 0xff)]

/-- `int64_encode` and `double_encode` -/
def int64Encode (v : LongLong) : Bytes := int32Encode v.low ++ int32Encode v.hi

/-- The `switch` of `pbc_wmessage_integer`: the wire type, and what is written behind the tag. -/
def integerBytes (t : PType) (v : LongLong) : Option (BitVec 32 × Bytes) :=
  match t with
  | .int64 | .uint64 | .int32 => some (0, pbcVEncode v.number)
  | .uint32 | .enum | .bool => some (0, pbcVEncode32 v.low)
  | .fixed64 | .sfixed64 => some (1, int64Encode v)
  | .fixed32 | .sfixed32 => some (5, int32Encode v.low)
  | .sint32 => some (0, pbcVZigzag32 v.low)
  | .sint64 => some (0, pbcVZigzag v.number)
  | _ => none

/-- The `switch` of `pbc_wmessage_real`. -/
def realBytes (R : Reals) (t : PType) (v : LongLong) : Option (BitVec 32 × Bytes) :=
  match t with
  | .float => some (5, int32Encode (R.toFloat v))
  | .double => some (1, int64Encode v)
  | _ => none

/-- The numbers of a packed array, in the first `switch` of `_pack_packed_varint`. -/
def varintBytes (t : PType) : Option (LongLong → Bytes) :=
  match t with
  | .int64 | .uint64 => some fun v => pbcVEncode v.number
  | .int32 | .bool | .uint32 | .enum => some fun v => pbcVEncode32 v.low
  | .sint32 => some fun v => pbcVZigzag32 v.low
  | .sint64 => some fun v => pbcVZigzag v.number
  | _ => none

/-! ## Messages that are written -/

/-- An array with the field that it belongs to.  The values are the words of `pbc_var`, an
integer or a real. -/
structure Packed where
  id : ℤ
  ptype : PType
  data : List LongLong
  deriving DecidableEq, Repr

/-- Arrays of `pbc_var`, with pointers of 64 bits. -/
def varLayout : ArrayLayout := ⟨2, 16, by decide⟩

/-- `struct _packed` -/
structure PackedArray where
  id : ℤ
  ptype : PType
  data : PbcArray LongLong
  deriving DecidableEq, Repr

namespace PackedArray

/-- A value is pushed to the array of a field, which is made where there is none. -/
def pushed (f : Field) (var : LongLong) (p : Option PackedArray) : Option PackedArray :=
  let p := p.getD ⟨f.id, f.type, .start varLayout true⟩
  (p.data.push varLayout var).map fun data => { p with data }

/-- The values from 0 to `pbc_array_size`, as `pbc_array_integer` and `pbc_array_real` read them. -/
def read (p : PackedArray) : Packed := ⟨p.id, p.ptype, p.data.toList⟩

end PackedArray

/-- `struct pbc_wmessage` -/
structure WMessage where
  type : PbcMessage
  /-- `buffer`, `ptr` and `endptr` -/
  out : Buffer UInt8
  /-- The messages inside, by their places among all messages. -/
  sub : List (ℕ × Field)
  packed : Option (MapSp String PackedArray)

/-- From here on `int` overflows. -/
def intLimit : ℕ := 2 ^ 31

/-- What a function leaves of a message, and the error that it reports. -/
abbrev Written : Type := Option (WMessage × Option String)

namespace WMessage

variable (H : Heap UInt8) (R : Reals) (types : PbcTypes)

/-- `_wmessage_new` -/
def new (msg : PbcMessage) : WMessage := ⟨msg, ⟨H.fresh 64, 0⟩, [], none⟩

/-- `_get_packed`, and the value that is pushed then.  A message of moderate size has too few
arrays for `int` to overflow in their map. -/
def pushPacked (m : WMessage) (f : Field) (key : String) (var : LongLong) : Written :=
  let packed := m.packed.getD (MapSp.new 4)
  (packed.queryInsert stringHash key (PackedArray.pushed f var)).map fun packed =>
    ({ m with packed := some packed }, none)

/-- A value is written behind its tag, in room of this size. -/
def putField (f : Field) (room : ℕ) (value : Option (BitVec 32 × Bytes)) (b : Buffer UInt8) :
    Option (Buffer UInt8) := do
  let b ← b.reserve H intLimit room
  match value with
  | none => some b
  | some (wiretype, data) =>
    let b ← b.put (pbcVEncode32 (tagWord f.id wiretype))
    b.put data

/-- The value is left out where it is the default. -/
def integerIsDefault (f : Field) (v : LongLong) : Bool :=
  match types.defaultV R f with
  | some (.e id _) => v.low = id
  | some (.integer d) => v = d
  | _ => false

/-- `pbc_wmessage_integer`.  Where the default is one of another kind, what it is compared with
makes no difference: nothing is written then. -/
def integer (m : WMessage) (key : String) (v : LongLong) : Written :=
  (m.type.query key).bind fun
  | none => some (m, some "wmessage_interger query key error")
  | some f =>
    if f.label = .packed then m.pushPacked f key v
    else if f.label = .optional ∧ integerIsDefault R types f v then some (m, none)
    else (putField H f 20 (integerBytes f.type v) m.out).map fun out => ({ m with out }, none)

def realIsDefault (f : Field) (v : LongLong) : Bool :=
  match types.defaultV R f with
  | some (.integer d) => v.realEq d
  | _ => false

/-- `pbc_wmessage_real` -/
def real (m : WMessage) (key : String) (v : LongLong) : Written :=
  (m.type.query key).bind fun
  | none => some (m, some "wmessage_real query key error")
  | some f =>
    if f.label = .packed then m.pushPacked f key v
    else if f.label = .optional ∧ realIsDefault R types f v then some (m, none)
    else (putField H f 18 (realBytes R f.type v) m.out).map fun out => ({ m with out }, none)

/-- The comparisons of `pbc_wmessage_string` with the default.  The name of an enumerator is
compared up to its end only where the string has no zero byte (else `none`). -/
def stringIsDefault (f : Field) (v : Bytes) : Option Bool :=
  match f.type, types.defaultV R f with
  | .enum, some (.e _ name) =>
    if v = name then some true else if cString v = name then none else some false
  | .string, some (.s str) => some (v.length = str.length ∧ cString v = cString str)
  | .bytes, _ => some (v = [])
  | .enum, _ => none
  | _, _ => some false

/-- The number of the enumerator of this name. -/
def enumId (f : Field) (v : Bytes) : Option (BitVec 32) :=
  (types.enums f.typeName).bind fun e => (e.numberOf (cString v)).map (BitVec.ofInt 32)

/-- The last part of `pbc_wmessage_string`: the string is written. -/
def putString (m : WMessage) (f : Field) (v : Bytes) : Written := do
  let out ← m.out.reserve H intLimit 20
  match f.type with
  | .enum =>
    match enumId types f v with
    | none => some ({ m with out }, some "wmessage_string invalid enum")
    | some id =>
      let out ← out.put (pbcVEncode32 (tagWord f.id 0))
      let out ← out.put (pbcVEncode32 id)
      some ({ m with out }, none)
  | .string | .bytes =>
    let out ← out.put (pbcVEncode32 (tagWord f.id 2))
    let out ← out.put (pbcVEncode32 (BitVec.ofNat 32 v.length))
    let out ← out.reserve H intLimit v.length
    let out ← out.put v
    some ({ m with out }, none)
  | _ => some ({ m with out }, none)

/-- `pbc_wmessage_string`, of a string with its length. -/
def string (m : WMessage) (key : String) (v : Bytes) : Written :=
  (m.type.query key).bind fun
  | none => some (m, some "wmessage_string query key error")
  | some f =>
    if f.label = .packed then
      if f.type = .enum then
        match enumId types f v with
        | none => some (m, some "wmessage_string packed invalid enum")
        | some id => m.pushPacked f key ⟨id, 0⟩
      else some (m, none)
    else
      (if f.label = .optional then stringIsDefault R types f v else some false).bind
        fun isDefault =>
        if isDefault then some (m, none) else m.putString H types f v

/-! ## Packed fields -/

/-- `_pack_packed_64` and `_pack_packed_32`: numbers of a size, one stride after another. -/
def packFixed (size stride : ℕ) (encode : LongLong → Bytes) (p : Packed) (b : Buffer UInt8) :
    Option (Buffer UInt8) := do
  let len := p.data.length * size
  let b ← b.reserve H intLimit (10 + len)
  let b ← b.put (pbcVEncode32 (BitVec.ofNat 32 len))
  let b ← b.overwriteEvery stride b.ptr (p.data.map encode)
  some { b with ptr := b.ptr + len }

def packPacked64 (p : Packed) : Buffer UInt8 → Option (Buffer UInt8) :=
  packFixed H 8 8 int64Encode p

/-- The numbers take four bytes, and each is written eight bytes behind the one before it. -/
def packPacked32 (p : Packed) : Buffer UInt8 → Option (Buffer UInt8) :=
  packFixed H 4 8 (if p.ptype = .float then fun v => int32Encode (R.toFloat v) else fun v =>
    int32Encode v.low) p

/-- The end of `_pack_packed_varint`: the length before the numbers is written again where
another one was expected, and the numbers are moved first where it takes more or less bytes. -/
def rewriteLength (offset lenLen endLen : ℕ) (b : Buffer UInt8) : Option (Buffer UInt8) := do
  let temp := pbcVEncode32 (BitVec.ofNat 32 endLen)
  if temp.length = lenLen then b.overwrite offset temp
  else
    let b ← b.reserve H intLimit temp.length
    let b ← b.move (offset + temp.length) (offset + lenLen) endLen
    let b ← b.overwrite offset temp
    some { b with ptr := b.ptr + temp.length - lenLen }

/-- One number of an array of numbers. -/
def packNumber (encode : LongLong → Bytes) (b : Buffer UInt8) (v : LongLong) :
    Option (Buffer UInt8) := do
  let b ← b.reserve H intLimit 10
  b.put (encode v)

/-- The size that `_pack_packed_varint` expects of the numbers. -/
def expectedLength (p : Packed) : ℕ := if p.ptype = .bool then p.data.length else p.data.length * 2

/-- The `switch` of `_pack_packed_varint`. -/
def packBody (p : Packed) (b : Buffer UInt8) : Option (Buffer UInt8 × Option String) :=
  match varintBytes p.ptype with
  | some encode => (p.data.foldlM (packNumber H encode) b).map (·, none)
  | none => (b.put (List.replicate p.data.length 0)).map (·,
      some "wmessage type error when pack packed")

/-- `_pack_packed_varint` -/
def packPackedVarint (p : Packed) (b : Buffer UInt8) : Option (Buffer UInt8 × Option String) := do
  let offset := b.ptr
  let len := expectedLength p
  let b ← b.reserve H intLimit (10 + len)
  let lenLen := (pbcVEncode32 (BitVec.ofNat 32 len)).length
  let b ← b.put (pbcVEncode32 (BitVec.ofNat 32 len))
  let (b, error) ← packBody H p b
  let endLen := b.ptr - (offset + lenLen)
  if endLen = len then some (b, error)
  else (rewriteLength H offset lenLen endLen b).map (·, error)

/-- `_pack_packed` -/
def packPacked (p : Packed) (b : Buffer UInt8) : Option (Buffer UInt8 × Option String) := do
  let b ← b.reserve H intLimit 10
  let b ← b.put (pbcVEncode32 (tagWord p.id 2))
  match p.ptype with
  | .double | .fixed64 | .sfixed64 => (packPacked64 H p b).map (·, none)
  | .float | .fixed32 | .sfixed32 => (packPacked32 H R p b).map (·, none)
  | _ => packPackedVarint H p b

/-- One array of `pbc_wmessage_buffer`.  The last error is kept. -/
def packNext (st : Buffer UInt8 × Option String) (p : Packed) :
    Option (Buffer UInt8 × Option String) := do
  let (b, error) ← packPacked H R p st.1
  some (b, error.or st.2)

/-- The first part of `pbc_wmessage_buffer`: the arrays, slot by slot. -/
def packAll (m : WMessage) : Written :=
  match m.packed with
  | none => some (m, none)
  | some packed =>
    ((packed.foreach.map PackedArray.read).foldlM (packNext H R) (m.out, none)).map fun (out,
      error) => ({ m with out }, error)

/-- A message inside, with its bytes. -/
def putMessage (m : WMessage) (f : Field) (s : Bytes) : Written := do
  let out ← m.out.reserve H intLimit (20 + s.length)
  let out ← out.put (pbcVEncode32 (tagWord f.id 2))
  let out ← out.put (pbcVEncode32 (BitVec.ofNat 32 s.length))
  let out ← out.put s
  some ({ m with out }, none)

end WMessage

/-! ## All messages of a writer -/

/-- The messages that are written on one heap, in the order of their creation, and `lasterror`. -/
structure Writers where
  msgs : List WMessage
  lasterror : String

/-- A call of one of the functions that write, on the message at a place. -/
inductive WriteCall
  | integer (m : ℕ) (key : String) (v : LongLong)
  | real (m : ℕ) (key : String) (v : LongLong)
  | string (m : ℕ) (key : String) (v : Bytes)
  | message (m : ℕ) (key : String)
  deriving DecidableEq, Repr

def WriteCall.key : WriteCall → String
  | .integer _ key _ | .real _ key _ | .string _ key _ | .message _ key => key

namespace Writers

variable (H : Heap UInt8) (R : Reals) (types : PbcTypes)

/-- `pbc_wmessage_new` -/
def new (typeName : String) : Option Writers :=
  (types.msgs typeName).map fun msg => ⟨[WMessage.new H msg], ""⟩

/-- A function works on the message at a place. -/
def update (ws : Writers) (i : ℕ) (f : WMessage → Written) : Option Writers := do
  let m ← ws.msgs[i]?
  let (m, error) ← f m
  some ⟨ws.msgs.set i m, error.getD ws.lasterror⟩

/-- `pbc_wmessage_message`, of a field with a registered type. -/
def message (ws : Writers) (i : ℕ) (key : String) : Option Writers := do
  let m ← ws.msgs[i]?
  match ← m.type.query key with
  | none => some { ws with lasterror := "wmessage_message query key error" }
  | some f =>
    if f.type = .message then
      let msg ← types.msgs f.typeName
      some { ws with
        msgs := ws.msgs.set i { m with sub := m.sub ++ [(ws.msgs.length, f)] } ++
          [WMessage.new H msg] }
    else none

def step (ws : Writers) : WriteCall → Option Writers
  | .integer i key v => ws.update i fun m => m.integer H R types key v
  | .real i key v => ws.update i fun m => m.real H R types key v
  | .string i key v => ws.update i fun m => m.string H R types key v
  | .message i key => ws.message H types i key

/-- `pbc_wmessage_buffer`, of the message at a place: what it leaves of all messages, and the
bytes.  The budget bounds the depth of messages. -/
def buffer : ℕ → Writers → ℕ → Option (Writers × Bytes)
  | 0, _, _ => none
  | budget + 1, ws, i => do
    let ws ← ws.update i (WMessage.packAll H R)
    let m ← ws.msgs[i]?
    let ws ← m.sub.foldlM (fun ws (j, f) => do
      let (ws, s) ← buffer budget ws j
      ws.update i fun m => m.putMessage H f s) ws
    let m ← ws.msgs[i]?
    some (ws, m.out.written)

end Writers

end SockTestProgram
