import SockTestProgram.Lib.Run
import SockTestProgram.Pbc.Decode

/-!
# Messages as Lua tables

`decode_cb` of `pbc-lua.c`, and `decode`, `expand` and the metatables of `protobuf.lua`.  A message
from `decode` holds its fields; a message in a field of another one holds its type and its bytes
until a field of it is read, and is decoded then.  `Proto.optionalNoDefault` of `app/Proto.lua`
reads a field without the metatable.
-/

open Lts

namespace SockTestProgram

/-! ## Tables -/

/-- A Lua value in a message. -/
inductive MessageValue
  | nil
  | boolean (b : Bool)
  /-- the number that an integer is converted to, kept exact where a double beyond 2 ^ 53 is
  rounded -/
  | number (n : ℤ)
  /-- a number, by its bits or by those of a float -/
  | double (v : LongLong)
  | float (low : BitVec 32)
  /-- a string of the message, of the descriptors, or made of the two words of a number -/
  | string (s : Bytes)
  | name (s : String)
  | fixed64 (v : LongLong)
  | userdata (low : BitVec 32)
  /-- a message, by its place in the heap -/
  | table (msg : ℕ)
  deriving DecidableEq, Repr

/-- What a field of a message holds. -/
inductive FieldValue
  | one (v : MessageValue)
  | array (items : List MessageValue)
  deriving DecidableEq, Repr

namespace FieldValue

abbrev nil : FieldValue := .one .nil

def items : FieldValue → List MessageValue
  | .one _ => []
  | .array items => items

end FieldValue

/-- The metatable of a message: `decode_message_mt`, or `default_table` of its type. -/
inductive Metatable
  | decodeMessage
  | default (typeName : String)
  deriving DecidableEq, Repr

/-- The table of a message. -/
structure MessageTable where
  /-- The type and the bytes of the message that it was made for. -/
  typeName : String
  buffer : Bytes
  /-- It was made for a message in a field of another one. -/
  nested : Bool
  /-- It holds the type and the bytes, under the keys 1 and 2. -/
  pending : Bool
  fields : String → FieldValue
  metatable : Option Metatable

/-- All messages, in the order in which they were made. -/
abbrev LuaHeap : Type := List MessageTable

/-- `decode_message_cb` -/
def decodeMessageCb (typeName : String) (buffer : Bytes) : MessageTable :=
  ⟨typeName, buffer, true, true, fun _ => .nil, some .decodeMessage⟩

/-- `push_value` of a value that is not a message. -/
def pushScalar (f : Field) : PbcValue → MessageValue
  | .f v => .double v
  | .float low => .float low
  | .e _ (some name) => .name name
  | .e _ none => .nil
  | .s buffer => .string buffer
  | .i v =>
    match f.type with
    | .int32 | .sint32 => .number v.low.toInt
    | .bool => .boolean (v.low ≠ 0)
    | .fixed32 | .sfixed32 => .userdata v.low
    | .fixed64 | .sfixed64 => .fixed64 v
    | .int64 | .sint64 => .number (v.hi ++ v.low).toInt
    | _ => .number (v.hi ++ v.low).toNat

/-- `push_value` -/
def pushValue (h : LuaHeap) (f : Field) (v : PbcValue) : LuaHeap × MessageValue :=
  match f.type, v with
  | .message, .s buffer => (h ++ [decodeMessageCb f.typeName buffer], .table h.length)
  | _, _ => (h, pushScalar f v)

/-- `decode_cb`, with the fields of the table that is filled.  The values of a repeated field go
to an array of its own, and a nil leaves the array as it is. -/
def decodeCb (st : LuaHeap × (String → FieldValue)) (c : Field × PbcValue) :
    LuaHeap × (String → FieldValue) :=
  let (h, v) := pushValue st.1 c.1 c.2
  if c.1.isRepeated then
    let array := (st.2 c.1.name).items
    (h, Function.update st.2 c.1.name (.array (if v = .nil then array else array ++ [v])))
  else (h, Function.update st.2 c.1.name (.one v))

variable (types : PbcTypes)

/-- `decode`: the message, or `none` for `false`.  What was made before an error is never seen. -/
def protobufDecode (h : LuaHeap) (typeName : String) (buffer : Bytes) :
    Opened (LuaHeap × Option ℕ) :=
  let ret : MessageTable := ⟨typeName, buffer, false, false, fun _ => .nil, none⟩
  (pbcDecode types typeName buffer).map fun (cs, ok) =>
    let filled := cs.foldl decodeCb (h ++ [ret], ret.fields)
    if ok then
      (filled.1.set h.length { ret with
        fields := filled.2
        metatable := some (.default typeName) }, some h.length)
    else (h, none)

/-- `expand`, and whether its assertion holds. -/
def expand (h : LuaHeap) (msg : ℕ) (tbl : MessageTable) : Opened (LuaHeap × Bool) :=
  (pbcDecode types tbl.typeName tbl.buffer).map fun (cs, ok) =>
    let filled := cs.foldl decodeCb (h, tbl.fields)
    (filled.1.set msg { tbl with
      pending := false
      fields := filled.2
      metatable := if ok then some (.default tbl.typeName) else tbl.metatable }, ok)

/-- What an access returns: what the table holds, what the default message of a type holds, or an
error. -/
inductive Access
  | value (v : FieldValue)
  | default (typeName field : String)
  | raised
  deriving DecidableEq, Repr

/-- `msg[field]`; `none` if bytes from outside a message take part in the result. -/
def access (h : LuaHeap) (msg : ℕ) (field : String) : Option (LuaHeap × Access) :=
  match h[msg]? with
  | none => none
  | some tbl =>
    if tbl.fields field ≠ .nil then some (h, .value (tbl.fields field))
    else
      match tbl.metatable with
      | none => some (h, .value .nil)
      | some (.default typeName) => some (h, .default typeName field)
      | some .decodeMessage =>
        -- without a type the decoder refuses its arguments
        if tbl.pending = false then some (h, .raised)
        else
          match expand types h msg tbl with
          | .ok (h', true) =>
            let v := (h'[msg]?.elim .nil fun tbl => tbl.fields field)
            some (h', if v ≠ .nil then .value v else .default tbl.typeName field)
          | .ok (h', false) => some (h', .raised)
          | .failed => none
          | .undefined => none

/-- `Proto.optionalNoDefault` -/
def optionalNoDefault (h : LuaHeap) (msg : ℕ) (field : String) : Option (LuaHeap × FieldValue) :=
  match h[msg]? with
  | none => none
  | some tbl =>
    let originalMt := tbl.metatable
    match access types (h.set msg { tbl with metatable := none }) msg field with
    | some (h', .value result) =>
      some (h'.modify msg ({ · with metatable := originalMt }), result)
    | _ => none

/-- A call of `decode`, an access to a field, or a call of `Proto.optionalNoDefault`. -/
inductive MessageOp
  | decode (typeName : String) (buffer : Bytes)
  | access (msg : ℕ) (field : String)
  | optionalNoDefault (msg : ℕ) (field : String)
  deriving DecidableEq, Repr

def LuaHeap.step (h : LuaHeap) : MessageOp → Option LuaHeap
  | .decode typeName buffer =>
    match protobufDecode types h typeName buffer with
    | .ok (h', _) => some h'
    | _ => none
  | .access msg field => (SockTestProgram.access types h msg field).map Prod.fst
  | .optionalNoDefault msg field =>
    (SockTestProgram.optionalNoDefault types h msg field).map Prod.fst

end SockTestProgram
