import SockTestProgram.Pbc.Context
import SockTestProgram.Pbc.Register

/-!
# `pbc_decode`

The types of messages as an environment of pbc knows them, and `pbc_decode` of `decode.c`, which
calls a function for every value of every field of a message.  The function is left out here: the
result is the list of its calls.

Groups are not modelled, nor are fields whose type is not registered.
-/

open Memory

namespace SockTestProgram

/-! ## Types of messages -/

/-- `PTYPE_DOUBLE` and so on -/
inductive PType
  | double
  | float
  | int64
  | uint64
  | int32
  | fixed64
  | fixed32
  | bool
  | string
  | message
  | bytes
  | uint32
  | enum
  | sfixed32
  | sfixed64
  | sint32
  | sint64
  deriving DecidableEq, Repr

/-- `LABEL_OPTIONAL` and so on -/
inductive Label
  | optional
  | required
  | repeated
  | packed
  deriving DecidableEq, Repr

/-- All numbers of the type take the same space in an array. -/
def PType.isFixed : PType → Bool
  | .double | .float | .fixed32 | .sfixed32 | .fixed64 | .sfixed64 => true
  | _ => false

/-- `struct _field` -/
structure Field where
  id : ℤ
  name : String
  type : PType
  label : Label
  /-- The name of the type of a message or of an enumeration. -/
  typeName : String
  /-- `default_value`, as the descriptor has it -/
  defaultValue : String
  deriving DecidableEq, Repr

/-- The field holds a list of values (`PBC_REPEATED`). -/
def Field.isRepeated (f : Field) : Bool := f.label = .repeated || f.label = .packed

/-- `struct _message` -/
structure PbcMessage where
  fields : List Field
  distinct : (fields.map Field.name).Nodup

namespace PbcMessage

/-- `_pbcM_ip_query` on `id` -/
def fieldOf (m : PbcMessage) (id : ℤ) : Option Field := m.fields.find? (·.id = id)

theorem eq_of_name_eq {m : PbcMessage} {id id' : ℤ} {f f' : Field} (hf : m.fieldOf id = some f)
    (hf' : m.fieldOf id' = some f') (hname : f.name = f'.name) : f = f' :=
  List.inj_on_of_nodup_map m.distinct (List.mem_of_find?_eq_some hf)
    (List.mem_of_find?_eq_some hf') hname

end PbcMessage

/-- The types that are registered. -/
structure PbcTypes where
  enums : String → Option PbcEnum
  msgs : String → Option PbcMessage

/-- The name of a number in the enumeration of a field, if it has one. -/
def PbcTypes.enumName (types : PbcTypes) (f : Field) (id : BitVec 32) : Option String :=
  (types.enums f.typeName).bind fun e => e.name id.toInt

/-! ## Values -/

/-- `union pbc_value` -/
inductive PbcValue
  | i (v : LongLong)
  /-- a double, by its bits -/
  | f (v : LongLong)
  /-- a double that was a float, by the bits of the float -/
  | float (low : BitVec 32)
  | e (id : BitVec 32) (name : Option String)
  | s (buffer : Bytes)
  deriving DecidableEq, Repr

/-- A number without a name in its enumeration. -/
def PbcValue.unknown : PbcValue → Bool
  | .e _ none => true
  | _ => false

/-- `_pbcV_dezigzag32` -/
def dezigzag32 (r : LongLong) : LongLong := ⟨(r.low >>> 1) ^^^ -(r.low &&& 1), -(r.low >>> 31)⟩

/-- `_pbcV_dezigzag64` -/
def dezigzag64 (r : LongLong) : LongLong :=
  ⟨((r.low >>> 1) ||| ((r.hi &&& 1) <<< 31)) ^^^ -(r.low &&& 1), (r.hi >>> 1) ^^^ -(r.low &&& 1)⟩

/-- The bytes between `start` and `end`. -/
def Atom.slice (a : Atom) (buffer : Bytes) : Bytes :=
  Memory.slice buffer a.low.toNat (a.hi.toNat - a.low.toNat)

/-- `call_type`: the value of a field.  Only strings are checked for how they are encoded. -/
def callType (types : PbcTypes) (f : Field) (a : Atom) (buffer : Bytes) : Option PbcValue :=
  match f.type with
  | .double => some (.f ⟨a.low, a.hi⟩)
  | .float => some (.float a.low)
  | .enum => some (.e a.low (types.enumName f a.low))
  | .int64 | .uint64 | .fixed64 | .sfixed64 => some (.i ⟨a.low, a.hi⟩)
  | .int32 | .uint32 | .bool | .fixed32 | .sfixed32 => some (.i ⟨a.low, 0⟩)
  | .sint32 => some (.i (dezigzag32 ⟨a.low, a.hi⟩))
  | .sint64 => some (.i (dezigzag64 ⟨a.low, a.hi⟩))
  | .string | .bytes | .message => if a.wiretype = 2 then some (.s (a.slice buffer)) else none

/-- The numbers of 64 bits of an array. -/
def words64 : Bytes → List LongLong
  | a :: b :: c :: d :: e :: f :: g :: h :: rest =>
    ⟨wordLE [a, b, c, d], wordLE [e, f, g, h]⟩ :: words64 rest
  | _ => []

/-- The numbers of 32 bits of an array. -/
def words32 : Bytes → List (BitVec 32)
  | a :: b :: c :: d :: rest => wordLE [a, b, c, d] :: words32 rest
  | _ => []

/-- The numbers of an array of some bytes that memory starts with, and whether the last one ends
where the array does.  The last ones are copied to `temp`, and then read from memory all the
same: one that is cut off goes on with the bytes behind the array. -/
def varints : ℕ → ℕ → Bytes → Opened (List LongLong × Bool)
  | _, 0, _ => .ok ([], true)
  | 0, _ + 1, _ => .ok ([], false)
  | budget + 1, size + 1, memory =>
    match pbcVDecode memory with
    | none => .undefined
    | some (v, len) =>
      -- no number has more than ten bytes, so that this tells only of fewer than ten
      if size + 1 < len then .ok ([], false)
      else (varints budget (size + 1 - len) (memory.drop len)).map fun (vs, ok) => (v :: vs, ok)

/-- The branches of `call_array` for numbers of a fixed width. -/
def callWords (width : ℕ) (values : Bytes → List PbcValue) (memory : Bytes) (start size : ℤ) :
    Opened (List PbcValue × Bool) :=
  if size % width ≠ 0 then .ok ([], false)
  -- nothing is read, and the count is negative if the size is
  else if size ≤ 0 then .ok ([], decide (size = 0))
  else if 0 ≤ start ∧ start + size ≤ memory.length then
    .ok (values (Memory.slice memory start.toNat size.toNat), true)
  else .undefined

/-- The branches of `call_array` for numbers that end where they say. -/
def callVarints (value : LongLong → PbcValue) (memory : Bytes) (start size : ℤ) :
    Opened (List PbcValue × Bool) :=
  if size ≤ 0 then .ok ([], true)
  else if 0 ≤ start then
    (varints size.toNat size.toNat (memory.drop start.toNat)).map fun (vs, ok) => (vs.map value, ok)
  else .undefined

/-- `call_array`, of an array from `start` on: the values, and whether there is no error.  The
size of an array of words, and that there are arrays of the type, is checked before anything is
read. -/
def callArray (types : PbcTypes) (f : Field) (memory : Bytes) (start size : ℤ) :
    Opened (List PbcValue × Bool) :=
  match f.type with
  | .double => callWords 8 (fun array => (words64 array).map .f) memory start size
  | .float => callWords 4 (fun array => (words32 array).map .float) memory start size
  | .fixed32 | .sfixed32 =>
    callWords 4 (fun array => (words32 array).map fun low => .i ⟨low, 0⟩) memory start size
  | .fixed64 | .sfixed64 => callWords 8 (fun array => (words64 array).map .i) memory start size
  | .int64 | .uint64 | .int32 | .uint32 | .bool => callVarints .i memory start size
  | .enum => callVarints (fun v => .e v.low (types.enumName f v.low)) memory start size
  | .sint32 => callVarints (fun v => .i (dezigzag32 v)) memory start size
  | .sint64 => callVarints (fun v => .i (dezigzag64 v)) memory start size
  | .string | .bytes | .message => .ok ([], false)

/-- The types that the values of fields are given that the message does not have. -/
inductive UnknownType
  | int
  | fixed64
  | bytes
  | fixed32
  deriving DecidableEq, Repr

/-- A call of the decoder: with the key of a field, or with no key (`call_unknown`) and a number
that the message does not have. -/
inductive DecoderCall
  | keyed (c : Field × PbcValue)
  | unkeyed (id : ℤ) (type : UnknownType) (v : PbcValue)
  deriving DecidableEq, Repr

/-- The value of a call with a key. -/
def DecoderCall.value : DecoderCall → Option (Field × PbcValue)
  | .keyed c => some c
  | .unkeyed _ _ _ => none

/-- Of calls with a key nothing is left out. -/
@[simp] theorem filterMap_keyed (cs : List (Field × PbcValue)) :
    (cs.map DecoderCall.keyed).filterMap DecoderCall.value = cs := by
  rw [List.filterMap_map]
  exact List.filterMap_some

/-- `call_unknown` -/
def callUnknown (a : Atom) (memory : Bytes) : Option DecoderCall :=
  match a.wiretype with
  | 0 => some (.unkeyed a.id .int (.i ⟨a.low, a.hi⟩))
  | 1 => some (.unkeyed a.id .fixed64 (.i ⟨a.low, a.hi⟩))
  | 2 => some (.unkeyed a.id .bytes (.s (a.slice memory)))
  | 5 => some (.unkeyed a.id .fixed32 (.i ⟨a.low, 0⟩))
  | _ => none

/-- A field on the wire that the message does not have comes to a call without a key. -/
theorem exists_callUnknown {g : WireField} (hg : g.Numbered) (start : ℕ) (memory : Bytes) :
    ∃ id type v, callUnknown (g.atom start) memory = some (.unkeyed id type v) := by
  unfold callUnknown
  rw [WireField.wiretype_atom hg]
  cases g.value <;> exact ⟨_, _, _, rfl⟩

/-- The calls for a field, and whether there is no error.  Whether a packed field is encoded as a
string is not checked: of another one the two words are taken for the start and the end of the
array. -/
def callField (types : PbcTypes) (m : PbcMessage) (memory : Bytes) (a : Atom) :
    Opened (List DecoderCall × Bool) :=
  match m.fieldOf a.id with
  | none => .ok ((callUnknown a memory).elim ([], false) fun c => ([c], true))
  | some f =>
    if f.label = .packed then
      (callArray types f memory a.low.toInt (a.hi - a.low).toInt).map fun (vs, ok) =>
        ((vs.map (f, ·)).map .keyed, ok)
    else .ok ((callType types f a memory).elim ([], false) fun v => ([.keyed (f, v)], true))

/-- The loop of `pbc_decode`: the calls, and whether there is no error. -/
def callFields (types : PbcTypes) (m : PbcMessage) (memory : Bytes) :
    List Atom → Opened (List DecoderCall × Bool)
  | [] => .ok ([], true)
  | a :: as =>
    (callField types m memory a).bind fun (cs, ok) =>
      if ok then (callFields types m memory as).map fun (ds, ok) => (cs ++ ds, ok)
      else .ok (cs, false)

/-- Behind a field without an error the loop goes on. -/
theorem callFields_cons_of_ok {types : PbcTypes} {m : PbcMessage} {memory : Bytes} {a : Atom}
    {cs : List DecoderCall} (h : callField types m memory a = .ok (cs, true)) (as : List Atom) :
    callFields types m memory (a :: as) =
      (callFields types m memory as).map fun (ds, ok) => (cs ++ ds, ok) := by
  rw [callFields, h]
  rfl

/-- `pbc_decode` of a slice with some bytes behind it in memory: the calls, and whether there is
no error. -/
def pbcDecodeCalls (types : PbcTypes) (typeName : String) (slice behind : Bytes) :
    Opened (List DecoderCall × Bool) :=
  match types.msgs typeName with
  | none => .ok ([], false)
  | some msg =>
    if slice.length = 0 then .ok ([], true)
    else
      match pbcCOpen slice with
      | .ok atoms => callFields types msg (slice ++ behind) atoms
      | .failed => .ok ([], false)
      | .undefined => .undefined

/-- The calls with a key. -/
def keyedCalls (x : Opened (List DecoderCall × Bool)) : Opened (List (Field × PbcValue) × Bool) :=
  x.map fun (cs, ok) => (cs.filterMap DecoderCall.value, ok)

/-- `pbc_decode` of a string of Lua, which ends with a 0: the values of known fields, and whether
there is no error.  `decode_cb` returns at once from calls without a key. -/
def pbcDecode (types : PbcTypes) (typeName : String) (slice : Bytes) :
    Opened (List (Field × PbcValue) × Bool) :=
  keyedCalls (pbcDecodeCalls types typeName slice [0])

/-! ## Arrays -/

/-- Whole numbers are read from the array alone. -/
theorem varints_reaches {budget size : ℕ} {b : Bytes} {vs : List LongLong}
    (h : varints budget size b = .ok (vs, true)) :
    size ≤ b.length ∧ ∀ x, varints budget size (b.take size ++ x) = .ok (vs, true) := by
  induction budget generalizing size b vs with
  | zero =>
    cases size with
    | zero => exact ⟨Nat.zero_le _, fun _ => h⟩
    | succ size => cases h
  | succ budget ih =>
    cases size with
    | zero => exact ⟨Nat.zero_le _, fun _ => h⟩
    | succ size =>
      rw [varints] at h
      cases hv : pbcVDecode b with
      | none =>
        rw [hv] at h
        cases h
      | some p =>
        obtain ⟨v, len⟩ := p
        obtain ⟨hpos, hlen, -, hall⟩ := pbcVDecode_reaches hv
        simp only [hv] at h
        split_ifs at h with hcut
        · cases h
        obtain ⟨⟨ws, ok⟩, hrest, heq⟩ := Opened.map_eq_ok h
        cases heq
        obtain ⟨hle, hall'⟩ := ih hrest
        rw [List.length_drop] at hle
        refine ⟨by omega, fun x => ?_⟩
        have hsplit := take_take_append (b := b) (x := x) (show len ≤ size + 1 by omega)
        have hdrop := drop_take_append (b := b) (x := x) (show len ≤ size + 1 by omega) (by omega)
        have hdecode : pbcVDecode (b.take (size + 1) ++ x) = some (v, len) := hsplit ▸ hall _
        rw [varints, hdecode]
        simp only [if_neg hcut, hdrop, hall' x]
        rfl

theorem callWords_inside {width : ℕ} {values : Bytes → List PbcValue} {s : Bytes}
    {vs : List PbcValue} (h : callWords width values s 0 s.length = .ok (vs, true))
    (pre rest : Bytes) :
    callWords width values (pre ++ s ++ rest) pre.length s.length = .ok (vs, true) := by
  unfold callWords at h ⊢
  have hslice : Memory.slice (pre ++ s ++ rest) pre.length s.length = s := by
    rw [Memory.slice, List.append_assoc, List.drop_left, List.take_left]
  have hself : Memory.slice s 0 s.length = s := Memory.slice_self s
  have hfit : (0 : ℤ) ≤ pre.length ∧ (pre.length : ℤ) + s.length ≤ (pre ++ s ++ rest).length := by
    simp only [List.length_append]
    omega
  split_ifs at h ⊢ with hmod hempty hfit'
  · cases h
  · exact h
  · simpa only [Int.toNat_natCast, Int.toNat_zero, hslice, hself] using h

theorem callVarints_inside {value : LongLong → PbcValue} {s : Bytes} {vs : List PbcValue}
    (h : callVarints value s 0 s.length = .ok (vs, true)) (pre rest : Bytes) :
    callVarints value (pre ++ s ++ rest) pre.length s.length = .ok (vs, true) := by
  unfold callVarints at h ⊢
  split_ifs at h ⊢ with hempty hstart
  · exact h
  · obtain ⟨⟨ws, ok⟩, hws, heq⟩ := Opened.map_eq_ok h
    cases heq
    simp only [Int.toNat_natCast, Int.toNat_zero, List.drop_zero] at hws ⊢
    have hall := (varints_reaches hws).2 rest
    rw [List.take_length] at hall
    rw [List.append_assoc, List.drop_left, hall]
    rfl
  · omega

/-- An array is read in a message as it is by itself. -/
theorem callArray_inside {types : PbcTypes} {f : Field} {s : Bytes} {vs : List PbcValue}
    (h : callArray types f s 0 s.length = .ok (vs, true)) (pre rest : Bytes) :
    callArray types f (pre ++ s ++ rest) pre.length s.length = .ok (vs, true) := by
  unfold callArray at h ⊢
  cases ht : f.type <;> rw [ht] at h <;>
    first
      | exact callWords_inside h pre rest
      | exact callVarints_inside h pre rest
      | cases h

/-! ## Fields of one name -/

/-- All values of a name are values of one field. -/
def SameField (cs : List (Field × PbcValue)) : Prop :=
  ∀ c ∈ cs, ∀ d ∈ cs, c.1.name = d.1.name → c.1 = d.1

/-- Every value is one of a field of the message. -/
def FieldsOf (m : PbcMessage) (cs : List (Field × PbcValue)) : Prop :=
  ∀ c ∈ cs, ∃ id, m.fieldOf id = some c.1

theorem FieldsOf.sameField {m : PbcMessage} {cs : List (Field × PbcValue)} (h : FieldsOf m cs) :
    SameField cs := by
  intro c hc d hd hname
  obtain ⟨id, hid⟩ := h c hc
  obtain ⟨id', hid'⟩ := h d hd
  exact PbcMessage.eq_of_name_eq hid hid' hname

theorem fieldsOf_append {m : PbcMessage} {cs ds : List (Field × PbcValue)} (hcs : FieldsOf m cs)
    (hds : FieldsOf m ds) : FieldsOf m (cs ++ ds) := by
  intro c hc
  exact (List.mem_append.1 hc).elim (hcs c) (hds c)

/-- Values of one field. -/
theorem fieldsOf_map {m : PbcMessage} {id : ℤ} {f : Field} (hf : m.fieldOf id = some f)
    (vs : List PbcValue) : FieldsOf m (vs.map (f, ·)) := by
  intro c hc
  obtain ⟨v, -, rfl⟩ := List.mem_map.1 hc
  exact ⟨id, hf⟩

theorem fieldsOf_callField {types : PbcTypes} {m : PbcMessage} {memory : Bytes} {a : Atom}
    {cs : List DecoderCall} {ok : Bool} (h : callField types m memory a = .ok (cs, ok)) :
    FieldsOf m (cs.filterMap DecoderCall.value) := by
  unfold callField at h
  cases hf : m.fieldOf a.id with
  | none =>
    simp only [hf] at h
    unfold callUnknown at h
    split at h <;> cases h <;> simp [FieldsOf, DecoderCall.value]
  | some f =>
    simp only [hf] at h
    split_ifs at h with hpacked
    · obtain ⟨⟨vs, went⟩, -, h⟩ := Opened.map_eq_ok h
      cases h
      rw [filterMap_keyed]
      exact fieldsOf_map hf vs
    · cases hv : callType types f a memory with
      | none =>
        rw [hv] at h
        cases h
        simp [FieldsOf]
      | some v =>
        rw [hv] at h
        cases h
        exact fieldsOf_map hf [v]

theorem fieldsOf_callFields {types : PbcTypes} {m : PbcMessage} {memory : Bytes} {as : List Atom}
    {cs : List DecoderCall} {ok : Bool} (h : callFields types m memory as = .ok (cs, ok)) :
    FieldsOf m (cs.filterMap DecoderCall.value) := by
  induction as generalizing cs ok with
  | nil =>
    cases h
    simp [FieldsOf]
  | cons a as ih =>
    rw [callFields] at h
    obtain ⟨⟨ds, went⟩, hds, h⟩ := Opened.bind_eq_ok h
    have hfields := fieldsOf_callField hds
    cases went with
    | true =>
      obtain ⟨rest, hrest, h⟩ := Opened.map_eq_ok h
      cases h
      rw [List.filterMap_append]
      exact fieldsOf_append hfields (ih hrest)
    | false =>
      cases h
      exact hfields

theorem sameField_pbcDecode {types : PbcTypes} {typeName : String} {slice : Bytes}
    {cs : List (Field × PbcValue)} {ok : Bool} (h : pbcDecode types typeName slice = .ok (cs, ok)) :
    SameField cs := by
  obtain ⟨⟨ds, ok⟩, h, heq⟩ := Opened.map_eq_ok h
  cases heq
  unfold pbcDecodeCalls at h
  split at h
  · cases h
    simp [SameField]
  next msg hmsg =>
    split_ifs at h
    · cases h
      simp [SameField]
    · split at h
      next atoms hatoms => exact (fieldsOf_callFields h).sameField
      · cases h
        simp [SameField]
      · cases h

end SockTestProgram
