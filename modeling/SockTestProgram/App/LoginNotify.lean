import SockTestProgram.App.Messages
import SockTestProgram.App.ConnectHandler

/-!
# The answer to a login

From the bytes of a `ResponseLogin` to the branch that `onLoginNotify` of `app/ConnectHandler.lua`
takes.  A number of `exception` that has no name in `ExceptionType` is decoded to nil, so that the
field is missing from the table, and the default takes its place: the client takes such an answer
for `ET_OK` (`takenRightly_iff`).
-/

namespace SockTestProgram

/-! ## The field `exception` -/

/-- What the default message of a type holds in a field of an enumeration: `pbc_rmessage_string`
of a field that is not there, with the default that `set_field_one` has entered. -/
def PbcTypes.enumDefault (types : PbcTypes) (f : Field) : Option String :=
  (types.enums f.typeName).bind fun e =>
    if f.defaultValue.isEmpty then e.values.head?.map Prod.fst
    else (e.number f.defaultValue).bind e.name

namespace Proto

/-- `decoded.exception` -/
def exceptionOf (h : LuaHeap) (decoded : ℕ) : Option FieldValue :=
  match access types h decoded "exception" with
  | some (_, .value v) => some v
  | some (_, .default typeName field) =>
    (types.msgs typeName).bind fun m =>
      (m.fields.find? (·.name = field)).bind fun f =>
        (types.enumDefault f).map fun name => .one (.name name)
  | _ => none

/-- `protobuf.decode` of an answer to a login, and what the handlers read of the message.  A
field of an enumeration holds a name. -/
def decodeLogin (h : LuaHeap) (payload : Bytes) : Decoded LuaMessage :=
  match protobufDecode types h "ResponseLogin" payload with
  | .ok (h', some decoded) =>
    match exceptionOf h' decoded with
    | some (.one (.name exception)) => .message ⟨[], exception⟩
    | _ => .error
  | .ok (_, none) => .false
  | _ => .error

end Proto

/-- The branches of `onLoginNotify`. -/
inductive LoginBranch
  | createPlayer
  | failed
  | ok
  | other
  deriving DecidableEq, Repr

def loginBranch (decoded : LuaMessage) : LoginBranch :=
  if "ET_NO_DATA" = decoded.exception then .createPlayer
  else if "ET_FAIL" = decoded.exception then .failed
  else if "ET_OK" = decoded.exception then .ok
  else .other

/-- In its first branch the handler asks for a player to be created, and it does nothing in the
others. -/
theorem onLoginNotify_eq (P : Platform) (packCmd : Request → Bytes) (w : World)
    (decoded : LuaMessage) :
    ConnectorHandler.onLoginNotify P packCmd w decoded =
      if loginBranch decoded = .createPlayer then
        .command w
          (NetworkCmd.createPlayer P packCmd w Model.isAnonymous Model.deviceID Model.userName)
      else .done w := by
  unfold ConnectorHandler.onLoginNotify loginBranch
  by_cases hdata : "ET_NO_DATA" = decoded.exception
  · simp [hdata]
  · rw [if_neg hdata, if_neg hdata]
    split_ifs <;> simp_all

/-! ## Answers -/

/-- An answer to a login, as the server encodes it.  Its fields may come in any order and more
than once, and there may be others. -/
structure ResponseLogin where
  fields : List WireField
  numbered : ∀ f ∈ fields, f.Numbered
  exception : ∀ f ∈ fields, f.id = 1 → ∃ n, f.value = .varint n
  token : ∀ f ∈ fields, f.id = 2 → ∃ s, f.value = .lend s
  size : (encodeFields fields).length < 2 ^ 31

/-- The number in a field `exception`, of 32 bits. -/
def WireField.exceptionNumber (f : WireField) : Option (BitVec 32) :=
  if f.id = 1 then
    match f.value with
    | .varint n => some (n.setWidth 32)
    | _ => none
  else none

namespace ResponseLogin

def payload (m : ResponseLogin) : Bytes := encodeFields m.fields

/-- The number of the exception on the wire, if there is one; the last one counts. -/
def number (m : ResponseLogin) : Option ℤ :=
  (m.fields.filterMap WireField.exceptionNumber).getLast?.map BitVec.toInt

end ResponseLogin

/-- `ExceptionType` -/
def exceptionEnum : PbcEnum := ⟨Proto.exceptionType.value⟩

theorem enums_exceptionType : Proto.types.enums "ExceptionType" = some exceptionEnum := by
  decide +kernel

/-- The value that a field `exception` is decoded to. -/
def exceptionValue (w : BitVec 32) : Field × PbcValue :=
  (Proto.exceptionField, .e w (exceptionEnum.name w.toInt))

theorem enumName_exceptionField (w : BitVec 32) :
    Proto.types.enumName Proto.exceptionField w = exceptionEnum.name w.toInt := by
  unfold PbcTypes.enumName
  rw [show Proto.exceptionField.typeName = "ExceptionType" from rfl, enums_exceptionType]
  rfl

theorem fieldOf_responseLogin (id : ℤ) :
    Proto.responseLogin.fieldOf id =
      if id = 1 then some Proto.exceptionField
      else if id = 2 then some ⟨2, "token", .string, .required, "", ""⟩ else none := by
  have h₁ : Proto.exceptionField.id = 1 := rfl
  unfold PbcMessage.fieldOf Proto.responseLogin
  by_cases hid : id = 1
  · simp [hid, h₁]
  · by_cases hid' : id = 2
    · simp [hid', h₁]
    · simp [Ne.symm hid, Ne.symm hid', hid, hid', h₁]

theorem callType_exceptionField {f : WireField} {n : BitVec 64} (hn : f.value = .varint n)
    (start : ℕ) (buffer : Bytes) :
    callType Proto.types Proto.exceptionField (f.atom start) buffer =
      some (exceptionValue (n.setWidth 32)).2 := by
  have hlow : (f.atom start).low = n.setWidth 32 := by
    rw [WireField.atom, hn, WireField.valueAtom]
    exact BitVec.ofNat_toNat 32 n
  show some (PbcValue.e _ (Proto.types.enumName Proto.exceptionField _)) = _
  rw [enumName_exceptionField, hlow]
  rfl

/-- A field is decoded to its number, to a call for another field, or to one without a key. -/
theorem callField_responseLogin (memory : Bytes) {f : WireField} (hnumbered : f.Numbered)
    (hexception : f.id = 1 → ∃ n, f.value = .varint n) (htoken : f.id = 2 → ∃ s, f.value = .lend s)
    (start : ℕ) :
    ∃ cs, callField Proto.types Proto.responseLogin memory (f.atom start) = .ok (cs, true) ∧
      valuesOf (cs.filterMap DecoderCall.value) "exception" =
        f.exceptionNumber.toList.map exceptionValue := by
  have hid₁ : (f.atom start).id = 1 ↔ f.id = 1 :=
    WireField.id_atom_eq_iff hnumbered start (k := 1) (by decide)
  have hid₂ : (f.atom start).id = 2 ↔ f.id = 2 :=
    WireField.id_atom_eq_iff hnumbered start (k := 2) (by decide)
  rw [callField, fieldOf_responseLogin]
  simp only [hid₁, hid₂]
  by_cases h₁ : f.id = 1
  · obtain ⟨n, hn⟩ := hexception h₁
    have hnumber : f.exceptionNumber = some (n.setWidth 32) := by
      rw [WireField.exceptionNumber, if_pos h₁, hn]
    rw [if_pos h₁, hnumber]
    simp only [callType_exceptionField hn]
    exact ⟨[.keyed (exceptionValue (n.setWidth 32))], rfl, rfl⟩
  · have hnumber : f.exceptionNumber = none := by rw [WireField.exceptionNumber, if_neg h₁]
    rw [if_neg h₁, hnumber]
    by_cases h₂ : f.id = 2
    · obtain ⟨s, hs⟩ := htoken h₂
      have hwiretype : (f.atom start).wiretype = 2 := by
        rw [WireField.wiretype_atom hnumbered, hs]
        rfl
      rw [if_pos h₂]
      simp only [callType, hwiretype, if_true]
      exact ⟨_, rfl, rfl⟩
    · obtain ⟨id, type, v, hcall⟩ := exists_callUnknown hnumbered start memory
      rw [if_neg h₂]
      simp only [hcall]
      exact ⟨_, rfl, rfl⟩

/-- The fields are decoded one after another. -/
theorem callFields_responseLogin (memory : Bytes) {fs : List WireField}
    (hnumbered : ∀ f ∈ fs, f.Numbered) (hexception : ∀ f ∈ fs, f.id = 1 → ∃ n, f.value = .varint n)
    (htoken : ∀ f ∈ fs, f.id = 2 → ∃ s, f.value = .lend s) (start : ℕ) :
    ∃ cs, callFields Proto.types Proto.responseLogin memory (atomsFrom start fs) = .ok (cs, true) ∧
      valuesOf (cs.filterMap DecoderCall.value) "exception" =
        (fs.filterMap WireField.exceptionNumber).map exceptionValue := by
  induction fs generalizing start with
  | nil => exact ⟨[], rfl, rfl⟩
  | cons f fs ih =>
    obtain ⟨cs, hcs, hvalues⟩ := callField_responseLogin memory (hnumbered f (by simp))
      (hexception f (by simp)) (htoken f (by simp)) start
    obtain ⟨ds, hds, hvalues'⟩ := ih (fun g hg => hnumbered g (by simp [hg]))
      (fun g hg => hexception g (by simp [hg])) (fun g hg => htoken g (by simp [hg]))
      (start + f.encode.length)
    refine ⟨cs ++ ds, ?_, ?_⟩
    · rw [atomsFrom, callFields_cons_of_ok hcs, hds]
      rfl
    · rw [List.filterMap_append, valuesOf_append, hvalues, hvalues', ← List.map_append,
        List.filterMap_cons]
      cases f.exceptionNumber <;> rfl

namespace ResponseLogin

/-- The name that the exception of an answer is taken for. -/
def exceptionName (m : ResponseLogin) : String := (m.number.bind exceptionEnum.name).getD "ET_OK"

theorem pbcDecode_payload (m : ResponseLogin) :
    ∃ cs, pbcDecode Proto.types "ResponseLogin" m.payload = .ok (cs, true) ∧
      valuesOf cs "exception" =
        (m.fields.filterMap WireField.exceptionNumber).map exceptionValue := by
  have hmsg : Proto.types.msgs "ResponseLogin" = some Proto.responseLogin := rfl
  unfold pbcDecode pbcDecodeCalls
  simp only [hmsg]
  by_cases hlength : m.payload.length = 0
  · rw [if_pos hlength, encodeFields_eq_nil hlength]
    exact ⟨[], rfl, rfl⟩
  · obtain ⟨cs, hcs, hvalues⟩ :=
      callFields_responseLogin (m.payload ++ [0]) m.numbered m.exception m.token 0
    rw [if_neg hlength]
    simp only [payload, pbcCOpen_encodeFields m.numbered m.size] at hcs ⊢
    rw [hcs]
    exact ⟨_, rfl, hvalues⟩

/-- The field of the table: the name of the last number, and nothing if it has no name. -/
theorem stored_exception {h : LuaHeap} (m : ResponseLogin) {fv : FieldValue}
    (hs : Stored h ((m.fields.filterMap WireField.exceptionNumber).map exceptionValue) fv) :
    fv = (m.number.bind exceptionEnum.name).elim .nil fun name => .one (.name name) := by
  unfold Stored at hs
  rw [List.getLast?_map] at hs
  unfold number
  cases hlast : (m.fields.filterMap WireField.exceptionNumber).getLast? with
  | none =>
    rw [hlast] at hs
    exact hs
  | some w =>
    rw [hlast] at hs
    have hrep : (exceptionValue w).1.isRepeated = false := rfl
    have hmessage : ¬ IsMessage (exceptionValue w) := by
      simp [IsMessage, exceptionValue]
    simp only [Option.map_some, hrep, Bool.false_eq_true, if_false] at hs
    simp only [Option.map_some, Option.bind_some]
    cases hname : exceptionEnum.name w.toInt with
    | none =>
      rw [if_pos (by simp [exceptionValue, hname, PbcValue.unknown])] at hs
      exact hs
    | some name =>
      rw [if_neg (by simp [exceptionValue, hname, PbcValue.unknown])] at hs
      obtain ⟨v, rfl, hv⟩ := hs
      rw [((shows_scalar hmessage).1 hv).1]
      simp [exceptionValue, hname, pushScalar]

/-- What the handlers read of an answer. -/
theorem decodeLogin_payload (h : LuaHeap) (m : ResponseLogin) :
    Proto.decodeLogin h m.payload = .message ⟨[], m.exceptionName⟩ := by
  obtain ⟨cs, hdecode, hvalues⟩ := m.pbcDecode_payload
  have hdefault : ((Proto.types.msgs "ResponseLogin").bind fun msg =>
      (msg.fields.find? (·.name = "exception")).bind fun f =>
        (Proto.types.enumDefault f).map fun name => FieldValue.one (.name name)) =
      some (.one (.name "ET_OK")) := by decide +kernel
  let ret : MessageTable := ⟨"ResponseLogin", m.payload, false, false, fun _ => .nil, none⟩
  let filled := cs.foldl decodeCb (h ++ [ret], ret.fields)
  let decoded : MessageTable :=
    { ret with fields := filled.2, metatable := some (.default "ResponseLogin") }
  have hreturned : protobufDecode Proto.types h "ResponseLogin" m.payload =
      .ok (filled.1.set h.length decoded, some h.length) := by
    rw [protobufDecode, hdecode]
    rfl
  have hget : (filled.1.set h.length decoded)[h.length]? = some decoded := by
    apply List.getElem?_set_self
    obtain ⟨new, hheap, -⟩ := foldl_decodeCb_fresh cs (h ++ [ret]) ret.fields
    have hfilled : filled.1 = h ++ [ret] ++ new := hheap
    rw [hfilled, List.length_append, List.length_append, List.length_singleton]
    omega
  have hfield : decoded.fields "exception" =
      (m.number.bind exceptionEnum.name).elim .nil fun name => .one (.name name) := by
    apply m.stored_exception (h := filled.1)
    rw [← hvalues]
    exact stored_foldl (sameField_pbcDecode hdecode) "exception"
  have hexception : Proto.exceptionOf (filled.1.set h.length decoded) h.length =
      some (.one (.name m.exceptionName)) := by
    unfold Proto.exceptionOf access exceptionName
    simp only [hget, hfield]
    cases hname : m.number.bind exceptionEnum.name with
    | none => exact hdefault
    | some name => rfl
  simp only [Proto.decodeLogin, hreturned, hexception]

/-- The event of an answer, as the pump puts it in the queue. -/
theorem eventOf_payload {decode : String → Bytes → Decoded LuaMessage} (h : LuaHeap)
    (m : ResponseLogin)
    (hdecode : decode "ResponseLogin" m.payload = Proto.decodeLogin h m.payload) :
    eventOf Proto.toID decode (Proto.toID "ResponseLogin") m.payload =
      some (ModelEvent.loginNotify, [⟨[], m.exceptionName⟩]) := by
  have hfind : (distributeRules Proto.toID).find?
      (·.typeCode = Proto.toID "ResponseLogin") =
      some (makeRule Proto.toID "ResponseLogin" ModelEvent.loginNotify) := by decide
  have hproto : decode (makeRule Proto.toID "ResponseLogin" ModelEvent.loginNotify).proto
      m.payload =
      .message ⟨[], m.exceptionName⟩ := by
    show decode "ResponseLogin" m.payload = _
    rw [hdecode, m.decodeLogin_payload h]
  unfold eventOf
  rw [hfind, Option.bind_some, Rule.decoded, hproto]
  rfl

/-- What the handlers do about an answer is right: only one without an exception or with the
number of `ET_OK` is a login, and a player is created only for the number of `ET_NO_DATA`. -/
def TakenRightly (h : LuaHeap) (m : ResponseLogin) : Prop :=
  ∀ decoded, Proto.decodeLogin h m.payload = .message decoded →
    (loginBranch decoded = .ok → m.number = none ∨ m.number = exceptionEnum.number "ET_OK") ∧
      (loginBranch decoded = .createPlayer → m.number = exceptionEnum.number "ET_NO_DATA")

theorem number_of_name {n : ℤ} {name : String} (h : exceptionEnum.name n = some name) :
    exceptionEnum.number name = some n := by
  have hmem : (name, n) ∈ exceptionEnum.values := by
    obtain ⟨p, hp, rfl⟩ := Option.map_eq_some_iff.1 h
    have hn : p.2 = n := by simpa using List.find?_some hp
    rw [← hn]
    exact List.mem_of_find?_eq_some hp
  have hall : ∀ p ∈ exceptionEnum.values, exceptionEnum.number p.1 = some p.2 := by decide
  exact hall _ hmem

theorem loginBranch_eq_ok_iff (decoded : LuaMessage) :
    loginBranch decoded = .ok ↔ decoded.exception = "ET_OK" := by
  unfold loginBranch
  constructor
  · intro h
    split_ifs at h with _ _ hok
    exact hok.symm
  · intro h
    rw [h]
    decide

theorem loginBranch_eq_createPlayer_iff (decoded : LuaMessage) :
    loginBranch decoded = .createPlayer ↔ decoded.exception = "ET_NO_DATA" := by
  unfold loginBranch
  constructor
  · intro h
    split_ifs at h with hdata
    exact hdata.symm
  · intro h
    rw [h]
    decide

/-- **Unknown exceptions.**  What is done about an answer is right exactly if it has no exception
or its number has a name. -/
theorem takenRightly_iff (h : LuaHeap) (m : ResponseLogin) :
    m.TakenRightly h ↔ ∀ n, m.number = some n → (exceptionEnum.name n).isSome = true := by
  unfold TakenRightly
  rw [m.decodeLogin_payload h]
  simp only [Decoded.message.injEq, forall_eq', loginBranch_eq_ok_iff,
    loginBranch_eq_createPlayer_iff, exceptionName]
  cases hnumber : m.number with
  | none => simp
  | some n =>
    cases hname : exceptionEnum.name n with
    | none =>
      -- the default `ET_OK` has taken the place of the number
      have hne : exceptionEnum.number "ET_OK" ≠ some n := by
        intro heq
        obtain rfl : (0 : ℤ) = n := Option.some.inj (by rw [← heq]; decide)
        exact absurd hname (by decide)
      simp [hname, Ne.symm hne]
    | some name =>
      have hof := number_of_name hname
      simp only [Option.bind_some, hname, Option.getD_some]
      refine iff_of_true ⟨?_, ?_⟩ ?_
      · rintro rfl
        exact .inr hof.symm
      · rintro rfl
        exact hof.symm
      · intro k hk
        obtain rfl := Option.some.inj hk
        simp [hname]

/-- The fields of an answer with this exception and an empty token; a negative number is encoded
with 64 bits. -/
def fieldsOf (x : Option (BitVec 32)) : List WireField :=
  (x.map fun w => (⟨1, .varint (w.signExtend 64)⟩ : WireField)).toList ++ [⟨2, .lend []⟩]

theorem length_fieldsOf (x : Option (BitVec 32)) : (encodeFields (fieldsOf x)).length < 2 ^ 31 := by
  have htoken : (⟨2, .lend []⟩ : WireField).encode.length = 2 := by
    rw [WireField.length_encode, WireField.tag, WireValue.wiretype, WireValue.encode]
    simp [Varint.encode_of_lt]
  cases x with
  | none => simp [fieldsOf, encodeFields, htoken]
  | some w =>
    have hnumber : (Varint.encode (w.signExtend 64).toNat).length ≤ 10 :=
      Varint.length_encode_le (lt_trans (BitVec.isLt _) (by decide))
    have htag : (⟨1, .varint (w.signExtend 64)⟩ : WireField).encode.length ≤ 11 := by
      have hsmall : 8 * 1 + 0 < 128 := by decide
      rw [WireField.length_encode, WireField.tag, WireValue.wiretype, WireValue.encode]
      show (Varint.encode (8 * 1 + 0)).length + (Varint.encode _).length ≤ 11
      rw [Varint.encode_of_lt hsmall, List.length_singleton]
      omega
    simp only [fieldsOf, Option.map_some, Option.toList_some, List.singleton_append, encodeFields,
      List.flatMap_cons, List.flatMap_nil, List.length_append, List.length_nil, htoken]
    omega

/-- An answer with any exception, or with none. -/
def ofException (x : Option (BitVec 32)) : ResponseLogin where
  fields := fieldsOf x
  numbered := by cases x <;> simp [fieldsOf, WireField.Numbered]
  exception := by cases x <;> simp [fieldsOf]
  token := by cases x <;> simp [fieldsOf]
  size := length_fieldsOf x

theorem number_ofException (x : Option (BitVec 32)) :
    (ofException x).number = x.map BitVec.toInt := by
  cases x with
  | none => rfl
  | some w =>
    have hw : (w.signExtend 64).setWidth 32 = w := by
      ext i hi
      have hi' : i < 64 := by omega
      simp [BitVec.getElem_signExtend, hi, hi']
    simp [number, ofException, fieldsOf, WireField.exceptionNumber, hw]

/-- The number 6 has no name, and the answer is taken for a login. -/
theorem unknown_exception_is_login :
    ¬ (ofException (some 6)).TakenRightly [] ∧ (ofException (some 6)).number = some 6 ∧
      exceptionEnum.name 6 = none ∧
      ∃ decoded, Proto.decodeLogin [] (ofException (some 6)).payload = .message decoded ∧
        loginBranch decoded = .ok := by
  have hnumber : (ofException (some 6)).number = some 6 := number_ofException (some 6)
  have hname : exceptionEnum.name 6 = none := by decide
  have hdecode := decodeLogin_payload [] (ofException (some 6))
  have hlogin : (ofException (some 6)).exceptionName = "ET_OK" := by
    rw [exceptionName, hnumber, Option.bind_some, hname, Option.getD_none]
  rw [hlogin] at hdecode
  refine ⟨fun hright => ?_, hnumber, hname, _, hdecode, by decide⟩
  have hok := (hright _ hdecode).1 (by decide)
  rw [hnumber] at hok
  exact absurd hok (by decide)

end ResponseLogin

end SockTestProgram
