import SockTestProgram.Pbc.Expansion
import SockTestProgram.Pbc.RoundTrip

/-!
# Messages from Lua tables

`encode` of `protobuf.lua`, with the functions of `pbc-lua.c` that it calls, of tables whose fields
are numbers, booleans, strings, or arrays of these.  What is encoded is read again as it was in the
table, from the table that `decode` makes of it or from its default message
(`protobufDecode_protobufEncode`).

Messages inside a table are left out, and so is what Lua converts: a number to a string and back, a
number with a fraction to an integer, and an integer to a real.
-/

open Lts Memory

namespace SockTestProgram

/-! ## `encode` -/

/-- The number of a Lua integer, for `luaL_checkinteger` and a cast to `int`. -/
def LongLong.ofInt (n : ℤ) : LongLong :=
  let low := BitVec.ofInt 32 n
  ⟨low, if low.toInt < 0 then -1 else 0⟩

/-- The call that a function of `_writer` makes for a value, on the message that is encoded;
`none` where an error is raised. -/
def writerCall (types : PbcTypes) (f : Field) (key : String) (v : MessageValue) :
    Option WriteCall :=
  match f.type, v with
  | .int32, .number n | .sint32, .number n => some (.integer 0 key (.ofInt n))
  | .bool, v => some (.integer 0 key ⟨if v = .boolean false then 0 else 1, 0⟩)
  | .int64, .number n | .sint64, .number n => some (.integer 0 key (.ofBitVec (.ofInt 64 n)))
  | .uint32, .number n | .uint64, .number n =>
    if n < 0 then none else some (.integer 0 key (.ofBitVec (.ofInt 64 n)))
  | .fixed64, .fixed64 v | .sfixed64, .fixed64 v => some (.integer 0 key v)
  | .fixed32, .userdata low | .sfixed32, .userdata low => some (.integer 0 key ⟨low, 0⟩)
  | .double, .double v | .float, .double v => some (.real 0 key v)
  | .string, .string s | .bytes, .string s => some (.string 0 key s)
  | .enum, .name s => (WMessage.enumId types f (utf8 s)).map fun _ => .string 0 key (utf8 s)
  | _, _ => none

/-- The calls for a field of the table, of which `pairs` and `ipairs` return no nil.  Of a field
that is not repeated, an array is a value like others.  Under the key `_CType` the table of the
writers of a type holds a string. -/
def encodeField (types : PbcTypes) (msg : PbcMessage) (e : String × FieldValue) :
    Option (List WriteCall) :=
  if e.1 = "_CType" then none
  else
    (msg.query e.1).join.bind fun f =>
      match e.2 with
      | .one v => if f.isRepeated then none else (writerCall types f e.1 v).map ([·])
      | .array items =>
        if f.isRepeated then items.mapM (writerCall types f e.1)
        else if f.type = .bool then some [.integer 0 e.1 ⟨1, 0⟩]
        else none

/-- `encode_message`, of a table whose fields `pairs` returns in this order. -/
def encodeMessage (types : PbcTypes) (msg : PbcMessage) (t : List (String × FieldValue)) :
    Option (List WriteCall) :=
  (t.mapM (encodeField types msg)).map List.flatten

/-- `encode` without a function: the bytes, or `none` where an error is raised. -/
def protobufEncode (H : Heap UInt8) (R : Reals) (types : PbcTypes) (typeName : String)
    (t : List (String × FieldValue)) : Option Bytes :=
  (types.msgs typeName).bind fun msg =>
    (encodeMessage types msg t).bind fun calls =>
      (Writers.new H types typeName).bind fun ws =>
        (run (Writers.step H R types) ws calls).bind fun ws =>
          (Writers.buffer H R 1 ws 0).map Prod.snd

/-! ## Defaults -/

/-- A field of the default message, as the functions of `_reader` read it. -/
def DefaultValue.read (f : Field) : DefaultValue → MessageValue
  | .integer v => pushScalar f (.i v)
  | .s str => .string str
  | .e _ name => .string name

/-- The field of the default message. -/
def defaultField (R : Reals) (types : PbcTypes) (f : Field) : Option FieldValue :=
  if f.isRepeated then some (.array []) else (types.defaultV R f).map fun d => .one (d.read f)

/-- A field that a message has in its table of names, and that the tables of `protobuf.lua` do
not use themselves. -/
def PbcMessage.Ordinary (msg : PbcMessage) : Prop :=
  ∀ f ∈ msg.fields, stringHash f.name ≠ 0 ∧ f.name ≠ "_CObj" ∧ f.name ≠ "_CType"

/-- What an access comes to with the default messages, which hold `_CObj` and `_CType` for
themselves; `none` where it raised an error. -/
def readAccess (R : Reals) (types : PbcTypes) : Access → Option FieldValue
  | .value v => some v
  | .default typeName field =>
    if field = "_CObj" ∨ field = "_CType" then none
    else ((types.msgs typeName).bind fun m => (m.query field).join).bind (defaultField R types)
  | .raised => none

/-- `msg[field]` -/
def readField (R : Reals) (types : PbcTypes) (h : LuaHeap) (msg : ℕ) (field : String) :
    Option FieldValue :=
  (access types h msg field).bind fun (_, res) => readAccess R types res

/-! ## One value -/

variable {R : Reals} {types : PbcTypes} {f : Field} {key : String}

/-- The values that a field takes and gives back: integers in its range, of those of 64 bits the
ones that are doubles with all below them, booleans, and strings if its default is one of C. -/
def Field.Takes (f : Field) (v : MessageValue) : Prop :=
  match f.type, v with
  | .int32, .number n | .sint32, .number n => -2 ^ 31 ≤ n ∧ n < 2 ^ 31
  | .int64, .number n | .sint64, .number n => -2 ^ 53 ≤ n ∧ n ≤ 2 ^ 53
  | .uint32, .number n => 0 ≤ n ∧ n < 2 ^ 32
  | .uint64, .number n => 0 ≤ n ∧ n ≤ 2 ^ 53
  | .bool, .boolean _ => True
  | .string, .string _ => cString (utf8 f.defaultValue) = utf8 f.defaultValue
  | .bytes, .string _ => True
  | _, _ => False

theorem LongLong.hi_append_low (n : BitVec 64) : (ofBitVec n).hi ++ (ofBitVec n).low = n := by
  apply BitVec.eq_of_toNat_eq
  have hn := n.isLt
  rw [BitVec.toNat_append, ofBitVec, BitVec.toNat_setWidth, BitVec.toNat_setWidth,
    BitVec.toNat_ushiftRight, Nat.shiftRight_eq_div_pow,
      ← Nat.shiftLeft_add_eq_or_of_lt (Nat.mod_lt _ (by decide)), Nat.shiftLeft_eq]
  omega

theorem toNat_ofInt_of_nonneg {n : ℤ} (h₀ : 0 ≤ n) (h : n < 2 ^ 64) :
    (BitVec.ofInt 64 n).toNat = n := by
  obtain ⟨k, rfl⟩ := Int.eq_ofNat_of_zero_le h₀
  rw [BitVec.ofInt_natCast, BitVec.toNat_ofNat, Nat.mod_eq_of_lt (by omega)]

/-- The integer that is written for a value is read as the value, also where it is the default. -/
theorem exists_integer (R : Reals) (types : PbcTypes) (key : String) {v : MessageValue}
    (hv : f.Takes v) (hlend : f.type.isLend = false) :
    ∃ x w, writerCall types f key v = some (.integer 0 key x) ∧ integerWire f.type x = some w ∧
      pushScalar f (types.shown R f x) = v ∧ pushScalar f (.i x) = v := by
  unfold Field.Takes at hv
  unfold writerCall pushScalar PbcTypes.shown
  cases ht : f.type <;> rw [ht] at hlend hv <;> cases v <;> try exact hv.elim
  case int32.number n | sint32.number n =>
    have hn : (BitVec.ofInt 32 n).toInt = n := BitVec.toInt_ofInt_eq_self (by decide) hv.1 hv.2
    exact ⟨_, _, rfl, rfl, by simp [LongLong.ofInt, dezigzag32_zigzag32, hn],
      by simp [LongLong.ofInt, hn]⟩
  case int64.number n | sint64.number n =>
    have hn : (BitVec.ofInt 64 n).toInt = n :=
      BitVec.toInt_ofInt_eq_self (by decide) (le_trans (by decide) hv.1)
        (lt_of_le_of_lt hv.2 (by decide))
    exact ⟨_, _, rfl, rfl, by simp only [LongLong.hi_append_low, hn],
      by simp only [LongLong.hi_append_low, hn]⟩
  case uint64.number n =>
    have hn := toNat_ofInt_of_nonneg hv.1 (lt_of_le_of_lt hv.2 (by decide))
    exact ⟨_, _, if_neg (not_lt.2 hv.1), rfl, by simp only [LongLong.hi_append_low, hn],
      by simp only [LongLong.hi_append_low, hn]⟩
  case uint32.number n =>
    have hn := toNat_ofInt_of_nonneg hv.1 (by omega)
    have hhi : (LongLong.ofBitVec (.ofInt 64 n)).hi = 0 := by
      apply BitVec.eq_of_toNat_eq
      rw [LongLong.ofBitVec, BitVec.toNat_setWidth, BitVec.toNat_ushiftRight,
        Nat.shiftRight_eq_div_pow]
      show _ = 0
      omega
    have happend := LongLong.hi_append_low (.ofInt 64 n)
    refine ⟨_, _, if_neg (not_lt.2 hv.1), rfl, ?_, by simp only [happend, hn]⟩
    rw [hhi] at happend
    simp only [happend, hn]
  case bool.boolean b =>
    cases b
    · exact ⟨⟨0, 0⟩, _, rfl, rfl, rfl, rfl⟩
    · exact ⟨⟨1, 0⟩, _, rfl, rfl, rfl, rfl⟩
  all_goals cases hlend

/-! ## Values by their names -/

namespace Draft

variable {d : Draft}

/-- What is read of the field of a name. -/
def valuesAt (R : Reals) (types : PbcTypes) (d : Draft) (key : String) : List PbcValue :=
  (d.fields.filter (·.1.name = key)).map (fun v => types.read v.1 v.2) ++
    (d.packed key).elim [] fun p => (d.type.named key).elim [] fun f => p.data.map (types.shown R f)

theorem name_of_named {msg : PbcMessage} (hf : msg.named key = some f) : f.name = key := by
  simpa using List.find?_some hf

theorem valuesAt_push (R : Reals) (types : PbcTypes) (hf : d.type.named key = some f) (x : LongLong)
    (k : String) :
    (d.push f key x).valuesAt R types k =
      d.valuesAt R types k ++ if k = key then [types.shown R f x] else [] := by
  unfold valuesAt push
  split_ifs with hk
  · subst hk
    simp only [Function.update_self, hf, Option.elim_some]
    cases d.packed k with
    | none => simp [Packed.pushed]
    | some p => simp [Packed.pushed]
  · simp only [Function.update_of_ne hk, List.append_nil]

theorem Sound.packed_eq_none (h : d.Sound) (hf : d.type.named key = some f)
    (hpacked : f.label ≠ .packed) :
    d.packed key = none := by
  by_contra hsome
  obtain ⟨p, hp⟩ := Option.ne_none_iff_exists'.1 hsome
  obtain ⟨g, hg, hlabel, -⟩ := h.packed key p hp
  obtain rfl := Option.some.inj (hf.symm.trans hg)
  exact hpacked hlabel

theorem valuesAt_add (R : Reals) (types : PbcTypes) (h : d.Sound) (hf : d.type.named key = some f)
    (hpacked : f.label ≠ .packed) (w : WireValue) (k : String) :
    (d.add f (some w)).valuesAt R types k =
      d.valuesAt R types k ++ if k = key then [types.read f w] else [] := by
  have hname := name_of_named hf
  unfold valuesAt add
  split_ifs with hk
  · subst hk
    simp [h.packed_eq_none hf hpacked, List.filter_append, hname]
  · have hne : ¬ f.name = k := by
      rw [hname]
      exact Ne.symm hk
    simp [List.filter_append, hne]

end Draft

theorem exists_defaultV_integer (R : Reals) (types : PbcTypes) (henum : f.type ≠ .enum)
    (hlend : f.type.isLend = false) :
    ∃ x, types.defaultV R f = some (.integer x) := by
  have hstring : ¬ (f.type = .string ∨ f.type = .bytes) := by
    rintro (ht | ht) <;> rw [ht] at hlend <;> cases hlend
  unfold PbcTypes.defaultV
  rw [if_neg henum, if_neg hstring]
  by_cases hempty : f.defaultValue.isEmpty = true
  · exact ⟨_, if_pos hempty⟩
  · rw [if_neg hempty]
    unfold setDefault
    cases ht : f.type <;> rw [ht] at hlend <;> first | exact ⟨_, rfl⟩ | cases hlend

theorem defaultV_string (R : Reals) (types : PbcTypes) (ht : f.type = .string) :
    types.defaultV R f = some (.s (utf8 f.defaultValue)) := by
  unfold PbcTypes.defaultV setDefault
  simp only [ht, reduceCtorEq, if_false, true_or, if_true]
  by_cases hempty : f.defaultValue.isEmpty = true
  · have hnil : f.defaultValue = "" := by simpa using hempty
    have hutf8 : utf8 "" = [] := by decide +kernel
    rw [if_pos hempty, hnil, hutf8]
  · rw [if_neg hempty]

theorem defaultV_bytes (R : Reals) (types : PbcTypes) (ht : f.type = .bytes) :
    types.defaultV R f = some (.s []) := by
  unfold PbcTypes.defaultV setDefault
  simp only [ht, reduceCtorEq, if_false, or_true, if_true, ite_self]

theorem cString_length_eq {s : Bytes} (h : (cString s).length = s.length) : cString s = s :=
  (List.takeWhile_prefix _).eq_of_length h

/-- A string that is left out is the default. -/
theorem stringIsDefault_takes (R : Reals) (types : PbcTypes) {s : Bytes}
    (hv : f.Takes (.string s)) :
    ∃ isDefault, WMessage.stringIsDefault R types f s = some isDefault ∧
      (isDefault = true → (types.defaultV R f).map (DefaultValue.read f) = some (.string s)) := by
  unfold Field.Takes at hv
  unfold WMessage.stringIsDefault
  cases ht : f.type <;> rw [ht] at hv <;> try exact hv.elim
  · rw [defaultV_string R types ht]
    refine ⟨_, rfl, fun hdefault => ?_⟩
    obtain ⟨hlen, heq⟩ := of_decide_eq_true hdefault
    rw [hv] at heq
    have hs : cString s = s := cString_length_eq (by rw [heq, hlen])
    rw [← heq, hs]
    rfl
  · rw [defaultV_bytes R types ht]
    refine ⟨_, rfl, fun hdefault => ?_⟩
    rw [of_decide_eq_true hdefault]
    rfl

theorem exists_string (types : PbcTypes) (key : String) {v : MessageValue} (hv : f.Takes v)
    (hlend : f.type.isLend = true) :
    ∃ s, v = .string s ∧ writerCall types f key v = some (.string 0 key s) ∧
      Draft.stringWire types f s = some (.lend s) := by
  unfold Field.Takes at hv
  unfold writerCall Draft.stringWire
  cases ht : f.type <;> rw [ht] at hlend hv <;> try cases hlend
  all_goals cases v <;> first | exact hv.elim | exact ⟨_, rfl, rfl, rfl⟩

/-- A value is written and read as itself, or it is left out as the default. -/
theorem exists_call (R : Reals) (types : PbcTypes) {d : Draft} (hf : d.type.named key = some f)
    (hsound : d.Sound) (hpacked : f.label = .packed → f.type.isLend = false) {v : MessageValue}
    (hv : f.Takes v) :
    ∃ c d', writerCall types f key v = some c ∧ Drafts.step R types [d] c = some [d'] ∧
      ((∃ x, pushScalar f x = v ∧ x.unknown = false ∧
          ∀ k, d'.valuesAt R types k = d.valuesAt R types k ++ if k = key then [x] else []) ∨
        f.label = .optional ∧ d' = d ∧ (types.defaultV R f).map
          (DefaultValue.read f) = some v) := by
  cases hlend : f.type.isLend with
  | false =>
    obtain ⟨x, w, hcall, hw, hshown, hdefault⟩ := exists_integer R types key hv hlend
    have hread : types.read f w = types.shown R f x := PbcTypes.read_integerWire hw
    have hknown : (types.shown R f x).unknown = false := by
      cases hu : (types.shown R f x).unknown with
      | false => rfl
      | true =>
        rw [(pushScalar_eq_nil_iff f _).2 hu] at hshown
        rw [← hshown] at hv
        unfold Field.Takes at hv
        cases ht : f.type <;> rw [ht] at hv <;> exact hv.elim
    refine ⟨_, d.integer R types key x, hcall, rfl, ?_⟩
    unfold Draft.integer
    simp only [hf]
    split_ifs with hlabel hoptional
    · exact .inl ⟨_, hshown, hknown, d.valuesAt_push R types hf x⟩
    · have henum : f.type ≠ .enum := by
        intro ht
        unfold Field.Takes at hv
        rw [ht] at hv
        cases v <;> exact hv.elim
      obtain ⟨y, hy⟩ := exists_defaultV_integer R types henum hlend
      have hxy := hoptional.2
      rw [WMessage.integerIsDefault, hy] at hxy
      have hxy : x = y := by simpa using hxy
      refine .inr ⟨hoptional.1, rfl, ?_⟩
      rw [hy, Option.map_some, ← hxy, DefaultValue.read, hdefault]
    · rw [hw]
      refine .inl ⟨_, hshown, hknown, ?_⟩
      rw [← hread]
      exact d.valuesAt_add R types hsound hf hlabel w
  | true =>
    have hlabel : f.label ≠ .packed := fun h => by
      rw [hpacked h] at hlend
      cases hlend
    obtain ⟨s, rfl, hcall, hwire⟩ := exists_string types key hv hlend
    obtain ⟨isDefault, hdefault, hread⟩ := stringIsDefault_takes R types hv
    have hstep (d' : Draft) (hd' : d.string R types key s = some d') :
        Drafts.step R types [d] (.string 0 key s) = some [d'] := by
      simp only [Drafts.step, Drafts.update, List.getElem?_cons_zero, Option.bind_some, hd',
        Option.map_some]
      rfl
    have hadd : ∃ x, pushScalar f x = .string s ∧ x.unknown = false ∧ ∀ k,
        (d.add f (Draft.stringWire types f s)).valuesAt R types k =
          d.valuesAt R types k ++ if k = key then [x] else [] := by
      rw [hwire]
      exact ⟨.s s, rfl, rfl, d.valuesAt_add R types hsound hf hlabel (.lend s)⟩
    by_cases hoptional : f.label = .optional ∧ isDefault = true
    · refine ⟨_, d, hcall, hstep d ?_, .inr ⟨hoptional.1, rfl, hread hoptional.2⟩⟩
      unfold Draft.string
      simp only [hf, if_neg hlabel, if_pos hoptional.1, hdefault, hoptional.2,
        Option.map_some, if_true]
    · refine ⟨_, _, hcall, hstep _ ?_, .inl hadd⟩
      unfold Draft.string
      simp only [hf, if_neg hlabel]
      by_cases hlabel' : f.label = .optional
      · have hfalse : isDefault = false := by simpa [hlabel'] using hoptional
        rw [if_pos hlabel', hdefault, hfalse]
        rfl
      · rw [if_neg hlabel']
        rfl

/-! ## Tables -/

/-- The field of a table that a field of a message takes. -/
def Field.TakesField (f : Field) : FieldValue → Prop
  | .one v => f.isRepeated = false ∧ f.Takes v
  | .array items => f.isRepeated = true ∧ ∀ v ∈ items, f.Takes v

/-- The values are what is read of a field of a table: none if it holds the default. -/
def Reads (R : Reals) (types : PbcTypes) (f : Field) (xs : List PbcValue) : FieldValue → Prop
  | .one v => xs.map (pushScalar f) = [v] ∨ xs = [] ∧ (types.defaultV R f).map
      (DefaultValue.read f) = some v
  | .array items => xs.map (pushScalar f) = items

/-! ## Names -/

theorem eq_of_mem_of_name {msg : PbcMessage} (hf : msg.named key = some f) {g : Field}
    (hg : g ∈ msg.fields) (hname : g.name = key) : g = f :=
  List.inj_on_of_nodup_map msg.distinct hg (List.mem_of_find?_eq_some hf)
    (hname.trans (Draft.name_of_named hf).symm)

theorem named_of_mem {msg : PbcMessage} (hf : f ∈ msg.fields) : msg.named f.name = some f := by
  have hsome : (msg.named f.name).isSome = true := List.find?_isSome.2 ⟨f, hf, by simp⟩
  obtain ⟨g, hg⟩ := Option.isSome_iff_exists.1 hsome
  rw [hg, eq_of_mem_of_name hg hf rfl]

theorem PbcMessage.Ordinary.query {msg : PbcMessage} (h : msg.Ordinary)
    (hf : msg.named key = some f) :
    msg.query key = some (some f) := by
  have hhash := (h f (List.mem_of_find?_eq_some hf)).1
  rw [Draft.name_of_named hf] at hhash
  rw [msg.query_eq hhash, hf]

theorem PbcMessage.Ordinary.ne {msg : PbcMessage} (h : msg.Ordinary) (hf : msg.named key = some f) :
    key ≠ "_CObj" ∧ key ≠ "_CType" := by
  have hne := (h f (List.mem_of_find?_eq_some hf)).2
  rwa [Draft.name_of_named hf] at hne

theorem encodeField_eq (types : PbcTypes) {msg : PbcMessage} (h : msg.Ordinary)
    (hf : msg.named key = some f) (fv : FieldValue) :
    encodeField types msg (key, fv) =
      match fv with
      | .one v => if f.isRepeated then none else (writerCall types f key v).map ([·])
      | .array items =>
        if f.isRepeated then items.mapM (writerCall types f key)
        else if f.type = .bool then some [.integer 0 key ⟨1, 0⟩]
        else none := by
  rw [encodeField, if_neg (h.ne hf).2, h.query hf]
  rfl

/-! ## Calls -/

theorem writes_of_step {d d' : Draft} {c : WriteCall} (h : Drafts.step R types [d] c = some [d']) :
    d.Writes d' := by
  obtain ⟨i, e, e', he, hwrites, heq⟩ | ⟨i, e, key, f, msg, he, -, -, -, heq⟩ := Drafts.step_cases h
  · cases i with
    | zero =>
      cases he
      obtain rfl := List.singleton_inj.1 heq
      exact hwrites
    | succ i => cases he
  · have hlen := congrArg List.length heq
    simp at hlen

/-- What some calls for a name leave of a message. -/
structure Draft.Gets (R : Reals) (types : PbcTypes) (d d' : Draft) (key : String)
    (xs : List PbcValue) : Prop where
  type : d'.type = d.type
  sub : d'.sub = d.sub
  sound : d'.Sound
  values : ∀ k, d'.valuesAt R types k = d.valuesAt R types k ++ if k = key then xs else []
  known : ∀ x ∈ xs, x.unknown = false

theorem Draft.Writes.gets {d d' : Draft} (hwrites : d.Writes d') (hsound : d.Sound)
    {xs : List PbcValue}
    (hvalues : ∀ k, d'.valuesAt R types k = d.valuesAt R types k ++ if k = key then xs else [])
    (hknown : ∀ x ∈ xs, x.unknown = false) : d.Gets R types d' key xs :=
  ⟨hwrites.type_eq, hwrites.sub_eq, hsound.writes hwrites, hvalues, hknown⟩

theorem Draft.gets_nil {d : Draft} (hsound : d.Sound) (key : String) : d.Gets R types d key [] :=
  ⟨rfl, rfl, hsound, by simp, by simp⟩

theorem Draft.Gets.trans {d d' d'' : Draft} {xs ys : List PbcValue} (h : d.Gets R types d' key xs)
    (h' : d'.Gets R types d'' key ys) : d.Gets R types d'' key (xs ++ ys) := by
  refine ⟨h'.type.trans h.type, h'.sub.trans h.sub, h'.sound, fun k => ?_, fun x hx => ?_⟩
  · rw [h'.values, h.values, List.append_assoc]
    split_ifs <;> rfl
  · exact (List.mem_append.1 hx).elim (h.known x) (h'.known x)

/-- The calls for the values of an array. -/
theorem exists_arrayCalls (R : Reals) (types : PbcTypes) {d : Draft}
    (hf : d.type.named key = some f) (hsound : d.Sound)
    (hpacked : f.label = .packed → f.type.isLend = false) (hlabel : f.label ≠ .optional)
    {items : List MessageValue} (hitems : ∀ v ∈ items, f.Takes v) :
    ∃ calls d' xs, items.mapM (writerCall types f key) = some calls ∧
      run (Drafts.step R types) [d] calls = some [d'] ∧ d.Gets R types d' key xs ∧ xs.map
        (pushScalar f) = items := by
  induction items generalizing d with
  | nil => exact ⟨[], d, [], rfl, rfl, d.gets_nil hsound key, rfl⟩
  | cons v items ih =>
    obtain ⟨c, d₁, hc, hstep, ⟨x, hx, hknown, hvalues⟩ | ⟨hoptional, -⟩⟩ :=
      exists_call R types hf hsound hpacked (hitems v (by simp))
    · have hgets : d.Gets R types d₁ key [x] :=
        (writes_of_step hstep).gets hsound hvalues (by simpa using hknown)
      obtain ⟨calls, d', xs, hcalls, hrun, hgets', hxs⟩ :=
        ih (hgets.type ▸ hf) hgets.sound (fun w hw => hitems w (by simp [hw]))
      refine ⟨c :: calls, d', [x] ++ xs, ?_, ?_, hgets.trans hgets', ?_⟩
      · rw [List.mapM_cons, hc, hcalls]
        rfl
      · rw [run_cons, hstep]
        exact hrun
      · rw [List.map_append, hxs, List.map_singleton, hx]
        rfl
    · exact absurd hoptional hlabel

/-- The calls for a field of a table. -/
theorem exists_fieldCalls (R : Reals) (types : PbcTypes) {d : Draft} (hordinary : d.type.Ordinary)
    (hf : d.type.named key = some f) (hsound : d.Sound)
    (hpacked : f.label = .packed → f.type.isLend = false) {fv : FieldValue}
    (hfv : f.TakesField fv) :
    ∃ calls d' xs, encodeField types d.type (key, fv) = some calls ∧
      run (Drafts.step R types) [d] calls = some [d'] ∧ d.Gets R types d' key xs ∧
        Reads R types f xs fv := by
  rw [encodeField_eq types hordinary hf]
  cases fv with
  | one v =>
    obtain ⟨hrep, hv⟩ := hfv
    simp only [hrep, Bool.false_eq_true, if_false]
    obtain ⟨c, d', hc, hstep, hd'⟩ := exists_call R types hf hsound hpacked hv
    have hrun : run (Drafts.step R types) [d] [c] = some [d'] := by
      rw [run_cons, hstep]
      rfl
    obtain ⟨x, hx, hknown, hvalues⟩ | ⟨-, rfl, hdefault⟩ := hd'
    · refine ⟨[c], d', [x], by rw [hc, Option.map_some], hrun, ?_, .inl ?_⟩
      · exact (writes_of_step hstep).gets hsound hvalues (by simpa using hknown)
      · rw [List.map_singleton, hx]
    · exact ⟨[c], d', [], by rw [hc, Option.map_some], hrun, d'.gets_nil hsound key,
        .inr ⟨rfl, hdefault⟩⟩
  | array items =>
    obtain ⟨hrep, hitems⟩ := hfv
    simp only [hrep, if_true]
    have hlabel : f.label ≠ .optional := by
      intro h
      unfold Field.isRepeated at hrep
      rw [h] at hrep
      exact absurd hrep (by decide)
    exact exists_arrayCalls R types hf hsound hpacked hlabel hitems

/-- The calls for a table. -/
theorem exists_tableCalls (R : Reals) (types : PbcTypes) {d : Draft} (hsound : d.Sound)
    (hreadable : d.type.Readable) (hordinary : d.type.Ordinary) {t : List (String × FieldValue)}
    (hkeys : (t.map Prod.fst).Nodup)
    (ht : ∀ e ∈ t, ∃ f, d.type.named e.1 = some f ∧ f.TakesField e.2) :
    ∃ calls d', encodeMessage types d.type t = some calls ∧
      run (Drafts.step R types) [d] calls = some [d'] ∧
      d'.type = d.type ∧ d'.sub = d.sub ∧ d'.Sound ∧
      (∀ k, k ∉ t.map Prod.fst → d'.valuesAt R types k = d.valuesAt R types k) ∧
      ∀ e ∈ t, ∀ f, d.type.named e.1 = some f →
        ∃ xs, d'.valuesAt R types e.1 = d.valuesAt R types e.1 ++ xs ∧
        (∀ x ∈ xs, x.unknown = false) ∧ Reads R types f xs e.2 := by
  induction t generalizing d with
  | nil => exact ⟨[], d, rfl, rfl, rfl, rfl, hsound, fun _ _ => rfl, by simp⟩
  | cons e t ih =>
    obtain ⟨f, hf, hfv⟩ := ht e (by simp)
    have hpacked := hreadable.packed f (List.mem_of_find?_eq_some hf)
    obtain ⟨calls₁, d₁, xs, hcalls₁, hrun₁, hgets, hreads⟩ :=
      exists_fieldCalls R types hordinary hf hsound hpacked hfv
    rw [List.map_cons, List.nodup_cons] at hkeys
    have ht₁ : ∀ e' ∈ t, ∃ f, d₁.type.named e'.1 = some f ∧ f.TakesField e'.2 := by
      rw [hgets.type]
      exact fun e' he' => ht e' (by simp [he'])
    obtain ⟨calls, d', hcalls, hrun, htype, hsub, hsound', hothers, hall⟩ :=
      ih hgets.sound (hgets.type ▸ hreadable) (hgets.type ▸ hordinary) hkeys.2 ht₁
    rw [hgets.type] at hcalls hall
    refine ⟨calls₁ ++ calls, d', ?_, ?_, htype.trans hgets.type, hsub.trans hgets.sub,
      hsound', ?_, ?_⟩
    · obtain ⟨css, hcss, rfl⟩ := Option.map_eq_some_iff.1 hcalls
      unfold encodeMessage
      rw [List.mapM_cons, hcalls₁, hcss]
      rfl
    · rw [run_append, hrun₁]
      exact hrun
    · intro k hk
      rw [List.map_cons, List.mem_cons, not_or] at hk
      rw [hothers k hk.2, hgets.values, if_neg hk.1, List.append_nil]
    · intro e' he' g hg
      obtain rfl | he' := List.mem_cons.1 he'
      · obtain rfl := Option.some.inj (hf.symm.trans hg)
        refine ⟨xs, ?_, hgets.known, hreads⟩
        rw [hothers e'.1 hkeys.1, hgets.values, if_pos rfl]
      · have hne : e'.1 ≠ e.1 := fun h => hkeys.1 (h ▸ List.mem_map_of_mem he')
        obtain ⟨ys, hys, hknown, hreads'⟩ := hall e' he' g hg
        refine ⟨ys, ?_, hknown, hreads'⟩
        rw [hys, hgets.values, if_neg hne, List.append_nil]

/-! ## What is read -/

variable {d : Draft}

/-- The array of a name, among the arrays in any order. -/
theorem filter_arrays (hsound : d.Sound) (hreadable : d.type.Readable)
    (hf : d.type.named key = some f) {arrays : List Packed} (harrays : arrays.Perm d.arrays) :
    arrays.filter (·.id = f.id) = (d.packed key).toList := by
  have hid {g : Field} {p : Packed} (hg : g ∈ d.type.fields) (hp : d.packed g.name = some p) :
      p.id = f.id ↔ g.name = key := by
    obtain ⟨f', hf', -, hid, -⟩ := hsound.packed g.name p hp
    obtain rfl := eq_of_mem_of_name hf' hg rfl
    rw [hid]
    constructor
    · intro h
      rw [List.inj_on_of_nodup_map hreadable.ids hg (List.mem_of_find?_eq_some hf) h,
        Draft.name_of_named hf]
    · intro h
      rw [eq_of_mem_of_name hf hg h]
  obtain ⟨before, after, hfields⟩ := List.append_of_mem (List.mem_of_find?_eq_some hf)
  have hnodup := d.type.distinct
  rw [hfields, List.map_append, List.map_cons, List.nodup_middle, List.nodup_cons,
    ← List.map_append] at hnodup
  have hnone (l : List Field) (hl : ∀ g ∈ l, g ∈ d.type.fields ∧ g.name ≠ f.name) :
      (l.filterMap fun g => d.packed g.name).filter (·.id = f.id) = [] := by
    refine List.filter_eq_nil_iff.2 fun p hp => ?_
    obtain ⟨g, hg, hgp⟩ := List.mem_filterMap.1 hp
    have hne := (hl g hg).2
    rw [Draft.name_of_named hf] at hne
    simpa [hid (hl g hg).1 hgp] using hne
  have hone : d.arrays.filter (·.id = f.id) = (d.packed key).toList := by
    rw [Draft.arrays, hfields, List.filterMap_append, List.filterMap_cons, List.filter_append,
      hnone before fun g hg => ⟨by simp [hfields, hg],
        fun h => hnodup.1 (h ▸ List.mem_map_of_mem (by simp [hg]))⟩,
      Draft.name_of_named hf]
    have hafter := hnone after fun g hg =>
      ⟨by simp [hfields, hg], fun h => hnodup.1 (h ▸ List.mem_map_of_mem (by simp [hg]))⟩
    cases hp : d.packed key with
    | none => exact hafter
    | some p =>
      have hpid : p.id = f.id := by
        have hmem : f ∈ d.type.fields := List.mem_of_find?_eq_some hf
        exact (hid hmem ((Draft.name_of_named hf).symm ▸ hp)).2 (Draft.name_of_named hf)
      simp only [List.nil_append, List.filter_cons, hpid, decide_true, if_true,
        Option.toList_some, hafter]
  have hperm := harrays.filter (·.id = f.id)
  rw [hone] at hperm
  cases hp : d.packed key with
  | none =>
    rw [hp] at hperm
    exact List.perm_nil.1 hperm
  | some p =>
    rw [hp] at hperm
    exact List.perm_singleton.1 hperm

theorem flatMap_filter {α β : Type} (p : α → Bool) (g : α → List β) (l : List α) :
    (l.filter p).flatMap g = l.flatMap fun x => if p x = true then g x else [] := by
  induction l with
  | nil => rfl
  | cons x l ih =>
    rw [List.filter_cons, List.flatMap_cons]
    split_ifs <;> simp [ih]

/-- Of a name, a message without others inside gives the values of its field. -/
theorem valuesOf_values (hsound : d.Sound) (hreadable : d.type.Readable) (hsub : d.sub = [])
    (hf : d.type.named key = some f) {arrays : ℕ → List Packed}
    (harrays : (arrays 0).Perm d.arrays) :
    valuesOf (Drafts.values R types [d] arrays 0) key = (d.valuesAt R types key).map (f, ·) := by
  have hname := Draft.name_of_named hf
  have hfields : valuesOf (d.fields.map fun v => (v.1, types.read v.1 v.2)) key =
      ((d.fields.filter (·.1.name = key)).map fun v => types.read v.1 v.2).map (f, ·) := by
    rw [valuesOf, List.filter_map, List.map_map]
    refine List.map_congr_left fun v hv => ?_
    obtain ⟨hv, hkey⟩ := List.mem_filter.1 hv
    rw [Function.comp_apply, eq_of_mem_of_name hf (hsound.fields v hv).1 (by simpa using hkey)]
  have hvalues (p : Packed) (hp : p ∈ arrays 0) :
      valuesOf (types.arrayValues R d.type p) key =
        if p.id = f.id then p.data.map fun v => (f, types.shown R f v) else [] := by
    obtain ⟨g, hg, hgp⟩ := List.mem_filterMap.1 (harrays.mem_iff.1 hp)
    obtain ⟨f', hf', -, hid, -⟩ := hsound.packed g.name p hgp
    have hmem := List.mem_of_find?_eq_some hf'
    have hfield : types.arrayValues R d.type p = p.data.map fun v => (f', types.shown R f' v) := by
      rw [PbcTypes.arrayValues, hid, hreadable.fieldOf hmem]
      rfl
    rw [hfield, valuesOf]
    split_ifs with heq
    · obtain rfl := List.inj_on_of_nodup_map hreadable.ids hmem (List.mem_of_find?_eq_some hf)
        (hid.symm.trans heq)
      exact List.filter_eq_self.2 (by simp [hname])
    · have hne : f'.name ≠ key := by
        intro h
        rw [hid, eq_of_mem_of_name hf hmem h] at heq
        exact heq rfl
      exact List.filter_eq_nil_iff.2 (by simp [hne])
  have harray : valuesOf ((arrays 0).flatMap (types.arrayValues R d.type)) key =
      ((d.packed key).elim [] fun p => p.data.map (types.shown R f)).map (f, ·) := by
    have hflat : valuesOf ((arrays 0).flatMap (types.arrayValues R d.type)) key =
        ((arrays 0).filter (·.id = f.id)).flatMap fun p => p.data.map fun v =>
          (f, types.shown R f v) := by
      rw [valuesOf, List.filter_flatMap, flatMap_filter]
      refine List.flatMap_congr fun p hp => ?_
      have hp := hvalues p hp
      rw [valuesOf] at hp
      simp only [hp, decide_eq_true_eq]
    rw [hflat, filter_arrays hsound hreadable hf harrays]
    cases d.packed key with
    | none => rfl
    | some p => simp [List.map_map]
  have hall : Drafts.values R types [d] arrays 0 =
      d.fields.map (fun v => (v.1, types.read v.1 v.2)) ++
        (arrays 0).flatMap (types.arrayValues R d.type) := by
    simp only [Drafts.values, List.getElem?_cons_zero, hsub, List.map_nil, List.append_nil]
  rw [hall, valuesOf_append, hfields, harray, ← List.map_append, Draft.valuesAt, hf]
  rfl

/-! ## Encoding and decoding -/

/-- The number of bytes that a table comes to. -/
def encodedLength (R : Reals) (types : PbcTypes) (msg : PbcMessage)
    (t : List (String × FieldValue)) : ℕ :=
  match (encodeMessage types msg t).bind (run (Drafts.step R types) [Draft.new msg]) with
  | some ds => (Drafts.bytes R ds ds.arrays 0).length
  | none => 0

/-! ## Sizes -/

/-- The bytes of a value with its tag and its length, at most. -/
def MessageValue.room : MessageValue → ℕ
  | .string s => s.length + 20
  | _ => 20

def FieldValue.room : FieldValue → ℕ
  | .one v => v.room
  | .array items => (items.map MessageValue.room).sum

/-- The bytes of a table, at most. -/
def tableRoom (t : List (String × FieldValue)) : ℕ := (t.map fun e => e.2.room).sum

/-- A field whose values are written one by one. -/
def Field.Single (f : Field) : Prop := f.Numbered ∧ f.label ≠ .packed

/-- What calls for at most `n` bytes leave of a message without arrays. -/
structure Draft.Grows (d d' : Draft) (n : ℕ) : Prop where
  type : d'.type = d.type
  packed : d'.packed = d.packed
  sub : d'.sub = d.sub
  bytes : d'.bytes.length ≤ d.bytes.length + n

theorem Draft.Grows.refl (d : Draft) (n : ℕ) : d.Grows d n := ⟨rfl, rfl, rfl, Nat.le_add_right _ _⟩

theorem Draft.Grows.trans {d d' d'' : Draft} {n n' : ℕ} (h : d.Grows d' n) (h' : d'.Grows d'' n') :
    d.Grows d'' (n + n') := by
  refine ⟨h'.type.trans h.type, h'.packed.trans h.packed, h'.sub.trans h.sub, ?_⟩
  have := h.bytes
  have := h'.bytes
  omega

theorem Draft.grows_add (d : Draft) (hf : f.Numbered) {w : Option WireValue} {n : ℕ}
    (hw : ∀ x, w = some x → x.encode.length + 5 ≤ n) : d.Grows (d.add f w) n := by
  refine ⟨rfl, rfl, rfl, ?_⟩
  rw [bytes_add, List.length_append]
  cases w with
  | none => exact Nat.add_le_add_left (Nat.zero_le n) _
  | some x =>
    have htag := length_tag_le f.id (BitVec.ofNat 32 x.wiretype)
    have hx := hw x rfl
    have hbytes : (fieldBytes f (some x)).length ≤ n := by
      show (wireField f x).encode.length ≤ n
      rw [encode_wireField hf, List.length_append]
      omega
    omega

/-- A value is written in its room. -/
theorem grows_of_call {d : Draft} (hf : d.type.named key = some f) (hsingle : f.Single)
    {v : MessageValue} (hv : f.Takes v) (hroom : v.room < 2 ^ 32) {c : WriteCall}
    (hc : writerCall types f key v = some c) {ds : Drafts}
    (hstep : Drafts.step R types [d] c = some ds) : ∃ d', ds = [d'] ∧ d.Grows d' v.room := by
  cases hlend : f.type.isLend with
  | false =>
    obtain ⟨x, -, hcall, -⟩ := exists_integer R types key hv hlend
    obtain rfl := Option.some.inj (hcall.symm.trans hc)
    refine ⟨d.integer R types key x, (Option.some.inj hstep).symm, ?_⟩
    unfold Draft.integer
    simp only [hf, if_neg hsingle.2]
    split_ifs
    · exact .refl d _
    · have hpos : 20 ≤ v.room := by
        cases v <;> simp [MessageValue.room]
      refine d.grows_add hsingle.1 fun w hw => ?_
      have := length_encode_integerWire hw
      omega
  | true =>
    obtain ⟨s, rfl, hcall, hwire⟩ := exists_string types key hv hlend
    obtain rfl := Option.some.inj (hcall.symm.trans hc)
    have hstep : (d.string R types key s).map (fun d' => [d']) = some ds := hstep
    obtain ⟨d', hd', rfl⟩ := Option.map_eq_some_iff.1 hstep
    refine ⟨d', rfl, ?_⟩
    unfold Draft.string at hd'
    simp only [hf, if_neg hsingle.2] at hd'
    obtain ⟨isDefault, -, rfl⟩ := Option.map_eq_some_iff.1 hd'
    split_ifs
    · exact .refl d _
    · refine d.grows_add hsingle.1 fun w hw => ?_
      obtain rfl := Option.some.inj (hwire.symm.trans hw)
      rw [MessageValue.room] at hroom ⊢
      have hlen : (Varint.encode s.length).length ≤ 10 := Varint.length_encode_le (by omega)
      rw [WireValue.encode, List.length_append]
      omega

/-- The values of an array are written in their room. -/
theorem grows_of_items {d : Draft} (hf : d.type.named key = some f) (hsingle : f.Single)
    {items : List MessageValue} (hitems : ∀ v ∈ items, f.Takes v)
    (hroom : (items.map MessageValue.room).sum < 2 ^ 32) {calls : List WriteCall}
    (hc : items.mapM (writerCall types f key) = some calls) {ds : Drafts}
    (hrun : run (Drafts.step R types) [d] calls = some ds) :
    ∃ d', ds = [d'] ∧ d.Grows d' (items.map MessageValue.room).sum := by
  induction items generalizing d calls with
  | nil =>
    cases hc
    exact ⟨d, (Option.some.inj hrun).symm, .refl d _⟩
  | cons v items ih =>
    rw [List.mapM_cons] at hc
    obtain ⟨c, hcall, hc⟩ := Option.bind_eq_some_iff.1 hc
    obtain ⟨cs, hcs, hc⟩ := Option.bind_eq_some_iff.1 hc
    obtain rfl := Option.some.inj hc
    obtain ⟨ds₁, hstep, hrun⟩ := run_cons_eq_some_iff.1 hrun
    rw [List.map_cons, List.sum_cons] at hroom ⊢
    obtain ⟨d₁, rfl, hgrows⟩ := grows_of_call hf hsingle (hitems v (by simp)) (by omega) hcall hstep
    obtain ⟨d', rfl, hgrows'⟩ :=
      ih (hgrows.type ▸ hf) (fun w hw => hitems w (by simp [hw])) (by omega) hcs hrun
    exact ⟨d', rfl, hgrows.trans hgrows'⟩

/-- A field of a table is written in its room. -/
theorem grows_of_field {d : Draft} (hordinary : d.type.Ordinary) (hf : d.type.named key = some f)
    (hsingle : f.Single) {fv : FieldValue} (hfv : f.TakesField fv) (hroom : fv.room < 2 ^ 32)
    {calls : List WriteCall} (hc : encodeField types d.type (key, fv) = some calls) {ds : Drafts}
    (hrun : run (Drafts.step R types) [d] calls = some ds) :
    ∃ d', ds = [d'] ∧ d.Grows d' fv.room := by
  rw [encodeField_eq types hordinary hf] at hc
  cases fv with
  | one v =>
    obtain ⟨hrep, hv⟩ := hfv
    simp only [hrep, Bool.false_eq_true, if_false] at hc
    obtain ⟨c, hcall, rfl⟩ := Option.map_eq_some_iff.1 hc
    obtain ⟨ds₁, hstep, hrun⟩ := run_cons_eq_some_iff.1 hrun
    obtain ⟨d', rfl, hgrows⟩ := grows_of_call hf hsingle hv hroom hcall hstep
    exact ⟨d', (Option.some.inj hrun).symm, hgrows⟩
  | array items =>
    obtain ⟨hrep, hitems⟩ := hfv
    simp only [hrep, if_true] at hc
    exact grows_of_items hf hsingle hitems hroom hc hrun

/-- A table is written in its room, if its fields are written one by one. -/
theorem grows_of_table {d : Draft} (hordinary : d.type.Ordinary)
    (hsingle : ∀ f ∈ d.type.fields, f.Single) {t : List (String × FieldValue)}
    (ht : ∀ e ∈ t, ∃ f, d.type.named e.1 = some f ∧ f.TakesField e.2) (hroom : tableRoom t < 2 ^ 32)
    {calls : List WriteCall} (hc : encodeMessage types d.type t = some calls) {ds : Drafts}
    (hrun : run (Drafts.step R types) [d] calls = some ds) :
    ∃ d', ds = [d'] ∧ d.Grows d' (tableRoom t) := by
  induction t generalizing d calls with
  | nil =>
    cases hc
    exact ⟨d, (Option.some.inj hrun).symm, .refl d _⟩
  | cons e t ih =>
    obtain ⟨css, hcss, rfl⟩ := Option.map_eq_some_iff.1 hc
    rw [List.mapM_cons] at hcss
    obtain ⟨cs, hfield, hcss⟩ := Option.bind_eq_some_iff.1 hcss
    obtain ⟨rest, hrest, hcss⟩ := Option.bind_eq_some_iff.1 hcss
    obtain rfl := Option.some.inj hcss
    obtain ⟨ds₁, hrun₁, hrun⟩ := run_append_eq_some_iff.1 (List.flatten_cons ▸ hrun)
    obtain ⟨f, hf, hfv⟩ := ht e (by simp)
    have hcons : tableRoom (e :: t) = e.2.room + tableRoom t := by
      rw [tableRoom, List.map_cons, List.sum_cons, tableRoom]
    rw [hcons] at hroom ⊢
    obtain ⟨d₁, rfl, hgrows⟩ :=
      grows_of_field hordinary hf (hsingle f (List.mem_of_find?_eq_some hf)) hfv (by omega)
        hfield hrun₁
    have hrest' : encodeMessage types d₁.type t = some rest.flatten := by
      rw [hgrows.type, encodeMessage, hrest]
      rfl
    have ht' : ∀ e' ∈ t, ∃ f, d₁.type.named e'.1 = some f ∧ f.TakesField e'.2 := by
      rw [hgrows.type]
      exact fun e' he' => ht e' (by simp [he'])
    obtain ⟨d', rfl, hgrows'⟩ :=
      ih (hgrows.type ▸ hordinary) (hgrows.type ▸ hsingle) ht' (by omega) hrest' hrun
    exact ⟨d', rfl, hgrows.trans hgrows'⟩

/-- A table comes to no more bytes than its room, if its fields are written one by one. -/
theorem encodedLength_le (R : Reals) (types : PbcTypes) {msg : PbcMessage}
    (hordinary : msg.Ordinary) (hsingle : ∀ f ∈ msg.fields, f.Single)
    {t : List (String × FieldValue)} (ht : ∀ e ∈ t, ∃ f, msg.named e.1 = some f ∧ f.TakesField e.2)
    (hroom : tableRoom t < 2 ^ 32) : encodedLength R types msg t ≤ tableRoom t := by
  unfold encodedLength
  cases hc : encodeMessage types msg t with
  | none => exact Nat.zero_le _
  | some calls =>
    cases hrun : run (Drafts.step R types) [Draft.new msg] calls with
    | none =>
      rw [Option.bind_some, hrun]
      exact Nat.zero_le _
    | some ds =>
      have hforest := (Drafts.nested_of_run hrun).forest
      obtain ⟨d, rfl, hgrows⟩ :=
        grows_of_table (d := Draft.new msg) hordinary hsingle ht hroom hc hrun
      have harrays : d.arrays = [] := by
        rw [Draft.arrays, hgrows.packed]
        exact List.filterMap_eq_nil_iff.2 fun _ _ => rfl
      have hfields : Drafts.fields R [d] (Drafts.arrays [d]) 0 d = d.fields.map fun v =>
          wireField v.1 v.2 := by
        have harrays' : Drafts.arrays [d] 0 = [] := harrays
        rw [Drafts.fields, harrays', hgrows.sub]
        simp [Draft.new]
      have hbytes : Drafts.bytes R [d] (Drafts.arrays [d]) 0 = d.bytes := by
        rw [Drafts.bytes, Drafts.content_eq_fields hforest R _ rfl, hfields]
        rfl
      rw [Option.bind_some, hrun]
      simp only [hbytes]
      have hle : d.bytes.length ≤ 0 + tableRoom t := hgrows.bytes
      rwa [Nat.zero_add] at hle

/-! ## Tables and their messages -/

theorem readAccess_default {typeName : String} {msg : PbcMessage}
    (hmsg : types.msgs typeName = some msg) (hordinary : msg.Ordinary)
    (hf : msg.named key = some f) :
    readAccess R types (.default typeName key) = defaultField R types f := by
  have hne : ¬ (key = "_CObj" ∨ key = "_CType") := not_or.2 (hordinary.ne hf)
  simp only [readAccess, if_neg hne, hmsg, Option.bind_some, hordinary.query hf, Option.join_some]

theorem readField_of_access {h h' : LuaHeap} {i : ℕ} {res : Access}
    (ha : access types h i key = some (h', res)) :
    readField R types h i key = readAccess R types res := by
  rw [readField, ha]
  rfl

theorem readField_eq {h : LuaHeap} {i : ℕ} {tbl : MessageTable} {typeName : String}
    {msg : PbcMessage} (htbl : h[i]? = some tbl) (hmt : tbl.metatable = some (.default typeName))
    (hmsg : types.msgs typeName = some msg) (hordinary : msg.Ordinary)
    (hf : msg.named key = some f) :
    readField R types h i key =
      if tbl.fields key ≠ .nil then some (tbl.fields key) else defaultField R types f := by
  unfold readField access
  simp only [htbl, hmt]
  split_ifs with hraw
  · rfl
  · exact readAccess_default hmsg hordinary hf

/-- What stands for values that are no messages. -/
theorem items_of_shows {h : LuaHeap} {xs : List PbcValue} {items : List MessageValue}
    (hscalar : ∀ x ∈ xs, ¬ IsMessage (f, x)) (hall : List.Forall₂ (Shows h) (xs.map (f, ·)) items) :
    items = xs.map (pushScalar f) := by
  induction xs generalizing items with
  | nil =>
    cases hall
    rfl
  | cons x xs ih =>
    rw [List.map_cons] at hall
    obtain ⟨v, items', hv, hall', rfl⟩ := List.forall₂_cons_left_iff.1 hall
    rw [List.map_cons, ← ih (fun y hy => hscalar y (by simp [hy])) hall',
      ((shows_scalar (hscalar x (by simp))).1 hv).1]

/-- The values of a field, and what is read of the table. -/
theorem stored_reads {h : LuaHeap} {xs : List PbcValue} {fv stored : FieldValue}
    (hfv : f.TakesField fv) (hreads : Reads R types f xs fv) (hknown : ∀ x ∈ xs, x.unknown = false)
    (hstored : Stored h (xs.map (f, ·)) stored) :
    (if stored ≠ .nil then some stored else defaultField R types f) = some fv := by
  have hscalar (v : MessageValue) (hv : f.Takes v) (x : PbcValue) : ¬ IsMessage (f, x) := by
    rintro ⟨ht : f.type = .message, -⟩
    unfold Field.Takes at hv
    rw [ht] at hv
    exact hv
  unfold Stored at hstored
  rw [List.getLast?_map] at hstored
  cases fv with
  | one v =>
    obtain ⟨hrep, hv⟩ := hfv
    unfold defaultField
    obtain hxs | ⟨rfl, hdefault⟩ := hreads
    · obtain ⟨x, rfl, hx⟩ := List.map_eq_singleton_iff.1 hxs
      have hx' := hknown x (by simp)
      simp only [List.getLast?_singleton, Option.map_some, hrep, Bool.false_eq_true, if_false, hx']
        at hstored
      obtain ⟨v', rfl, hshows⟩ := hstored
      obtain ⟨rfl, hne⟩ := (shows_scalar (hscalar v hv x)).1 hshows
      rw [if_pos (fun hnil => hne (FieldValue.one.inj hnil)), hx]
    · simp only [List.getLast?_nil, Option.map_none] at hstored
      obtain ⟨d, hd, rfl⟩ := Option.map_eq_some_iff.1 hdefault
      rw [if_neg (not_not.2 hstored), hrep, hd]
      rfl
  | array items =>
    obtain ⟨hrep, hitems⟩ := hfv
    unfold defaultField
    have hmap : xs.map (pushScalar f) = items := hreads
    cases hlast : xs.getLast? with
    | none =>
      rw [hlast] at hstored
      have hstored : stored = .nil := hstored
      have hnil : xs = [] := List.getLast?_eq_none_iff.1 hlast
      rw [hnil] at hmap
      rw [if_neg (not_not.2 hstored), if_pos hrep, ← hmap]
      rfl
    | some x =>
      rw [hlast] at hstored
      simp only [Option.map_some, hrep, if_true] at hstored
      obtain ⟨items', rfl, hall⟩ := hstored
      have hfilter : (xs.map (f, ·)).filter (·.2.unknown = false) = xs.map (f, ·) :=
        List.filter_eq_self.2 (by simpa using hknown)
      have hx : pushScalar f x ∈ items := hmap ▸ List.mem_map_of_mem (List.mem_of_getLast? hlast)
      rw [hfilter] at hall
      rw [items_of_shows (fun y _ => hscalar _ (hitems _ hx) y) hall, hmap, if_pos (by simp)]

/-- The values that are decoded are those of a table. -/
structure HoldsTable (R : Reals) (types : PbcTypes) (msg : PbcMessage)
    (t : List (String × FieldValue)) (cs : List (Field × PbcValue)) : Prop where
  given : ∀ e ∈ t, ∀ f, msg.named e.1 = some f → f.TakesField e.2 ∧
    ∃ xs, valuesOf cs e.1 = xs.map (f, ·) ∧
    (∀ x ∈ xs, x.unknown = false) ∧ Reads R types f xs e.2
  others : ∀ f ∈ msg.fields, f.name ∉ t.map Prod.fst → valuesOf cs f.name = []

/-- The table that `decode` makes of its values. -/
theorem protobufDecode_reads {typeName : String} {msg : PbcMessage}
    (hmsg : types.msgs typeName = some msg) (hordinary : msg.Ordinary) {buffer : Bytes}
    {cs : List (Field × PbcValue)} (hdecode : pbcDecode types typeName buffer = .ok (cs, true))
    (h : LuaHeap) :
    ∃ h' i, protobufDecode types h typeName buffer = .ok (h', some i) ∧
      ∀ key f, msg.named key = some f → ∃ heap stored, Stored heap (valuesOf cs key) stored ∧
        readField R types h' i key =
          if stored ≠ .nil then some stored else defaultField R types f := by
  let ret : MessageTable := ⟨typeName, buffer, false, false, fun _ => .nil, none⟩
  let filled := cs.foldl decodeCb (h ++ [ret], ret.fields)
  let decoded : MessageTable :=
    { ret with fields := filled.2, metatable := some (.default typeName) }
  have hreturned : protobufDecode types h typeName buffer =
      .ok (filled.1.set h.length decoded, some h.length) := by
    rw [protobufDecode, hdecode]
    rfl
  have hget : (filled.1.set h.length decoded)[h.length]? = some decoded := by
    apply List.getElem?_set_self
    obtain ⟨new, hheap, -⟩ := foldl_decodeCb_fresh cs (h ++ [ret]) ret.fields
    have hfilled : filled.1 = h ++ [ret] ++ new := hheap
    rw [hfilled, List.length_append, List.length_append, List.length_singleton]
    omega
  refine ⟨_, _, hreturned, fun key f hf => ⟨filled.1, decoded.fields key, ?_, ?_⟩⟩
  · exact stored_foldl (sameField_pbcDecode hdecode) key
  · exact readField_eq hget rfl hmsg hordinary hf

/-- A table is read as it was, from its values. -/
theorem HoldsTable.reads {typeName : String} {msg : PbcMessage} {t : List (String × FieldValue)}
    {cs : List (Field × PbcValue)} (hholds : HoldsTable R types msg t cs)
    (hmsg : types.msgs typeName = some msg) (hordinary : msg.Ordinary)
    (ht : ∀ e ∈ t, ∃ f, msg.named e.1 = some f ∧ f.TakesField e.2) {s : Bytes}
    (hdecode : pbcDecode types typeName s = .ok (cs, true)) (h : LuaHeap) :
    ∃ h' i, protobufDecode types h typeName s = .ok (h', some i) ∧
      (∀ e ∈ t, readField R types h' i e.1 = some e.2) ∧
      ∀ f ∈ msg.fields, f.name ∉ t.map Prod.fst →
        readField R types h' i f.name = defaultField R types f := by
  obtain ⟨h', i, hdecoded, hreads⟩ := protobufDecode_reads (R := R) hmsg hordinary hdecode h
  refine ⟨h', i, hdecoded, fun e he => ?_, fun f hf hnot => ?_⟩
  · obtain ⟨f, hf, -⟩ := ht e he
    obtain ⟨hfv, xs, hxs, hknown, hread⟩ := hholds.given e he f hf
    obtain ⟨heap, stored, hstored, hfield⟩ := hreads e.1 f hf
    rw [hxs] at hstored
    rw [hfield]
    exact stored_reads hfv hread hknown hstored
  · obtain ⟨heap, stored, hstored, hfield⟩ := hreads f.name f (named_of_mem hf)
    rw [hholds.others f hf hnot] at hstored
    have hnil : stored = .nil := hstored
    rw [hfield, hnil, if_neg (not_not.2 rfl)]

/-! ## Arrays of a table -/

theorem Field.Takes.not_word32 {v : MessageValue} (hv : f.Takes v) :
    ¬ (f.type = .float ∨ f.type = .fixed32 ∨ f.type = .sfixed32) := by
  unfold Field.Takes at hv
  rintro (ht | ht | ht) <;> rw [ht] at hv <;> exact hv

/-- A field that is read of a table takes some value, if there is one at all. -/
theorem exists_takes {xs : List PbcValue} {fv : FieldValue} (hreads : Reads R types f xs fv)
    (hfv : f.TakesField fv) (hxs : xs ≠ []) : ∃ v, f.Takes v := by
  cases fv with
  | one v => exact ⟨v, hfv.2⟩
  | array items =>
    obtain ⟨x, hx⟩ := List.exists_mem_of_ne_nil xs hxs
    have hmap : xs.map (pushScalar f) = items := hreads
    exact ⟨_, hfv.2 _ (hmap ▸ List.mem_map_of_mem hx)⟩

theorem length_lt_of_reads {xs : List PbcValue} {fv : FieldValue} (hreads : Reads R types f xs fv)
    (hlimit : fv.items.length < arrayLimit) : xs.length < arrayLimit := by
  cases fv with
  | one v =>
    have hlen : xs.length ≤ 1 := by
      obtain hxs | ⟨rfl, -⟩ := hreads
      · have := congrArg List.length hxs
        rw [List.length_map] at this
        exact this.le
      · exact Nat.zero_le 1
    exact lt_of_le_of_lt hlen (by decide)
  | array items =>
    have hmap : xs.map (pushScalar f) = items := hreads
    rwa [← List.length_map, hmap]

/-- Arrays of numbers that are values of a table leave no room between them, and are no longer
than these. -/
theorem fits_of_values (R : Reals) (types : PbcTypes) (hsound : d.Sound)
    (hvalues : ∀ f ∈ d.type.fields, d.valuesAt R types f.name ≠ [] → ∃ v, f.Takes v)
    (hlimit : ∀ f ∈ d.type.fields, (d.valuesAt R types f.name).length < arrayLimit) : d.Fits := by
  intro p hp
  obtain ⟨f, hf, hkey⟩ := List.mem_filterMap.1 hp
  obtain ⟨g, hg, -, -, htype⟩ := hsound.packed f.name p hkey
  obtain rfl := eq_of_mem_of_name hg hf rfl
  have hlen : p.data.length ≤ (d.valuesAt R types f.name).length := by
    unfold Draft.valuesAt
    rw [hkey, hg, Option.elim_some, Option.elim_some, List.length_append, List.length_map,
      List.length_map]
    exact Nat.le_add_left _ _
  refine ⟨fun hptype => ?_, lt_of_le_of_lt hlen (hlimit f hf)⟩
  by_contra hlength
  have hne : d.valuesAt R types f.name ≠ [] := by
    intro hnil
    rw [hnil, List.length_nil] at hlen
    omega
  obtain ⟨v, hv⟩ := hvalues f hf hne
  rw [htype] at hptype
  exact hv.not_word32 hptype

theorem valuesAt_new (R : Reals) (types : PbcTypes) (msg : PbcMessage) (key : String) :
    (Draft.new msg).valuesAt R types key = [] := rfl

/-! ## Keys of calls -/

theorem key_of_writerCall {v : MessageValue} {c : WriteCall}
    (h : writerCall types f key v = some c) : c.key = key := by
  unfold writerCall at h
  split at h
  all_goals first
    | cases h; rfl
    | cases h
    | (split_ifs at h; cases h; rfl)
    | (obtain ⟨id, -, rfl⟩ := Option.map_eq_some_iff.1 h; rfl)

theorem key_of_items {items : List MessageValue} {cs : List WriteCall}
    (h : items.mapM (writerCall types f key) = some cs) : ∀ c ∈ cs, c.key = key := by
  induction items generalizing cs with
  | nil =>
    cases h
    simp
  | cons v items ih =>
    rw [List.mapM_cons] at h
    obtain ⟨c, hcall, h⟩ := Option.bind_eq_some_iff.1 h
    obtain ⟨rest, hrest, h⟩ := Option.bind_eq_some_iff.1 h
    obtain rfl := Option.some.inj h
    exact List.forall_mem_cons.2 ⟨key_of_writerCall hcall, ih hrest⟩

theorem key_of_encodeField {msg : PbcMessage} {e : String × FieldValue} {cs : List WriteCall}
    (h : encodeField types msg e = some cs) : ∀ c ∈ cs, c.key = e.1 := by
  unfold encodeField at h
  split_ifs at h
  obtain ⟨f, -, h⟩ := Option.bind_eq_some_iff.1 h
  split at h
  · split_ifs at h
    obtain ⟨c, hcall, rfl⟩ := Option.map_eq_some_iff.1 h
    simpa using key_of_writerCall hcall
  · split_ifs at h
    · exact key_of_items h
    · cases h
      simp [WriteCall.key]

theorem key_of_encodeMessage {msg : PbcMessage} {t : List (String × FieldValue)}
    {calls : List WriteCall} (h : encodeMessage types msg t = some calls) :
    ∀ c ∈ calls, ∃ e ∈ t, c.key = e.1 := by
  induction t generalizing calls with
  | nil =>
    cases h
    simp
  | cons e t ih =>
    obtain ⟨css, hcss, rfl⟩ := Option.map_eq_some_iff.1 h
    rw [List.mapM_cons] at hcss
    obtain ⟨cs, hfield, hcss⟩ := Option.bind_eq_some_iff.1 hcss
    obtain ⟨rest, hrest, hcss⟩ := Option.bind_eq_some_iff.1 hcss
    obtain rfl := Option.some.inj hcss
    intro c hc
    rw [List.flatten_cons] at hc
    obtain hc | hc := List.mem_append.1 hc
    · exact ⟨e, by simp, key_of_encodeField hfield c hc⟩
    · have hrest' : encodeMessage types msg t =
          some rest.flatten := by rw [encodeMessage, hrest, Option.map_some]
      obtain ⟨e', he', hkey⟩ := ih hrest' c hc
      exact ⟨e', by simp [he'], hkey⟩

/-! ## Encoding and decoding -/

/-- A table comes to bytes whose values are those of the table. -/
theorem exists_protobufEncode (H : Heap UInt8) (R : Reals) (htypes : types.Readable)
    {typeName : String} {msg : PbcMessage} (hmsg : types.msgs typeName = some msg)
    (hordinary : msg.Ordinary) {t : List (String × FieldValue)} (hkeys : (t.map Prod.fst).Nodup)
    (ht : ∀ e ∈ t, ∃ f, msg.named e.1 = some f ∧ f.TakesField e.2)
    (hlimit : ∀ e ∈ t, e.2.items.length < arrayLimit)
    (hsize : encodedLength R types msg t < 2 ^ 27) :
    ∃ s cs, protobufEncode H R types typeName t = some s ∧ s.length = encodedLength R types msg t ∧
      pbcDecode types typeName s = .ok (cs, true) ∧ HoldsTable R types msg t cs := by
  have hreadable := htypes typeName msg hmsg
  obtain ⟨calls, d, hcalls, hrun, htype, hsub, hsound, hothers, hall⟩ :=
    exists_tableCalls R types (d := Draft.new msg) (Draft.sound_new msg) hreadable
      hordinary hkeys ht
  have hcalls : encodeMessage types msg t = some calls := hcalls
  have hhash : ∀ c ∈ calls, stringHash c.key ≠ 0 := by
    intro c hc
    obtain ⟨e, he, hkey⟩ := key_of_encodeMessage hcalls c hc
    obtain ⟨f, hf, -⟩ := ht e he
    rw [hkey, ← Draft.name_of_named hf]
    exact (hordinary f (List.mem_of_find?_eq_some hf)).1
  have hvalues (f : Field) (hf : f ∈ d.type.fields) :
      d.valuesAt R types f.name = [] ∨ ∃ fv, f.TakesField fv ∧ fv.items.length < arrayLimit ∧
        Reads R types f (d.valuesAt R types f.name) fv := by
    rw [htype] at hf
    by_cases hmem : f.name ∈ t.map Prod.fst
    · obtain ⟨e, he, hname⟩ := List.mem_map.1 hmem
      obtain ⟨g, hg, hfv⟩ := ht e he
      obtain ⟨xs, hxs, -, hreads⟩ := hall e he g hg
      obtain rfl := eq_of_mem_of_name hg hf hname.symm
      rw [valuesAt_new, List.nil_append] at hxs
      exact .inr ⟨e.2, hfv, hlimit e he, by rwa [← hname, hxs]⟩
    · exact .inl (hothers _ hmem)
  have hfits : d.Fits := by
    refine fits_of_values R types hsound (fun f hf hne => ?_) (fun f hf => ?_)
    · obtain ⟨fv, hfv, -, hreads⟩ := (hvalues f hf).resolve_left hne
      exact exists_takes hreads hfv hne
    · obtain hnil | ⟨fv, -, hlen, hreads⟩ := hvalues f hf
      · rw [hnil]
        decide
      · exact length_lt_of_reads hreads hlen
  have hbytes : encodedLength R types msg t =
      (Drafts.bytes R [d] (Drafts.arrays [d]) 0).length := by
    unfold encodedLength
    rw [hcalls, Option.bind_some, hrun]
  obtain ⟨ws, ws', arrays, hws, -, hperm, hlength, hbuffer⟩ :=
    Writers.exists_buffer H htypes.numbered hmsg hhash hrun (by simpa using hfits) (hbytes ▸ hsize)
  have hencode : protobufEncode H R types typeName t = some (Drafts.bytes R [d] arrays 0) := by
    unfold protobufEncode
    rw [hmsg, Option.bind_some, hcalls, Option.bind_some]
    obtain ⟨ws₀, hnew, hwrites⟩ := Option.bind_eq_some_iff.1 hws
    rw [hnew, Option.bind_some, hwrites, Option.bind_some]
    rw [List.length_singleton] at hbuffer
    rw [hbuffer]
    rfl
  have hdecode : pbcDecode types typeName (Drafts.bytes R [d] arrays 0) =
      .ok (Drafts.values R types [d] arrays 0, true) :=
    Drafts.pbcDecode_of_run htypes hrun hperm (by omega) (d := d) rfl (htype ▸ hmsg)
  have hof {key : String} {f : Field} (hf : msg.named key = some f) :
      valuesOf (Drafts.values R types [d] arrays 0) key = (d.valuesAt R types key).map (f, ·) :=
    valuesOf_values hsound (htype ▸ hreadable) hsub (htype ▸ hf) (hperm 0 d rfl)
  refine ⟨_, _, hencode, by rw [hbytes, hlength], hdecode, fun e he f hf => ?_, fun f hf hnot => ?_⟩
  · obtain ⟨g, hg, hfv⟩ := ht e he
    obtain rfl := Option.some.inj (hf.symm.trans hg)
    obtain ⟨xs, hxs, hknown, hread⟩ := hall e he f hf
    rw [valuesAt_new, List.nil_append] at hxs
    exact ⟨hfv, xs, by rw [hof hf, hxs], hknown, hread⟩
  · rw [hof (named_of_mem hf), hothers _ hnot]
    rfl

/-- A number that is not the default, and an array of two. -/
def nodeTable : List (String × FieldValue) :=
  [("marks", .array [.number 300, .number 1]), ("value", .one (.number (-7)))]

end SockTestProgram
