import SockTestProgram.Pbc.Content

/-!
# Reading what was written

`pbc_decode` of the bytes that `pbc_wmessage_buffer` returns: it calls for the values in the order
in which they were written, then for the numbers of the arrays, then for the messages inside, whose
bytes are read in the same way (`Writers.run_decode`).
-/

open Memory Varint Word

namespace SockTestProgram

variable {R : Reals} {types : PbcTypes} {f : Field}

/-! ## Values -/

namespace WireValue

/-- The two words of a number. -/
def words : WireValue → LongLong
  | .varint n => .ofNat n.toNat
  | .bit64 low hi => ⟨low, hi⟩
  | .lend _ => ⟨0, 0⟩
  | .bit32 w => ⟨w, 0⟩

theorem words_number (v : LongLong) : (varint v.number).words = v := by
  rw [words, LongLong.ofNat_toNat, LongLong.ofBitVec_number]

theorem words_setWidth (x : BitVec 32) : (varint (x.setWidth 64)).words = ⟨x, 0⟩ := by
  have hx := x.isLt
  have hnat : (x.setWidth 64).toNat = x.toNat := by
    rw [BitVec.toNat_setWidth, Nat.mod_eq_of_lt (by omega)]
  rw [words, hnat, LongLong.ofNat_of_lt hx, BitVec.ofNat_toNat, BitVec.setWidth_eq]

end WireValue

namespace PbcTypes

/-- What two words are read as. -/
def number (types : PbcTypes) (f : Field) (v : LongLong) : PbcValue :=
  match f.type with
  | .double => .f v
  | .float => .float v.low
  | .enum => .e v.low (types.enumName f v.low)
  | .int64 | .uint64 | .fixed64 | .sfixed64 => .i v
  | .int32 | .uint32 | .bool | .fixed32 | .sfixed32 => .i ⟨v.low, 0⟩
  | .sint32 => .i (dezigzag32 v)
  | .sint64 => .i (dezigzag64 v)
  | .string | .bytes | .message => .s []

/-- What a value on the wire is read as. -/
def read (types : PbcTypes) (f : Field) : WireValue → PbcValue
  | .lend s => .s s
  | w => types.number f w.words

/-- What a number is read as that was written. -/
def shown (R : Reals) (types : PbcTypes) (f : Field) (v : LongLong) : PbcValue :=
  match f.type with
  | .double => .f v
  | .float => .float (R.toFloat v)
  | .enum => .e v.low (types.enumName f v.low)
  | .int64 | .uint64 | .fixed64 | .sfixed64 | .sint64 => .i v
  | .int32 | .uint32 | .bool | .fixed32 | .sfixed32 => .i ⟨v.low, 0⟩
  | .sint32 => .i (dezigzag32 ⟨zigzag32 v.low, 0⟩)
  | .string | .bytes | .message => .s []

theorem number_zigzag (v : LongLong) :
    dezigzag64 (WireValue.varint (zigzag v.number)).words = v := by
  rw [WireValue.words, LongLong.ofNat_toNat, dezigzag64_zigzag, LongLong.ofBitVec_number]

/-- Integers of 64 bits are read as they were written, of the others the lower word is. -/
theorem read_integerWire {v : LongLong} {w : WireValue} (h : integerWire f.type v = some w) :
    types.read f w = types.shown R f v := by
  unfold shown
  cases ht : f.type <;> rw [ht] at h <;> cases h <;>
    simp only [read, number, ht, WireValue.words_number, WireValue.words_setWidth,
      number_zigzag] <;> rfl

end PbcTypes

theorem callType_number (types : PbcTypes) (hf : f.type.isLend = false) (a : Atom)
    (buffer : Bytes) :
    callType types f a buffer = some (types.number f ⟨a.low, a.hi⟩) := by
  unfold callType PbcTypes.number
  cases ht : f.type <;> rw [ht] at hf <;> first | rfl | cases hf

/-! ## Arrays -/

theorem words64_flatMap (vs : List LongLong) : words64 (vs.flatMap int64Encode) = vs := by
  induction vs with
  | nil => rfl
  | cons v vs ih =>
    have hlow := wordLE_reverse v.low []
    have hhi := wordLE_reverse v.hi []
    rw [← int32Encode_eq] at hlow hhi
    show ⟨wordLE (int32Encode v.low), wordLE (int32Encode v.hi)⟩ :: words64
      (vs.flatMap int64Encode) = _
    rw [ih, ← List.append_nil (int32Encode v.low), ← List.append_nil (int32Encode v.hi), hlow, hhi]

theorem words32_flatMap {encode : LongLong → BitVec 32} (vs : List LongLong) :
    words32 (vs.flatMap fun v => int32Encode (encode v)) = vs.map encode := by
  induction vs with
  | nil => rfl
  | cons v vs ih =>
    have hword := wordLE_reverse (encode v) []
    rw [← int32Encode_eq] at hword
    show wordLE (int32Encode (encode v)) :: words32 (vs.flatMap fun v => int32Encode (encode v)) = _
    rw [ih, ← List.append_nil (int32Encode (encode v)), hword, List.map_cons]

/-- Numbers one after another are read one after another. -/
theorem varints_flatMap {number : LongLong → BitVec 64} {vs : List LongLong} {budget : ℕ}
    (hbudget : vs.length ≤ budget) :
    varints budget (vs.flatMap fun v => (WireValue.varint (number v)).encode).length
        (vs.flatMap fun v => (WireValue.varint (number v)).encode) =
      .ok (vs.map fun v => (WireValue.varint (number v)).words, true) := by
  induction vs generalizing budget with
  | nil => cases budget <;> rfl
  | cons v vs ih =>
    obtain ⟨budget, rfl⟩ : ∃ b, budget = b + 1 := ⟨budget - 1, by simp at hbudget; omega⟩
    have hdecode : pbcVDecode ((WireValue.varint (number v)).encode ++ vs.flatMap fun v =>
        (WireValue.varint (number v)).encode) =
          some ((WireValue.varint (number v)).words, (WireValue.varint (number v)).encode.length) :=
      pbcVDecode_encode (number v).isLt _
    have hpos : 0 < (WireValue.varint (number v)).encode.length :=
      length_encode_pos (number v).toNat
    have hrest := ih (Nat.le_of_succ_le_succ hbudget)
    rw [List.flatMap_cons, List.map_cons, List.length_append]
    obtain ⟨size, hsize⟩ := Nat.exists_eq_add_of_lt
      (Nat.lt_add_right (vs.flatMap fun v => (WireValue.varint (number v)).encode).length hpos)
    rw [Nat.zero_add] at hsize
    rw [hsize, varints, hdecode]
    simp only
    rw [if_neg (by omega), ← hsize, Nat.add_sub_cancel_left, List.drop_left, hrest]
    rfl

theorem callVarints_flatMap {bytes : LongLong → Bytes} (number : LongLong → BitVec 64)
    (hbytes : ∀ v, bytes v = (WireValue.varint (number v)).encode) (value : LongLong → PbcValue)
    (vs : List LongLong) :
    callVarints value (vs.flatMap bytes) 0 (vs.flatMap bytes).length =
      .ok (vs.map fun v => value (WireValue.varint (number v)).words, true) := by
  obtain rfl : bytes = fun v => (WireValue.varint (number v)).encode := funext hbytes
  have hlength := WMessage.length_le_length_flatMap (fun v => length_encode_pos (number v).toNat) vs
  change vs.length ≤ (vs.flatMap fun v => (WireValue.varint (number v)).encode).length at hlength
  unfold callVarints
  split_ifs with hempty
  · have hnil : vs = [] := List.length_eq_zero_iff.1 (by omega)
    rw [hnil]
    rfl
  · simp only [Int.toNat_natCast, Int.toNat_zero, List.drop_zero, varints_flatMap hlength,
      Opened.map_ok, List.map_map]
    rfl
  · omega

theorem callWords_flatMap {bytes : LongLong → Bytes} {width : ℕ} {values : Bytes → List PbcValue}
    {value : LongLong → PbcValue} {vs : List LongLong} (hpos : 0 < width)
    (hbytes : ∀ v, (bytes v).length = width) (hvalues : values (vs.flatMap bytes) = vs.map value) :
    callWords width values (vs.flatMap bytes) 0 (vs.flatMap bytes).length =
      .ok (vs.map value, true) := by
  have hsize : (vs.flatMap bytes).length = vs.length * width := by
    rw [List.length_flatMap, List.map_congr_left fun v _ => hbytes v, List.map_const',
      List.sum_replicate_nat]
  have hmod : ((vs.flatMap bytes).length : ℤ) % width =
      0 := by rw [hsize, Nat.cast_mul, Int.mul_emod_left]
  unfold callWords
  rw [if_neg (not_not.2 hmod)]
  split_ifs with hempty hfit
  · have hnil : vs = [] := by
      have hzero : vs.length * width = 0 := by omega
      exact List.length_eq_zero_iff.1 ((Nat.mul_eq_zero.1 hzero).resolve_right hpos.ne')
    rw [hnil]
    rfl
  · rw [Int.toNat_natCast, Int.toNat_zero, slice_self, hvalues]
  · exact absurd ⟨le_rfl, by omega⟩ hfit

/-- The numbers of an array are read as single ones are. -/
theorem callArray_flatMap (types : PbcTypes) (R : Reals) (hf : f.type.isLend = false)
    (vs : List LongLong) :
    callArray types f (vs.flatMap (WMessage.packedBytes R f.type)) 0
        (vs.flatMap (WMessage.packedBytes R f.type)).length =
      .ok (vs.map (types.shown R f), true) := by
  unfold callArray PbcTypes.shown
  cases ht : f.type with
  | double | fixed64 | sfixed64 =>
    rw [funext (WMessage.packedBytes_word64 R (by simp))]
    exact callWords_flatMap (by decide) (fun _ => rfl) (by rw [words64_flatMap])
  | float =>
    rw [funext (WMessage.packedBytes_float R)]
    refine callWords_flatMap (by decide) (fun _ => rfl) ?_
    rw [words32_flatMap, List.map_map]
    rfl
  | fixed32 | sfixed32 =>
    rw [funext (WMessage.packedBytes_word32 R (by simp))]
    refine callWords_flatMap (by decide) (fun _ => rfl) ?_
    rw [words32_flatMap, List.map_map]
    rfl
  | int64 | uint64 =>
    refine (callVarints_flatMap LongLong.number (fun _ => rfl) .i vs).trans ?_
    simp only [WireValue.words_number]
  | int32 | uint32 | bool =>
    refine (callVarints_flatMap (fun v => v.low.setWidth 64) (fun _ => rfl) .i vs).trans ?_
    simp only [WireValue.words_setWidth]
  | enum =>
    refine (callVarints_flatMap (fun v => v.low.setWidth 64) (fun _ => rfl) _ vs).trans ?_
    simp only [WireValue.words_setWidth]
  | sint32 =>
    refine (callVarints_flatMap (fun v => (zigzag32 v.low).setWidth 64) (fun _ => rfl) _ vs).trans
      ?_
    simp only [WireValue.words_setWidth]
  | sint64 =>
    refine (callVarints_flatMap (fun v => zigzag v.number) (fun _ => rfl) _ vs).trans ?_
    simp only [PbcTypes.number_zigzag]
  | string | bytes | message =>
    rw [ht] at hf
    cases hf

/-! ## Fields -/

/-- The numbers of fields are told apart, and packed fields are numbers. -/
structure PbcMessage.Readable (m : PbcMessage) : Prop where
  numbered : ∀ f ∈ m.fields, f.Numbered
  ids : (m.fields.map Field.id).Nodup
  packed : ∀ f ∈ m.fields, f.label = .packed → f.type.isLend = false

variable {m : PbcMessage}

theorem PbcMessage.Readable.fieldOf (h : m.Readable) (hf : f ∈ m.fields) :
    m.fieldOf f.id = some f := by
  have hsome : (m.fieldOf f.id).isSome = true := List.find?_isSome.2 ⟨f, hf, by simp⟩
  obtain ⟨g, hg⟩ := Option.isSome_iff_exists.1 hsome
  have hid : g.id = f.id := by simpa using List.find?_some hg
  rw [hg, List.inj_on_of_nodup_map h.ids (List.mem_of_find?_eq_some hg) hf hid]

/-- The calls for a field on the wire, wherever it stands in the message. -/
def ReadAs (types : PbcTypes) (m : PbcMessage) (g : WireField) (cs : List DecoderCall) : Prop :=
  ∀ pre rest : Bytes, (pre ++ g.encode).length < 2 ^ 31 →
    callField types m (pre ++ g.encode ++ rest) (g.atom pre.length) = .ok (cs, true)

/-- Where the bytes behind a length are. -/
theorem exists_head (id : ℕ) (s pre : Bytes)
    (hsize : (pre ++ (⟨id, .lend s⟩ : WireField).encode).length < 2 ^ 31) :
    ∃ head : Bytes, pre ++ (⟨id, .lend s⟩ : WireField).encode = head ++ s ∧
      ((⟨id, .lend s⟩ : WireField).atom pre.length).low = BitVec.ofNat 32 head.length ∧
      ((⟨id, .lend s⟩ : WireField).atom pre.length).hi = BitVec.ofNat 32 (head.length + s.length) ∧
      head.length + s.length < 2 ^ 31 := by
  let head := pre ++ Varint.encode (⟨id, .lend s⟩ : WireField).tag ++ Varint.encode s.length
  have hbytes : pre ++ (⟨id, .lend s⟩ : WireField).encode = head ++ s := by
    simp only [head, WireField.encode, WireValue.encode, List.append_assoc]
  have hhead : head.length = pre.length + (Varint.encode (⟨id, .lend s⟩ : WireField).tag).length +
      (Varint.encode s.length).length := by simp only [head, List.length_append]
  rw [hbytes, List.length_append] at hsize
  refine ⟨head, hbytes, ?_, ?_, hsize⟩
  · rw [hhead]
    rfl
  · rw [hhead]
    rfl

theorem toNat_ofNat_word {n : ℕ} (h : n < 2 ^ 31) : (BitVec.ofNat 32 n).toNat = n := by
  rw [BitVec.toNat_ofNat, Nat.mod_eq_of_lt (by omega)]

theorem toInt_ofNat_word {n : ℕ} (h : n < 2 ^ 31) : (BitVec.ofNat 32 n).toInt = n := by
  rw [BitVec.toInt_eq_toNat_of_lt (by rw [toNat_ofNat_word h]; omega), toNat_ofNat_word h]

theorem id_atom (hf : f.Numbered) (w : WireValue) (start : ℕ) :
    ((wireField f w).atom start).id = f.id := by
  obtain ⟨n, hn⟩ := Int.eq_ofNat_of_zero_le hf.1
  have hlt := hf.2
  have hid : (wireField f w).id = n := by
    show f.id.toNat = n
    omega
  rw [hn]
  exact (WireField.id_atom_eq_iff (by unfold WireField.Numbered; omega) start (by omega)).2 hid

theorem numbered_wireField (hf : f.Numbered) (w : WireValue) : (wireField f w).Numbered := by
  have hlt := hf.2
  show f.id.toNat < 2 ^ 29
  omega

theorem slice_atom (id : ℕ) (s pre rest : Bytes)
    (hsize : (pre ++ (⟨id, .lend s⟩ : WireField).encode).length < 2 ^ 31) :
    ((⟨id, .lend s⟩ : WireField).atom pre.length).slice
        (pre ++ (⟨id, .lend s⟩ : WireField).encode ++ rest) = s := by
  obtain ⟨head, hbytes, hlow, hhi, hlt⟩ := exists_head id s pre hsize
  rw [Atom.slice, hlow, hhi, toNat_ofNat_word (by omega), toNat_ofNat_word hlt,
    Nat.add_sub_cancel_left, hbytes, slice, List.append_assoc, List.drop_left, List.take_left]

/-- A value is read as itself. -/
theorem callType_atom (types : PbcTypes) (hf : f.Numbered) {w : WireValue}
    (hw : w.isLend = f.type.isLend) (pre rest : Bytes)
    (hsize : (pre ++ (wireField f w).encode).length < 2 ^ 31) :
    callType types f ((wireField f w).atom pre.length) (pre ++ (wireField f w).encode ++ rest) =
      some (types.read f w) := by
  cases w with
  | lend s =>
    have hwiretype : ((wireField f (.lend s)).atom pre.length).wiretype = 2 :=
      WireField.wiretype_atom (numbered_wireField hf _) pre.length
    have hatom := slice_atom f.id.toNat s pre rest hsize
    have hread : callType types f ((wireField f (.lend s)).atom pre.length)
        (pre ++ (wireField f (.lend s)).encode ++ rest) =
        if ((wireField f (.lend s)).atom pre.length).wiretype = 2 then
          some (.s (((wireField f (.lend s)).atom pre.length).slice
            (pre ++ (wireField f (.lend s)).encode ++ rest)))
        else none := by
      unfold callType
      cases ht : f.type <;> rw [ht] at hw <;> first | rfl | cases hw
    rw [hread, if_pos hwiretype]
    exact congrArg (some ∘ PbcValue.s) hatom
  | varint _ | bit64 _ _ | bit32 _ =>
    rw [callType_number types hw.symm]
    rfl

/-- A field with a single value. -/
theorem readAs_wireField (types : PbcTypes) (h : m.Readable) (hf : f ∈ m.fields)
    (hpacked : f.label ≠ .packed) {w : WireValue} (hw : w.isLend = f.type.isLend) :
    ReadAs types m (wireField f w) [.keyed (f, types.read f w)] := by
  intro pre rest hsize
  have hnumbered := h.numbered f hf
  rw [callField, id_atom hnumbered, h.fieldOf hf]
  simp only [if_neg hpacked, callType_atom types hnumbered hw pre rest hsize]
  rfl

/-- The numbers of an array. -/
def PbcTypes.arrayValues (R : Reals) (types : PbcTypes) (m : PbcMessage) (p : Packed) :
    List (Field × PbcValue) :=
  (m.fieldOf p.id).elim [] fun f => p.data.map fun v => (f, types.shown R f v)

/-- The bytes behind a length are read as an array. -/
theorem callArray_atom {s : Bytes} {vs : List PbcValue}
    (hcall : callArray types f s 0 s.length = .ok (vs, true)) (id : ℕ) (pre rest : Bytes)
    (hsize : (pre ++ (⟨id, .lend s⟩ : WireField).encode).length < 2 ^ 31) :
    callArray types f (pre ++ (⟨id, .lend s⟩ : WireField).encode ++ rest)
        ((⟨id, .lend s⟩ : WireField).atom pre.length).low.toInt
        (((⟨id, .lend s⟩ : WireField).atom pre.length).hi -
          ((⟨id, .lend s⟩ : WireField).atom pre.length).low).toInt =
      .ok (vs, true) := by
  obtain ⟨head, hbytes, hlow, hhi, hlt⟩ := exists_head id s pre hsize
  have hsub : BitVec.ofNat 32 (head.length + s.length) - BitVec.ofNat 32 head.length =
      BitVec.ofNat 32 s.length := by
    rw [← BitVec.ofNat_add_ofNat, BitVec.add_comm, BitVec.add_sub_cancel]
  rw [hlow, hhi, hsub, toInt_ofNat_word (show head.length < 2 ^ 31 by omega),
    toInt_ofNat_word (show s.length < 2 ^ 31 by omega), hbytes]
  exact callArray_inside hcall head rest

/-- A field with an array. -/
theorem readAs_packedField (types : PbcTypes) (R : Reals) (h : m.Readable) (hf : f ∈ m.fields)
    (hpacked : f.label = .packed) {p : Packed} (hid : p.id = f.id) (hptype : p.ptype = f.type) :
    ReadAs types m (packedField R p) ((types.arrayValues R m p).map .keyed) := by
  intro pre rest hsize
  have hfield : (packedField R p) = wireField f (.lend (p.bytes R)) := by
    unfold packedField wireField
    rw [hid]
  have hatom : ((packedField R p).atom pre.length).id = f.id := by
    rw [hfield]
    exact id_atom (h.numbered f hf) _ _
  have hcall : callArray types f (p.bytes R) 0 (p.bytes R).length =
      .ok (p.data.map (types.shown R f), true) := by
    rw [show p.bytes R = p.data.flatMap (WMessage.packedBytes R p.ptype) from rfl, hptype]
    exact callArray_flatMap types R (h.packed f hf hpacked) p.data
  rw [callField, hatom, h.fieldOf hf]
  simp only [if_pos hpacked, packedField, callArray_atom hcall p.id.toNat pre rest hsize,
    Opened.map_ok]
  simp only [PbcTypes.arrayValues, hid, h.fieldOf hf, Option.elim_some, List.map_map]
  rfl

/-! ## Messages -/

/-- A message is read field by field, whatever stands behind it. -/
theorem callFields_items {items : List (WireField × List DecoderCall)}
    (hread : ∀ x ∈ items, ReadAs types m x.1 x.2) (pre behind : Bytes)
    (hsize : (pre ++ encodeFields (items.map Prod.fst)).length < 2 ^ 31) :
    callFields types m (pre ++ encodeFields (items.map Prod.fst) ++ behind)
        (atomsFrom pre.length (items.map Prod.fst)) = .ok (items.flatMap Prod.snd, true) := by
  induction items generalizing pre with
  | nil => rfl
  | cons x items ih =>
    have hcons : pre ++ encodeFields ((x :: items).map Prod.fst) =
        pre ++ x.1.encode ++ encodeFields (items.map Prod.fst) := by
      rw [List.map_cons, encodeFields, List.flatMap_cons, List.append_assoc]
      rfl
    rw [hcons] at hsize ⊢
    have hrest := ih (fun y hy => hread y (by simp [hy])) (pre ++ x.1.encode) hsize
    rw [List.length_append] at hrest
    have hlt : (pre ++ x.1.encode).length < 2 ^ 31 := by
      rw [List.length_append] at hsize
      omega
    have hfirst := hread x (by simp) pre (encodeFields (items.map Prod.fst) ++ behind) hlt
    rw [← List.append_assoc] at hfirst
    rw [List.map_cons, atomsFrom, callFields_cons_of_ok hfirst, hrest]
    rfl

theorem pbcDecodeCalls_items {typeName : String} (hmsg : types.msgs typeName = some m)
    {items : List (WireField × List DecoderCall)} (hread : ∀ x ∈ items, ReadAs types m x.1 x.2)
    (hnumbered : ∀ x ∈ items, x.1.Numbered)
    (hsize : (encodeFields (items.map Prod.fst)).length < 2 ^ 31) (behind : Bytes) :
    pbcDecodeCalls types typeName (encodeFields (items.map Prod.fst)) behind =
      .ok (items.flatMap Prod.snd, true) := by
  simp only [pbcDecodeCalls, hmsg]
  split_ifs with hempty
  · have hnil : items = [] := by simpa using encodeFields_eq_nil hempty
    rw [hnil]
    rfl
  · have hnumbered' : ∀ g ∈ items.map Prod.fst, g.Numbered := by
      simpa using fun g cs hg => hnumbered (g, cs) hg
    rw [pbcCOpen_encodeFields hnumbered' hsize]
    exact callFields_items hread [] behind hsize

/-- A message whose fields are read as some values. -/
theorem pbcDecode_items {typeName : String} (hmsg : types.msgs typeName = some m)
    {items : List (WireField × List (Field × PbcValue))}
    (hread : ∀ x ∈ items, ReadAs types m x.1 (x.2.map .keyed))
    (hnumbered : ∀ x ∈ items, x.1.Numbered)
    (hsize : (encodeFields (items.map Prod.fst)).length < 2 ^ 31) :
    pbcDecode types typeName (encodeFields (items.map Prod.fst)) =
      .ok (items.flatMap Prod.snd, true) := by
  let calls := items.map fun x => (x.1, x.2.map DecoderCall.keyed)
  have hfst : calls.map Prod.fst = items.map Prod.fst := by
    rw [List.map_map]
    rfl
  have hsnd : (calls.flatMap Prod.snd).filterMap DecoderCall.value = items.flatMap Prod.snd := by
    rw [List.flatMap_map, ← List.map_flatMap, filterMap_keyed]
  have hcalls (x : WireField × List DecoderCall) (hx : x ∈ calls) :
      ReadAs types m x.1 x.2 ∧ x.1.Numbered := by
    obtain ⟨y, hy, rfl⟩ := List.mem_map.1 hx
    exact ⟨hread y hy, hnumbered y hy⟩
  have hdecode := pbcDecodeCalls_items hmsg (fun x hx => (hcalls x hx).1)
    (fun x hx => (hcalls x hx).2)
    (by rwa [hfst]) [0]
  rw [hfst] at hdecode
  rw [pbcDecode, hdecode, keyedCalls, Opened.map_ok, ← hsnd]

namespace Drafts

variable {ds ds' : Drafts}

/-- What is read of the message at a place: its values, the numbers of its arrays, and the bytes
of the messages inside. -/
def values (R : Reals) (types : PbcTypes) (ds : Drafts) (arrays : ℕ → List Packed) (i : ℕ) :
    List (Field × PbcValue) :=
  match ds[i]? with
  | none => []
  | some d =>
    d.fields.map (fun v => (v.1, types.read v.1 v.2)) ++
      (arrays i).flatMap (types.arrayValues R d.type) ++
      d.sub.map fun s => (s.2, .s (ds.bytes R arrays s.1))

/-- A message is read as what was written. -/
theorem pbcDecode_bytes (types : PbcTypes) (hforest : Forest ds.Inside) {i : ℕ} {d : Draft}
    (hd : ds[i]? = some d) (hsound : d.Sound) (hreadable : d.type.Readable)
    {arrays : ℕ → List Packed} (harrays : (arrays i).Perm d.arrays) {typeName : String}
    (hmsg : types.msgs typeName = some d.type) (hsize : (ds.bytes R arrays i).length < 2 ^ 31) :
    pbcDecode types typeName (ds.bytes R arrays i) = .ok (ds.values R types arrays i, true) := by
  let items : List (WireField × List (Field × PbcValue)) :=
    d.fields.map (fun v => (wireField v.1 v.2, [(v.1, types.read v.1 v.2)])) ++
      (arrays i).map (fun p => (packedField R p, types.arrayValues R d.type p)) ++
      d.sub.map fun s => (wireField s.2 (.lend (ds.bytes R arrays s.1)),
        [(s.2, .s (ds.bytes R arrays s.1))])
  have hbytes : ds.bytes R arrays i = encodeFields (items.map Prod.fst) := by
    rw [bytes, content_eq_fields hforest R arrays hd, fields]
    simp only [items, List.map_append, List.map_map]
    rfl
  have hvalues : ds.values R types arrays i = items.flatMap Prod.snd := by
    simp only [values, hd, items, List.flatMap_append, List.flatMap_map]
    rw [List.map_eq_flatMap, List.map_eq_flatMap]
  have harray (p : Packed) (hp : p ∈ arrays i) :
      ∃ f ∈ d.type.fields, f.label = .packed ∧ p.id = f.id ∧ p.ptype = f.type := by
    obtain ⟨g, -, hkey⟩ := List.mem_filterMap.1 (harrays.mem_iff.1 hp)
    obtain ⟨f, hf, hpacked, hid, hptype⟩ := hsound.packed g.name p hkey
    exact ⟨f, List.mem_of_find?_eq_some hf, hpacked, hid, hptype⟩
  have hall (x : WireField × List (Field × PbcValue)) (hx : x ∈ items) :
      ReadAs types d.type x.1 (x.2.map .keyed) ∧ x.1.Numbered := by
    obtain hx | hx := List.mem_append.1 hx
    · obtain hx | hx := List.mem_append.1 hx
      · obtain ⟨v, hv, rfl⟩ := List.mem_map.1 hx
        obtain ⟨hf, hpacked, hlend⟩ := hsound.fields v hv
        exact ⟨readAs_wireField types hreadable hf hpacked hlend,
          numbered_wireField (hreadable.numbered _ hf) _⟩
      · obtain ⟨p, hp, rfl⟩ := List.mem_map.1 hx
        obtain ⟨f, hf, hpacked, hid, hptype⟩ := harray p hp
        refine ⟨readAs_packedField types R hreadable hf hpacked hid hptype, ?_⟩
        have hlt := (hreadable.numbered f hf).2
        show p.id.toNat < 2 ^ 29
        omega
    · obtain ⟨s, hs, rfl⟩ := List.mem_map.1 hx
      obtain ⟨hf, hmessage⟩ := hsound.sub s hs
      have hpacked : s.2.label ≠ .packed := by
        intro hpacked
        have hlend := hreadable.packed s.2 hf hpacked
        rw [hmessage] at hlend
        cases hlend
      have hlend : (WireValue.lend (ds.bytes R arrays s.1)).isLend = s.2.type.isLend := by
        rw [hmessage]
        rfl
      exact ⟨readAs_wireField types hreadable hf hpacked hlend,
        numbered_wireField (hreadable.numbered _ hf) _⟩
  rw [hbytes] at hsize ⊢
  rw [hvalues]
  exact pbcDecode_items hmsg (fun x hx => (hall x hx).1) (fun x hx => (hall x hx).2) hsize

/-- The first message is of the type asked for, and the messages inside are of the types of their
fields. -/
structure Typed (types : PbcTypes) (msg : PbcMessage) (ds : Drafts) : Prop where
  root : ∃ d, ds[0]? = some d ∧ d.type = msg
  sub : ∀ d ∈ ds, ∀ s ∈ d.sub, ∃ e, ds[s.1]? = some e ∧ types.msgs s.2.typeName = some e.type

variable {msg : PbcMessage}

theorem Typed.step (h : ds.Typed types msg) {c : WriteCall} (hs : ds.step R types c = some ds') :
    ds'.Typed types msg := by
  -- every message keeps its type
  have hset {i j : ℕ} {d d' e : Draft} (hd : ds[i]? = some d) (htype : d'.type = d.type)
      (he : ds[j]? = some e) :
      ∃ e', (List.set ds i d')[j]? = some e' ∧ e'.type = e.type := by
    obtain ⟨hi, -⟩ := List.getElem?_eq_some_iff.1 hd
    by_cases hij : i = j
    · subst hij
      obtain rfl := Option.some.inj (hd.symm.trans he)
      exact ⟨d', List.getElem?_set_self hi, htype⟩
    · exact ⟨e, by rw [List.getElem?_set_ne hij, he], rfl⟩
  obtain ⟨root, hroot, htype₀⟩ := h.root
  obtain ⟨i, d, d', hd, hwrites, rfl⟩ | ⟨i, d, key, f, new, hd, -, -, hnew, rfl⟩ := step_cases hs
  · constructor
    · obtain ⟨e', he', htype⟩ := hset hd hwrites.type_eq hroot
      exact ⟨e', he', htype.trans htype₀⟩
    · intro e he s hmem
      obtain ⟨e₀, he₀, hs₀⟩ : ∃ e₀ ∈ ds, s ∈ e₀.sub := by
        obtain he | rfl := List.mem_or_eq_of_mem_set he
        · exact ⟨e, he, hmem⟩
        · exact ⟨d, List.mem_of_getElem? hd, hwrites.sub_eq ▸ hmem⟩
      obtain ⟨e₁, he₁, hmsg⟩ := h.sub e₀ he₀ s hs₀
      obtain ⟨e', he', htype⟩ := hset hd hwrites.type_eq he₁
      exact ⟨e', he', htype ▸ hmsg⟩
  · have hold {j : ℕ} {e : Draft} (he : ds[j]? = some e) :
        ∃ e', (ds.set i { d with sub := d.sub ++ [(ds.length, f)] } ++ [Draft.new new])[j]? =
          some e' ∧
          e'.type = e.type := by
      have hsame : Draft.type { d with sub := d.sub ++ [(ds.length, f)] } = d.type := rfl
      obtain ⟨e', he', htype⟩ := hset hd hsame he
      obtain ⟨hlt, -⟩ := List.getElem?_eq_some_iff.1 he'
      exact ⟨e', by rw [List.getElem?_append_left hlt, he'], htype⟩
    constructor
    · obtain ⟨e', he', htype⟩ := hold hroot
      exact ⟨e', he', htype.trans htype₀⟩
    · intro e he s hmem
      obtain ⟨e₀, he₀, hs₀⟩ | rfl : (∃ e₀ ∈ ds, s ∈ e₀.sub) ∨ s = (ds.length, f) := by
        obtain he | he := List.mem_append.1 he
        · obtain he | rfl := List.mem_or_eq_of_mem_set he
          · exact .inl ⟨e, he, hmem⟩
          · obtain hmem | hmem := List.mem_append.1 hmem
            · exact .inl ⟨d, List.mem_of_getElem? hd, hmem⟩
            · exact .inr (List.mem_singleton.1 hmem)
        · obtain rfl := List.mem_singleton.1 he
          exact absurd hmem List.not_mem_nil
      · obtain ⟨e₁, he₁, hmsg⟩ := h.sub e₀ he₀ s hs₀
        obtain ⟨e', he', htype⟩ := hold he₁
        exact ⟨e', he', htype ▸ hmsg⟩
      · refine ⟨Draft.new new, ?_, hnew⟩
        rw [List.getElem?_append_right (by simp), List.length_set, Nat.sub_self]
        rfl

theorem typed_of_run {calls : List WriteCall}
    (hrun : Lts.run (step R types) [Draft.new msg] calls = some ds) :
    ds.Typed types msg := by
  refine Lts.run_invariant (I := Typed types msg) (fun _ _ _ h hs => h.step hs) hrun
    ⟨⟨_, rfl, rfl⟩, ?_⟩
  intro d hd s hs
  obtain rfl := List.mem_singleton.1 hd
  exact absurd hs List.not_mem_nil

end Drafts

/-- All registered messages are read as they are written. -/
def PbcTypes.Readable (types : PbcTypes) : Prop :=
  ∀ name msg, types.msgs name = some msg → msg.Readable

theorem PbcTypes.Readable.numbered (h : types.Readable) : types.Numbered :=
  fun name msg hmsg => (h name msg hmsg).numbered

theorem readable_nodeTypes : nodeTypes.Readable := by
  intro name msg hmsg
  have hmsg : (if name = "Node" then some nodeMessage else none) = some msg := hmsg
  split_ifs at hmsg
  obtain rfl := Option.some.inj hmsg
  exact ⟨by decide, by decide, by decide⟩

/-- Every message of a run is read as what was written to it. -/
theorem Drafts.pbcDecode_of_run {ds : Drafts} {msg : PbcMessage} (htypes : types.Readable)
    {calls : List WriteCall} (hrun : Lts.run (Drafts.step R types) [Draft.new msg] calls = some ds)
    {arrays : ℕ → List Packed} (harrays : ∀ i d, ds[i]? = some d → (arrays i).Perm d.arrays)
    (hsize : (ds.bytes R arrays 0).length < 2 ^ 31) {i : ℕ} {d : Draft} (hd : ds[i]? = some d)
    {name : String} (hname : types.msgs name = some d.type) :
    pbcDecode types name (ds.bytes R arrays i) = .ok (ds.values R types arrays i, true) := by
  have hnested := Drafts.nested_of_run hrun
  obtain ⟨hi, -⟩ := List.getElem?_eq_some_iff.1 hd
  have hle := Drafts.length_bytes_le hnested.forest R arrays (hnested.reached i hi)
  exact Drafts.pbcDecode_bytes types hnested.forest hd
    (Drafts.sound_of_run hrun d (List.mem_of_getElem? hd))
    (htypes name d.type hname) (harrays i d hd) hname (by omega)

namespace Writers

variable {ds : Drafts}

end Writers

end SockTestProgram
