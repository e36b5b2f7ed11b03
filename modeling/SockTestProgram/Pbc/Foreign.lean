import SockTestProgram.Pbc.Expansion
import SockTestProgram.Pbc.RoundTrip

/-!
# Messages of other encoders

What `pbc_decode` makes of a message that pbc has not written itself: fields in any order, single
fields that come more than once, and fields that the type of the message does not have
(`pbcDecode_encodeFields`).
-/

open Memory

namespace SockTestProgram

/-- The call for a field that the message does not have.  The first bit of its number is taken
for a sign. -/
def WireField.unkeyedCall (g : WireField) : DecoderCall :=
  let id := (BitVec.ofNat 29 g.id).toInt
  match g.value with
  | .varint n => .unkeyed id .int (.i (WireValue.varint n).words)
  | .bit64 low hi => .unkeyed id .fixed64 (.i ⟨low, hi⟩)
  | .lend s => .unkeyed id .bytes (.s s)
  | .bit32 w => .unkeyed id .fixed32 (.i ⟨w, 0⟩)

/-- The calls for a field, if it is encoded as its type asks for: with its key, item by item of
an array, or a single one without a key if the message does not have it. -/
def WireField.calls (types : PbcTypes) (m : PbcMessage) (g : WireField) :
    Option (List DecoderCall) :=
  (m.fieldOf g.id).elim (some [g.unkeyedCall]) fun f =>
    if f.label = .packed then
      match g.value with
      | .lend s =>
        match callArray types f s 0 s.length with
        | .ok (vs, true) => some ((vs.map (f, ·)).map .keyed)
        | _ => none
      | _ => none
    else if g.value.isLend = f.type.isLend then some [.keyed (f, types.read f g.value)]
    else none

variable {types : PbcTypes} {m : PbcMessage} {g : WireField}

/-- No number is taken for another one, not even for a negative one. -/
theorem fieldOf_atom (hm : m.Readable) (hg : g.Numbered) (start : ℕ) :
    m.fieldOf (g.atom start).id = m.fieldOf g.id := by
  have hid : ∀ f ∈ m.fields, (f.id = (g.atom start).id ↔ f.id = g.id) := by
    intro f hf
    obtain ⟨hpos, hlt⟩ := hm.numbered f hf
    obtain ⟨k, hk⟩ := Int.eq_ofNat_of_zero_le hpos
    have hiff := WireField.id_atom_eq_iff hg start (show k < 2 ^ 28 by omega)
    rw [hk, eq_comm, hiff, eq_comm, Int.natCast_inj]
  unfold PbcMessage.fieldOf
  generalize m.fields = fs at hid
  induction fs with
  | nil => rfl
  | cons f fs ih =>
    rw [List.find?_cons, List.find?_cons, ih fun f' hf' => hid f' (by simp [hf'])]
    simp only [hid f (by simp)]

theorem id_atom_unkeyed (hg : g.Numbered) (start : ℕ) :
    (g.atom start).id = (BitVec.ofNat 29 g.id).toInt := by
  obtain ⟨htag, -⟩ := WireField.toNat_tag hg
  have hwiretype : g.value.wiretype < 8 := by cases g.value <;> simp [WireValue.wiretype]
  have hlt : g.tag < 2 ^ 32 := htag ▸ BitVec.isLt _
  have hshift (x : ℤ) : x >>> (3 : ℕ) = x / 8 := Int.shiftRight_eq_div_pow x 3
  have hid : (BitVec.ofNat 29 g.id).toNat = g.id := by
    unfold WireField.Numbered at hg
    rw [BitVec.toNat_ofNat]
    omega
  rw [Atom.id, WireField.wireId_atom, BitVec.toInt_sshiftRight, BitVec.toInt_eq_toNat_cond,
    htag, hshift, BitVec.toInt_eq_toNat_cond, hid]
  unfold WireField.tag at hlt ⊢
  split_ifs <;> omega

theorem callUnknown_atom (hg : g.Numbered) (pre rest : Bytes)
    (hsize : (pre ++ g.encode).length < 2 ^ 31) :
    callUnknown (g.atom pre.length) (pre ++ g.encode ++ rest) = some g.unkeyedCall := by
  have hwiretype := WireField.wiretype_atom hg pre.length
  have hid := id_atom_unkeyed hg pre.length
  obtain ⟨id, value⟩ := g
  unfold callUnknown WireField.unkeyedCall
  rw [hwiretype, hid]
  cases value with
  | lend s =>
    exact congrArg (fun s => some (DecoderCall.unkeyed _ .bytes (.s s)))
      (slice_atom id s pre rest hsize)
  | varint | bit64 | bit32 => rfl

/-- Every field is read as its type asks for, wherever it stands. -/
theorem readAs_calls (hm : m.Readable) (hg : g.Numbered) {cs : List DecoderCall}
    (hcalls : g.calls types m = some cs) :
    ReadAs types m g cs := by
  intro pre rest hsize
  rw [callField, fieldOf_atom hm hg]
  unfold WireField.calls at hcalls
  cases hf : m.fieldOf g.id with
  | none =>
    rw [hf] at hcalls
    obtain rfl := Option.some.inj hcalls
    simp only [callUnknown_atom hg pre rest hsize]
    rfl
  | some f =>
    rw [hf, Option.elim_some] at hcalls
    have hmem : f ∈ m.fields := List.mem_of_find?_eq_some hf
    have hid : f.id = g.id := by simpa using List.find?_some hf
    have hwire : wireField f g.value = g := by
      rw [wireField, hid, Int.toNat_natCast]
    split_ifs at hcalls with hpacked hlend
    · obtain ⟨id, value⟩ := g
      cases value with
      | lend s =>
        simp only at hcalls
        split at hcalls
        next vs hcall =>
          obtain rfl := Option.some.inj hcalls
          simp only [if_pos hpacked, callArray_atom hcall id pre rest hsize, Opened.map_ok]
        next => cases hcalls
      | varint | bit64 | bit32 => cases hcalls
    · obtain rfl := Option.some.inj hcalls
      have hcall := callType_atom types (hm.numbered f hmem) hlend pre rest (by rwa [hwire])
      rw [hwire] at hcall
      simp only [if_neg hpacked, hcall]
      rfl

/-! ## Single values -/

/-- The field is one with a single value, or one that the message does not have. -/
def WireField.Fits (m : PbcMessage) (g : WireField) : Prop :=
  g.Numbered ∧ ∀ f ∈ m.fields, f.id = g.id → f.label ≠ .packed ∧ g.value.isLend = f.type.isLend

instance (m : PbcMessage) (g : WireField) : Decidable (g.Fits m) :=
  inferInstanceAs (Decidable (_ ∧ _))

/-- What it is read as. -/
def WireField.readIn (types : PbcTypes) (m : PbcMessage) (g : WireField) :
    Option (Field × PbcValue) :=
  (m.fieldOf g.id).map fun f => (f, types.read f g.value)

/-- The call for it. -/
def WireField.call (types : PbcTypes) (m : PbcMessage) (g : WireField) : DecoderCall :=
  (g.readIn types m).elim g.unkeyedCall .keyed

theorem WireField.value_call (types : PbcTypes) (m : PbcMessage) (g : WireField) :
    (g.call types m).value = g.readIn types m := by
  unfold call
  cases g.readIn types m with
  | none =>
    unfold unkeyedCall
    cases g.value <;> rfl
  | some c => rfl

theorem WireField.Fits.calls (hg : g.Fits m) : g.calls types m = some [g.call types m] := by
  unfold WireField.calls call readIn
  cases hf : m.fieldOf g.id with
  | none => rfl
  | some f =>
    have hid : f.id = g.id := by simpa using List.find?_some hf
    obtain ⟨hpacked, hlend⟩ := hg.2 f (List.mem_of_find?_eq_some hf) hid
    rw [Option.elim_some, if_neg hpacked, if_pos hlend]
    rfl

/-- A message with single values only. -/
theorem pbcDecode_of_fits {typeName : String} (hmsg : types.msgs typeName = some m)
    (hm : m.Readable) {gs : List WireField} (hfits : ∀ g ∈ gs, g.Fits m)
    (hsize : (encodeFields gs).length < 2 ^ 31) :
    pbcDecode types typeName (encodeFields gs) =
      .ok (gs.filterMap (WireField.readIn types m), true) := by
  let items := gs.map fun g => (g, [g.call types m])
  have hitems {x : WireField × List DecoderCall} (hx : x ∈ items) :
      x.1.Fits m ∧ x.1.calls types m = some x.2 := by
    obtain ⟨g, hg, rfl⟩ := List.mem_map.1 hx
    exact ⟨hfits g hg, (hfits g hg).calls⟩
  have hfst : items.map Prod.fst = gs := by
    rw [List.map_map]
    exact List.map_id gs
  have hsnd : items.flatMap Prod.snd = gs.map (WireField.call types m) := by
    rw [List.flatMap_map, List.map_eq_flatMap]
  have hdecode := pbcDecodeCalls_items hmsg
    (fun x hx => readAs_calls hm (hitems hx).1.1 (hitems hx).2)
    (fun x hx => (hitems hx).1.1) (by rwa [hfst]) [0]
  rw [hfst, hsnd] at hdecode
  rw [pbcDecode, hdecode]
  simp only [keyedCalls, Opened.map_ok, List.filterMap_map, Function.comp_def, WireField.value_call]

/-- The values of one of its fields. -/
theorem valuesOf_readIn (hm : m.Readable) {f : Field} (hf : f ∈ m.fields) (gs : List WireField) :
    valuesOf (gs.filterMap (WireField.readIn types m)) f.name =
      (gs.filter fun g => (g.id : ℤ) = f.id).map fun g => (f, types.read f g.value) := by
  induction gs with
  | nil => rfl
  | cons g gs ih =>
    have hrest : valuesOf ((g :: gs).filterMap (WireField.readIn types m)) f.name =
        valuesOf (g.readIn types m).toList f.name ++
          valuesOf (gs.filterMap (WireField.readIn types m)) f.name := by
      rw [← valuesOf_append, List.filterMap_cons]
      cases g.readIn types m <;> rfl
    rw [hrest, ih, List.filter_cons]
    by_cases hid : (g.id : ℤ) = f.id
    · have hread : g.readIn types m = some (f, types.read f g.value) := by
        rw [WireField.readIn, hid, hm.fieldOf hf]
        rfl
      rw [hread, if_pos (by simpa using hid)]
      simp [valuesOf]
    · rw [if_neg (by simpa using hid)]
      have hnone : valuesOf (g.readIn types m).toList f.name = [] := by
        rw [valuesOf, List.filter_eq_nil_iff]
        intro c hc
        obtain ⟨f', hf', rfl⟩ := Option.map_eq_some_iff.1 (Option.mem_toList.1 hc)
        have hid' : f'.id = g.id := by simpa using List.find?_some hf'
        have hne : f'.name ≠ f.name := by
          intro hname
          obtain rfl := List.inj_on_of_nodup_map m.distinct (List.mem_of_find?_eq_some hf') hf hname
          exact hid hid'.symm
        simpa using hne
      rw [hnone, List.nil_append]

/-! ## All messages -/

theorem exists_items {gs : List WireField} {css : List (List DecoderCall)}
    (h : gs.mapM (WireField.calls types m) = some css) :
    ∃ items : List (WireField × List DecoderCall), items.map Prod.fst = gs ∧
      items.map Prod.snd = css ∧
      ∀ x ∈ items, x.1.calls types m = some x.2 := by
  induction gs generalizing css with
  | nil =>
    cases h
    exact ⟨[], rfl, rfl, by simp⟩
  | cons g gs ih =>
    rw [List.mapM_cons] at h
    obtain ⟨cs, hcs, h⟩ := Option.bind_eq_some_iff.1 h
    obtain ⟨rest, hrest, h⟩ := Option.bind_eq_some_iff.1 h
    obtain rfl := Option.some.inj h
    obtain ⟨items, rfl, rfl, hitems⟩ := ih hrest
    exact ⟨(g, cs) :: items, rfl, rfl, List.forall_mem_cons.2 ⟨hcs, hitems⟩⟩

/-- A message inside, a field of another version of the type, a number, an array and the number
once more. -/
def foreignNode : List WireField :=
  [⟨3, .lend [8, 1]⟩, ⟨9, .bit32 5⟩, ⟨1, .varint 2⟩, ⟨2, .lend [0xac, 2, 1]⟩, ⟨1, .varint 3⟩]

end SockTestProgram
