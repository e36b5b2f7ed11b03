import SockTestProgram.Lib.Forest
import SockTestProgram.Pbc.Packing

/-!
# The bytes of a message

The messages of a writer are a forest (`Drafts.forest_of_run`), and `pbc_wmessage_buffer` goes
through it once: what it returns is the encoding of the values, the arrays and the messages inside,
each as often as it was written (`Writers.buffer_spec`).
-/

open Growing Memory Varint Word

namespace SockTestProgram

variable {H : Heap UInt8} {R : Reals} {types : PbcTypes}

/-! ## Messages inside messages -/

namespace Drafts

variable {ds ds' : Drafts}

/-- A message is directly inside another one. -/
def Inside (ds : Drafts) (i j : ℕ) : Prop := ∃ d f, ds[i]? = some d ∧ (j, f) ∈ d.sub

/-- The messages are a tree, and each is inside another one once. -/
structure Nested (ds : Drafts) : Prop where
  forest : Forest ds.Inside
  lt : ∀ i j, ds.Inside i j → j < ds.length
  reached : ∀ i < ds.length, Forest.Under ds.Inside 0 i
  nodup : ∀ d ∈ ds, (d.sub.map Prod.fst).Nodup

theorem inside_of_getElem? {i : ℕ} {d : Draft} (hd : ds[i]? = some d) {s : ℕ × Field}
    (hs : s ∈ d.sub) :
    ds.Inside i s.1 := ⟨d, s.2, hd, hs⟩

theorem inside_set_iff {i : ℕ} {d d' : Draft} (hd : ds[i]? = some d) (hsub : d'.sub = d.sub)
    (k j : ℕ) :
    Inside (ds.set i d') k j ↔ ds.Inside k j := by
  obtain ⟨hi, -⟩ := List.getElem?_eq_some_iff.1 hd
  unfold Inside
  by_cases hk : i = k
  · subst hk
    rw [List.getElem?_set_self hi, hd]
    constructor
    · rintro ⟨e, f, he, hmem⟩
      obtain rfl := Option.some.inj he
      exact ⟨d, f, rfl, hsub ▸ hmem⟩
    · rintro ⟨e, f, he, hmem⟩
      obtain rfl := Option.some.inj he
      exact ⟨d', f, rfl, hsub ▸ hmem⟩
  · rw [List.getElem?_set_ne hk]

theorem Nested.set (h : ds.Nested) {i : ℕ} {d d' : Draft} (hd : ds[i]? = some d)
    (hsub : d'.sub = d.sub) :
    Nested (ds.set i d') := by
  have hinside := inside_set_iff hd hsub
  refine ⟨⟨fun k j hj => ?_, fun k k' j hj hj' => ?_⟩, fun k j hj => ?_, fun k hk => ?_,
    fun e he => ?_⟩
  · exact h.forest.lt k j ((hinside k j).1 hj)
  · exact h.forest.unique k k' j ((hinside k j).1 hj) ((hinside k' j).1 hj')
  · rw [List.length_set]
    exact h.lt k j ((hinside k j).1 hj)
  · rw [List.length_set] at hk
    exact Relation.ReflTransGen.mono (fun a b hab => (hinside a b).2 hab) _ _ (h.reached k hk)
  · obtain hmem | rfl := List.mem_or_eq_of_mem_set he
    · exact h.nodup e hmem
    · rw [hsub]
      exact h.nodup d (List.mem_of_getElem? hd)

theorem inside_add_iff {i : ℕ} {d : Draft} (hd : ds[i]? = some d) (f : Field) (msg : PbcMessage)
    (k j : ℕ) :
    Inside (List.set ds i { d with sub := d.sub ++ [(ds.length, f)] } ++ [Draft.new msg]) k j ↔
      ds.Inside k j ∨ k = i ∧ j = ds.length := by
  obtain ⟨hi, -⟩ := List.getElem?_eq_some_iff.1 hd
  unfold Inside
  obtain hlt | hle := Nat.lt_or_ge k ds.length
  · rw [List.getElem?_append_left (by simpa using hlt)]
    by_cases hki : i = k
    · subst hki
      rw [List.getElem?_set_self hi, hd]
      simp only [Option.some.injEq, exists_and_left, exists_eq_left', List.mem_append,
        List.mem_singleton, Prod.mk.injEq, true_and, exists_or, exists_and_left,
          exists_eq, and_true]
    · rw [List.getElem?_set_ne hki]
      simp [Ne.symm hki]
  · rw [List.getElem?_append_right (by simpa using hle), List.getElem?_eq_none hle]
    constructor
    · rintro ⟨e, g, he, hmem⟩
      obtain rfl := List.mem_singleton.1 (List.mem_of_getElem? he)
      exact absurd hmem List.not_mem_nil
    · rintro (⟨e, g, he, -⟩ | ⟨rfl, -⟩)
      · cases he
      · omega

/-- A new message is inside one message, and nothing is inside it. -/
theorem Nested.add (h : ds.Nested) {i : ℕ} {d : Draft} (hd : ds[i]? = some d) (f : Field)
    (msg : PbcMessage) :
    Nested (List.set ds i { d with sub := d.sub ++ [(ds.length, f)] } ++ [Draft.new msg]) := by
  obtain ⟨hi, -⟩ := List.getElem?_eq_some_iff.1 hd
  have hinside := inside_add_iff hd f msg
  have hunder (k : ℕ) (hk : Forest.Under ds.Inside 0 k) :
      Forest.Under (Inside (List.set ds i { d with sub := d.sub ++ [(ds.length, f)] } ++
        [Draft.new msg])) 0 k :=
    Relation.ReflTransGen.mono (fun a b hab => (hinside a b).2 (.inl hab)) _ _ hk
  refine ⟨⟨fun k j hj => ?_, fun k k' j hj hj' => ?_⟩, fun k j hj => ?_, fun k hk => ?_,
    fun e he => ?_⟩
  · obtain hj | ⟨rfl, rfl⟩ := (hinside k j).1 hj
    · exact h.forest.lt k j hj
    · exact hi
  · obtain hj | ⟨hk, hlen⟩ := (hinside k j).1 hj <;> obtain hj' | ⟨hk', hlen'⟩ :=
      (hinside k' j).1 hj'
    · exact h.forest.unique k k' j hj hj'
    · exact absurd (h.lt k j hj) (by omega)
    · exact absurd (h.lt k' j hj') (by omega)
    · rw [hk, hk']
  · rw [List.length_append, List.length_set]
    obtain hj | ⟨-, rfl⟩ := (hinside k j).1 hj
    · have := h.lt k j hj
      omega
    · simp
  · rw [List.length_append, List.length_set] at hk
    obtain hk | rfl : k < ds.length ∨ k = ds.length := by
      simp only [List.length_singleton] at hk
      omega
    · exact hunder k (h.reached k hk)
    · exact (hunder i (h.reached i hi)).tail ((hinside i ds.length).2 (.inr ⟨rfl, rfl⟩))
  · obtain he | he := List.mem_append.1 he
    · obtain hmem | rfl := List.mem_or_eq_of_mem_set he
      · exact h.nodup e hmem
      · have hnew : ds.length ∉ d.sub.map Prod.fst := by
          intro hmem
          obtain ⟨s, hs, hlen⟩ := List.mem_map.1 hmem
          exact absurd (h.lt i s.1 (inside_of_getElem? hd hs)) (by omega)
        simp only [List.map_append, List.map_cons, List.map_nil]
        exact List.nodup_append.2 ⟨h.nodup d (List.mem_of_getElem? hd), List.nodup_singleton _, by
          rintro a ha b hb rfl
          exact hnew (List.mem_singleton.1 hb ▸ ha)⟩
    · obtain rfl := List.mem_singleton.1 he
      exact List.nodup_nil

theorem Nested.step (h : ds.Nested) {c : WriteCall} (hs : ds.step R types c = some ds') :
    ds'.Nested := by
  obtain ⟨i, d, d', hd, hwrites, rfl⟩ | ⟨i, d, key, f, msg, hd, -, -, -, rfl⟩ := step_cases hs
  · exact h.set hd hwrites.sub_eq
  · exact h.add hd f msg

/-- In every run of calls the messages are a tree. -/
theorem nested_of_run {msg : PbcMessage} {calls : List WriteCall}
    (hrun : Lts.run (step R types) [Draft.new msg] calls = some ds) : ds.Nested := by
  refine Lts.run_invariant (I := Nested) (fun _ _ _ h hs => h.step hs) hrun ?_
  have hinside (i j : ℕ) : ¬ Inside [Draft.new msg] i j := by
    rintro ⟨d, f, hd, hmem⟩
    obtain rfl := List.mem_singleton.1 (List.mem_of_getElem? hd)
    exact absurd hmem List.not_mem_nil
  refine ⟨⟨fun i j hj => absurd hj (hinside i j), fun i _ j hj => absurd hj (hinside i j)⟩,
    fun i j hj => absurd hj (hinside i j), fun i hi => ?_, fun d hd => ?_⟩
  · obtain rfl : i = 0 := by simpa using hi
    exact .refl
  · obtain rfl := List.mem_singleton.1 hd
    exact List.nodup_nil

end Drafts

/-! ## Values of fields -/

/-- What is written belongs to the fields of the type of the message, and is of their types. -/
structure Draft.Sound (d : Draft) : Prop where
  fields : ∀ v ∈ d.fields, v.1 ∈ d.type.fields ∧ v.1.label ≠ .packed ∧ v.2.isLend = v.1.type.isLend
  packed : ∀ key p, d.packed key = some p →
    ∃ f, d.type.named key = some f ∧ f.label = .packed ∧ p.id = f.id ∧ p.ptype = f.type
  sub : ∀ s ∈ d.sub, s.2 ∈ d.type.fields ∧ s.2.type = .message

theorem Draft.sound_new (msg : PbcMessage) : (Draft.new msg).Sound := by
  constructor <;> simp [Draft.new]

theorem Draft.Sound.writes {d d' : Draft} (h : d.Sound) (hwrites : d.Writes d') : d'.Sound := by
  cases hwrites with
  | nothing => exact h
  | @push f key hf hpacked v =>
    refine ⟨h.fields, fun key' p hp => ?_, h.sub⟩
    have hp : Function.update d.packed key (some (Packed.pushed f v (d.packed key))) key' =
        some p := hp
    by_cases hkey : key' = key
    · subst hkey
      rw [Function.update_self] at hp
      obtain rfl := Option.some.inj hp
      refine ⟨f, hf, hpacked, ?_⟩
      cases hold : d.packed key' with
      | none => exact ⟨rfl, rfl⟩
      | some p =>
        obtain ⟨f', hf', -, hid, hptype⟩ := h.packed key' p hold
        obtain rfl := Option.some.inj (hf.symm.trans hf')
        exact ⟨hid, hptype⟩
    · rw [Function.update_of_ne hkey] at hp
      exact h.packed key' p hp
  | @add f key w hf hpacked hw =>
    refine ⟨fun v hv => ?_, h.packed, h.sub⟩
    obtain hv | hv := List.mem_append.1 hv
    · exact h.fields v hv
    · obtain ⟨x, hx, rfl⟩ := Option.map_eq_some_iff.1 (Option.mem_toList.1 hv)
      exact ⟨List.mem_of_find?_eq_some hf, hpacked, hw x hx⟩

namespace Drafts

variable {ds ds' : Drafts}

/-- All drafts are sound. -/
def Sound (ds : Drafts) : Prop := ∀ d ∈ ds, d.Sound

theorem Sound.step (h : ds.Sound) {c : WriteCall} (hs : ds.step R types c = some ds') :
    ds'.Sound := by
  have hset {i : ℕ} {d' : Draft} (hd' : d'.Sound) : Sound (ds.set i d') := by
    intro e he
    obtain he | rfl := List.mem_or_eq_of_mem_set he
    · exact h e he
    · exact hd'
  obtain ⟨i, d, d', hd, hwrites, rfl⟩ | ⟨i, d, key, f, msg, hd, hf, hmessage, -, rfl⟩ :=
    step_cases hs
  · exact hset ((h d (List.mem_of_getElem? hd)).writes hwrites)
  · have hsound := h d (List.mem_of_getElem? hd)
    have hparent : Draft.Sound { d with sub := d.sub ++ [(ds.length, f)] } := by
      refine ⟨hsound.fields, hsound.packed, fun s hs => ?_⟩
      obtain hs | hs := List.mem_append.1 hs
      · exact hsound.sub s hs
      · obtain rfl := List.mem_singleton.1 hs
        exact ⟨List.mem_of_find?_eq_some hf, hmessage⟩
    intro e he
    obtain he | he := List.mem_append.1 he
    · exact hset hparent e he
    · obtain rfl := List.mem_singleton.1 he
      exact Draft.sound_new msg

theorem sound_of_run {msg : PbcMessage} {calls : List WriteCall}
    (hrun : Lts.run (step R types) [Draft.new msg] calls = some ds) : ds.Sound := by
  refine Lts.run_invariant (I := Sound) (fun _ _ _ h hs => h.step hs) hrun fun d hd => ?_
  obtain rfl := List.mem_singleton.1 hd
  exact Draft.sound_new msg

theorem length_pos_of_run {msg : PbcMessage} {calls : List WriteCall}
    (hrun : Lts.run (step R types) [Draft.new msg] calls = some ds) : 0 < ds.length := by
  refine Lts.run_invariant (I := fun ds => 0 < List.length ds) (fun ds c ds' h hs => ?_)
    hrun (by simp)
  obtain ⟨i, d, d', -, -, rfl⟩ | ⟨i, d, key, f, msg, -, -, -, -, rfl⟩ := step_cases hs
  · rwa [List.length_set]
  · simp

end Drafts

/-! ## Content -/

/-- The field of an array. -/
def packedField (R : Reals) (p : Packed) : WireField := ⟨p.id.toNat, .lend (p.bytes R)⟩

/-- The fields of the message at a place: its values, its arrays in some order, and the messages
inside. -/
def Drafts.content (R : Reals) (ds : Drafts) (arrays : ℕ → List Packed) : ℕ → ℕ → List WireField
  | 0, _ => []
  | budget + 1, i =>
    match ds[i]? with
    | none => []
    | some d =>
      d.fields.map (fun v => wireField v.1 v.2) ++ (arrays i).map (packedField R) ++
        d.sub.map fun s => wireField s.2 (.lend (encodeFields (content R ds arrays budget s.1)))

/-- A value behind its length takes as much room as any other one as long. -/
theorem length_encode_lend_congr (f : Field) {s s' : Bytes} (h : s.length = s'.length) :
    (wireField f (.lend s)).encode.length = (wireField f (.lend s')).encode.length := by
  simp only [WireField.encode, WireField.tag, wireField, WireValue.wiretype, WireValue.encode,
    List.length_append, h]

theorem length_encode_le_of_mem {f : WireField} {fs : List WireField} (h : f ∈ fs) :
    f.encode.length ≤ (encodeFields fs).length := by
  obtain ⟨before, after, rfl⟩ := List.append_of_mem h
  rw [encodeFields, List.flatMap_append, List.flatMap_cons, List.length_append, List.length_append]
  omega

namespace Drafts

variable {ds : Drafts} {arrays arrays' : ℕ → List Packed} {i : ℕ} {d : Draft}

theorem encode_content_succ (R : Reals) (hd : ds[i]? = some d) (arrays : ℕ → List Packed)
    (budget : ℕ) :
    encodeFields (ds.content R arrays (budget + 1) i) =
      d.bytes ++ encodeFields ((arrays i).map (packedField R)) ++
      encodeFields
        (d.sub.map fun s => wireField s.2
          (.lend (encodeFields (ds.content R arrays budget s.1)))) := by
  rw [content, hd]
  simp only [encodeFields, Draft.bytes, List.flatMap_append]

/-- The order of the arrays makes no difference to the size. -/
theorem length_content_eq (R : Reals) (h : ∀ i d, ds[i]? = some d → (arrays i).Perm (arrays' i))
    (budget i : ℕ) :
    (encodeFields (ds.content R arrays budget i)).length =
      (encodeFields (ds.content R arrays' budget i)).length := by
  induction budget generalizing i with
  | zero => rfl
  | succ budget ih =>
    cases hd : ds[i]? with
    | none => simp only [content, hd]
    | some d =>
      have harrays := ((h i d hd).map (packedField R)).flatMap_right WireField.encode
      have hsub : (encodeFields (d.sub.map fun s =>
            wireField s.2 (.lend (encodeFields (ds.content R arrays budget s.1))))).length =
          (encodeFields (d.sub.map fun s =>
            wireField s.2 (.lend (encodeFields (ds.content R arrays' budget s.1))))).length := by
        simp only [encodeFields, List.length_flatMap, List.map_map]
        exact congrArg List.sum (List.map_congr_left fun s _ =>
          length_encode_lend_congr s.2 (ih s.1))
      rw [encode_content_succ R hd, encode_content_succ R hd]
      simp only [List.length_append, hsub]
      rw [encodeFields, harrays.length_eq]
      rfl

/-- A budget that is enough for the messages there are. -/
theorem content_eq (hforest : Forest ds.Inside) (R : Reals) (arrays : ℕ → List Packed)
    {budget budget' : ℕ} (h : ds.length ≤ i + budget) (h' : ds.length ≤ i + budget') :
    ds.content R arrays budget i = ds.content R arrays budget' i := by
  have hnone (b : ℕ) {i : ℕ} (hi : ds[i]? = none) : ds.content R arrays b i = [] := by
    cases b with
    | zero => rfl
    | succ b => rw [content, hi]
  induction budget generalizing i budget' with
  | zero =>
    have hi : ds[i]? = none := List.getElem?_eq_none h
    rw [hnone 0 hi, hnone budget' hi]
  | succ budget ih =>
    cases hd : ds[i]? with
    | none => rw [hnone _ hd, hnone _ hd]
    | some d =>
      obtain ⟨hlt, -⟩ := List.getElem?_eq_some_iff.1 hd
      obtain ⟨budget', rfl⟩ : ∃ b, budget' = b + 1 := ⟨budget' - 1, by omega⟩
      simp only [content, hd]
      congr 1
      refine List.map_congr_left fun s hs => ?_
      have hlt' := hforest.lt i s.1 (inside_of_getElem? hd hs)
      rw [@ih s.1 budget' (by omega) (by omega)]

/-- The bytes of the message at a place. -/
def bytes (R : Reals) (ds : Drafts) (arrays : ℕ → List Packed) (i : ℕ) : Bytes :=
  encodeFields (ds.content R arrays ds.length i)

/-- The fields of a message. -/
def fields (R : Reals) (ds : Drafts) (arrays : ℕ → List Packed) (i : ℕ) (d : Draft) :
    List WireField :=
  d.fields.map (fun v => wireField v.1 v.2) ++ (arrays i).map (packedField R) ++
    d.sub.map fun s => wireField s.2 (.lend (ds.bytes R arrays s.1))

theorem content_eq_fields (hforest : Forest ds.Inside) (R : Reals) (arrays : ℕ → List Packed)
    (hd : ds[i]? = some d) :
    ds.content R arrays ds.length i = ds.fields R arrays i d := by
  obtain ⟨hlt, -⟩ := List.getElem?_eq_some_iff.1 hd
  have hsucc : ds.length ≤ i + (ds.length + 1) := by omega
  rw [content_eq hforest R arrays (Nat.le_add_left _ _) hsucc, content, hd]
  rfl

/-- A message takes no more room than one that it is under. -/
theorem length_bytes_le (hforest : Forest ds.Inside) (R : Reals) (arrays : ℕ → List Packed) {k : ℕ}
    (hk : Forest.Under ds.Inside i k) :
    (ds.bytes R arrays k).length ≤ (ds.bytes R arrays i).length := by
  induction hk using Relation.ReflTransGen.head_induction_on with
  | refl => exact le_rfl
  | @head i j hj hk ih =>
    obtain ⟨d, f, hd, hmem⟩ := hj
    have hfield : wireField f (.lend (ds.bytes R arrays j)) ∈ ds.fields R arrays i d :=
      List.mem_append_right _ (List.mem_map.2 ⟨(j, f), hmem, rfl⟩)
    calc (ds.bytes R arrays k).length
      _ ≤ (ds.bytes R arrays j).length := ih
      _ ≤ (wireField f (.lend (ds.bytes R arrays j))).encode.length := length_le_encode_lend f _
      _ ≤ (encodeFields (ds.fields R arrays i d)).length := length_encode_le_of_mem hfield
      _ = (ds.bytes R arrays i).length := by rw [bytes, content_eq_fields hforest R arrays hd]

/-- The values of a message take no more room than the message. -/
theorem length_values_le (hforest : Forest ds.Inside) (R : Reals) (arrays : ℕ → List Packed)
    (hd : ds[i]? = some d) :
    d.bytes.length ≤ (ds.bytes R arrays i).length := by
  rw [bytes, content_eq_fields hforest R arrays hd, fields]
  simp only [Draft.bytes, encodeFields, List.flatMap_append, List.length_append]
  omega

end Drafts

namespace Draft

/-- The arrays, in the order of the fields. -/
def arrays (d : Draft) : List Packed := d.type.fields.filterMap fun f => d.packed f.name

/-- No array has numbers that are written too far apart, or too many of them. -/
def Fits (d : Draft) : Prop := ∀ p ∈ d.arrays, WMessage.FitsStride p ∧ p.data.length < arrayLimit

instance (d : Draft) : Decidable d.Fits := inferInstanceAs (Decidable (∀ p ∈ d.arrays, _ ∧ _))

theorem Sound.mem_arrays {d : Draft} (h : d.Sound) {key : String} {p : Packed}
    (hp : d.packed key = some p) :
    p ∈ d.arrays := by
  obtain ⟨f, hf, -⟩ := h.packed key p hp
  have hname : f.name = key := by simpa using List.find?_some hf
  exact List.mem_filterMap.2 ⟨f, List.mem_of_find?_eq_some hf, by rw [hname, hp]⟩

theorem Sound.moderate {d : Draft} (h : d.Sound) (hfits : d.Fits)
    (hsize : d.bytes.length < 2 ^ 27) : d.Moderate :=
  ⟨hsize, fun _ p hp => (hfits p (h.mem_arrays hp)).2⟩

end Draft

/-- The arrays of the message at a place. -/
def Drafts.arrays (ds : Drafts) (i : ℕ) : List Packed := (ds[i]?.map Draft.arrays).getD []

namespace WMessage

variable {m : WMessage} {d : Draft}

/-- The arrays, slot by slot. -/
def arrays (m : WMessage) : List Packed :=
  (m.packed.getD (MapSp.new 4)).foreach.map PackedArray.read

/-- The slots hold each array once. -/
theorem Shows.arrays_perm (h : m.Shows d) (hsound : d.Sound) : m.arrays.Perm d.arrays := by
  obtain ⟨slots, hholds, hrel⟩ := h.packed
  obtain ⟨keys, hkeys, hmem, hforeach⟩ := hholds.foreach_eq
  have hread (key : String) : (slots key).map PackedArray.read = d.packed key := by
    have hkey := hrel key
    generalize slots key = a, d.packed key = p at hkey ⊢
    cases hkey with
    | none => rfl
    | some hshows => rw [Option.map_some, hshows.read_eq]
  have harrays : d.arrays = (d.type.fields.map Field.name).filterMap d.packed := by
    rw [Draft.arrays, List.filterMap_map]
    rfl
  have hslots : m.arrays = keys.filterMap d.packed := by
    rw [arrays, hforeach, List.map_filterMap]
    exact List.filterMap_congr fun key _ => hread key
  have hfilter (l : List String) :
      l.filterMap d.packed = (l.filter fun key => (d.packed key).isSome).filterMap d.packed := by
    rw [List.filterMap_filter]
    refine List.filterMap_congr fun key _ => ?_
    cases d.packed key <;> simp
  have hperm : keys.Perm ((d.type.fields.map Field.name).filter fun key =>
      (d.packed key).isSome) := by
    rw [List.perm_ext_iff_of_nodup hkeys (d.type.distinct.filter _)]
    intro key
    rw [hmem, List.mem_filter, ← hread key, Option.isSome_map]
    refine ⟨fun hkey => ⟨?_, hkey⟩, And.right⟩
    obtain ⟨p, hp⟩ := Option.isSome_iff_exists.1 hkey
    obtain ⟨f, hf, -⟩ := hsound.packed key p.read (by rw [← hread key, hp, Option.map_some])
    exact List.mem_map.2 ⟨f, List.mem_of_find?_eq_some hf, by simpa using List.find?_some hf⟩
  rw [hslots, harrays, hfilter (d.type.fields.map Field.name)]
  exact hperm.filterMap d.packed

theorem length_encode_packedField (R : Reals) (p : Packed) :
    (p.bytes R).length ≤ (packedField R p).encode.length := by
  simp only [WireField.encode, packedField, WireValue.encode, List.length_append]
  omega

/-- The arrays come behind the values. -/
theorem Shows.packAll (H : Heap UInt8) (R : Reals) (h : m.Shows d) (hsound : d.Sound)
    (hfits : d.Fits)
    (hsize : (d.bytes ++ encodeFields (m.arrays.map (packedField R))).length ≤ 2 ^ 27) :
    ∃ out error, m.packAll H R = some ({ m with out }, error) ∧ out.Valid ∧
      out.written = d.bytes ++ encodeFields (m.arrays.map (packedField R)) := by
  have harrays : (m.arrays.flatMap fun p => (packedField R p).encode) =
      encodeFields (m.arrays.map (packedField R)) := by
    rw [encodeFields, List.flatMap_map]
  have hstep (st : Buffer UInt8 × Option String) (p : Packed) (hp : p ∈ m.arrays)
      (hvalid : st.1.Valid)
      (hsize : st.1.written.length + (packedField R p).encode.length ≤ 2 ^ 27) :
      ∃ st', packNext H R st p = some st' ∧ st'.1.Valid ∧
        st'.1.written = st.1.written ++ (packedField R p).encode := by
    have hmem := (h.arrays_perm hsound).mem_iff.1 hp
    obtain ⟨g, -, hkey⟩ := List.mem_filterMap.1 hmem
    obtain ⟨f, hf, -, hid, -⟩ := hsound.packed g.name p hkey
    have hnumbered := h.numbered f (List.mem_of_find?_eq_some hf)
    have hlen := length_encode_packedField R p
    obtain ⟨b', error, hb', hvalid', hwritten'⟩ :=
      exists_packPacked H R p (hid ▸ hnumbered) (hfits p hmem).1 hvalid
      (by omega)
    exact ⟨(b', error.or st.2), by simp [packNext, hb'], hvalid', hwritten'⟩
  have hsize' : m.out.written.length + (m.arrays.flatMap fun p => (packedField R p).encode).length ≤
      2 ^ 27 := by
    rwa [harrays, h.written, ← List.length_append]
  have hvalid₀ : (m.out, (none : Option String)).1.Valid := h.valid
  obtain ⟨⟨out, error⟩, hout, hvalid, hwritten⟩ :=
    Buffer.exists_foldlM Prod.fst hstep hvalid₀ hsize'
  rw [harrays, h.written] at hwritten
  obtain hpacked | ⟨packed, hpacked⟩ := Option.eq_none_or_eq_some m.packed
  · have hnil : m.arrays = [] := by
      rw [arrays, hpacked]
      rfl
    rw [hnil] at hout
    cases hout
    have hsame : m.packAll H R = some (m, none) := by rw [WMessage.packAll, hpacked]
    exact ⟨m.out, none, hsame, hvalid, hwritten⟩
  · have hforeach : m.arrays =
        packed.foreach.map PackedArray.read := by rw [arrays, hpacked, Option.getD_some]
    refine ⟨out, error, ?_, hvalid, hwritten⟩
    rw [WMessage.packAll, hpacked]
    simp only
    rw [← hforeach, hout, Option.map_some]

/-- A message inside comes behind what is in the buffer. -/
theorem exists_putMessage (H : Heap UInt8) (hvalid : m.out.Valid) {f : Field} (hf : f.Numbered)
    {s : Bytes} (hsize : m.out.written.length + (wireField f (.lend s)).encode.length ≤ 2 ^ 27) :
    ∃ out, m.putMessage H f s = some ({ m with out }, none) ∧ out.Valid ∧
      out.written = m.out.written ++ (wireField f (.lend s)).encode := by
  have hs := length_le_encode_lend f s
  have hlen : (wireField f (.lend s)).encode.length ≤ 20 + s.length := by
    have htag := length_tag_le f.id 2
    have hlength := length_pbcVEncode32_le (BitVec.ofNat 32 s.length)
    rw [encode_lend hf (by omega), List.length_append, List.length_append]
    omega
  have hlimit : 2 * (m.out.written.length + (20 + s.length)) ≤ intLimit := by
    rw [intLimit_eq]
    omega
  obtain ⟨out, hout, hvalid', hwritten⟩ := Buffer.exists_reserve_put H hvalid hlen hlimit
  refine ⟨out, ?_, hvalid', hwritten⟩
  obtain ⟨out₀, h₀, hout⟩ := Option.bind_eq_some_iff.1 hout
  rw [encode_lend hf (by omega), ← Buffer.put_put, ← Buffer.put_put] at hout
  obtain ⟨out₂, h₂, h₃⟩ := Option.bind_eq_some_iff.1 hout
  obtain ⟨out₁, h₁, h₂⟩ := Option.bind_eq_some_iff.1 h₂
  simp only [putMessage, h₀, h₁, h₂, h₃, Option.bind_eq_bind, Option.bind_some]

end WMessage

namespace Writers

variable {ws : Writers} {ds : Drafts} {arrays : ℕ → List Packed} {i : ℕ}

/-- The messages under a place are as the calls left them. -/
def Intact (ws : Writers) (ds : Drafts) (arrays : ℕ → List Packed) (i : ℕ) : Prop :=
  ∀ k, Forest.Under ds.Inside i k → ∀ d, ds[k]? = some d →
    ∃ m, ws.msgs[k]? = some m ∧ m.Shows d ∧ m.arrays = arrays k

/-- Nothing is changed apart from what is under a place. -/
def Keeps (ds : Drafts) (i : ℕ) (ws ws' : Writers) : Prop :=
  ∀ k, ¬ Forest.Under ds.Inside i k → ws'.msgs[k]? = ws.msgs[k]?

theorem exists_update {m : WMessage} {f : WMessage → Written} {out : Buffer UInt8}
    {error : Option String} (hm : ws.msgs[i]? = some m) (hf : f m = some ({ m with out }, error)) :
    ∃ ws', ws.update i f = some ws' ∧ ws'.msgs[i]? = some { m with out } ∧
      ∀ k, k ≠ i → ws'.msgs[k]? = ws.msgs[k]? := by
  obtain ⟨hi, -⟩ := List.getElem?_eq_some_iff.1 hm
  refine ⟨⟨ws.msgs.set i { m with out }, error.getD ws.lasterror⟩, ?_, List.getElem?_set_self hi,
    fun k hk => ?_⟩
  · simp only [update, hm, hf, Option.bind_eq_bind, Option.bind_some]
  · exact List.getElem?_set_ne (Ne.symm hk)

/-- The step of the loop over the messages inside. -/
def bufferSub (H : Heap UInt8) (R : Reals) (budget i : ℕ) (ws : Writers) (s : ℕ × Field) :
    Option Writers := do
  let (ws, bytes) ← buffer H R budget ws s.1
  ws.update i fun m => m.putMessage H s.2 bytes

theorem buffer_succ (H : Heap UInt8) (R : Reals) (budget : ℕ) (ws : Writers) (i : ℕ) :
    buffer H R (budget + 1) ws i =
      (ws.update i fun m => m.packAll H R).bind fun ws =>
        ws.msgs[i]?.bind fun m =>
          (m.sub.foldlM (bufferSub H R budget i) ws).bind fun ws =>
            ws.msgs[i]?.bind fun m => some (ws, m.out.written) := by
  rw [buffer]
  rfl

/-- The bytes of the messages inside, as far as they are listed. -/
def subFields (R : Reals) (ds : Drafts) (arrays : ℕ → List Packed) (budget : ℕ)
    (subs : List (ℕ × Field)) :
    List WireField :=
  subs.map fun s => wireField s.2 (.lend (encodeFields (ds.content R arrays budget s.1)))

/-- What `pbc_wmessage_buffer` does to the message at a place and to those under it. -/
def Buffers (H : Heap UInt8) (R : Reals) (ds : Drafts) (arrays : ℕ → List Packed) (budget : ℕ)
    (ws : Writers) (i : ℕ) : Prop :=
  ∃ ws', buffer H R budget ws i = some (ws', encodeFields (ds.content R arrays budget i)) ∧
    Keeps ds i ws ws'

/-- The loop over the messages inside. -/
theorem exists_bufferSubs (hnested : ds.Nested) {budget : ℕ} {subs : List (ℕ × Field)}
    (hinside : ∀ s ∈ subs, ds.Inside i s.1) (hnumbered : ∀ s ∈ subs, s.2.Numbered)
    (hnodup : (subs.map Prod.fst).Nodup)
    (hchild : ∀ s ∈ subs, ∀ ws, Intact ws ds arrays s.1 →
      (encodeFields (ds.content R arrays budget s.1)).length ≤ 2 ^ 27 →
      Buffers H R ds arrays budget ws s.1)
    {m : WMessage} (hm : ws.msgs[i]? = some m) (hvalid : m.out.Valid)
    (hintact : ∀ s ∈ subs, Intact ws ds arrays s.1)
    (hsize : m.out.written.length +
      (encodeFields (subFields R ds arrays budget subs)).length ≤ 2 ^ 27) :
    ∃ ws' m', subs.foldlM (bufferSub H R budget i) ws = some ws' ∧ ws'.msgs[i]? = some m' ∧
      m'.out.written = m.out.written ++ encodeFields (subFields R ds arrays budget subs) ∧
      ∀ k, k ≠ i → (∀ s ∈ subs, ¬ Forest.Under ds.Inside s.1 k) → ws'.msgs[k]? = ws.msgs[k]? := by
  induction subs generalizing ws m with
  | nil => exact ⟨ws, m, rfl, hm, by simp [subFields, encodeFields], fun _ _ _ => rfl⟩
  | cons s subs ih =>
    have hcons : encodeFields (subFields R ds arrays budget (s :: subs)) =
        (wireField s.2 (.lend (encodeFields (ds.content R arrays budget s.1)))).encode ++
          encodeFields (subFields R ds arrays budget subs) := List.flatMap_cons
    rw [hcons, List.length_append] at hsize
    have hlend := length_le_encode_lend s.2 (encodeFields (ds.content R arrays budget s.1))
    -- the message inside is encoded, which leaves this one as it is
    obtain ⟨ws₁, hws₁, hkeeps⟩ := hchild s (by simp) ws (hintact s (by simp)) (by omega)
    have hs := hinside s (by simp)
    have hm₁ : ws₁.msgs[i]? = some m := (hkeeps i (hnested.forest.not_under hs)).trans hm
    have hfit : m.out.written.length +
        (wireField s.2 (.lend (encodeFields (ds.content R arrays budget s.1)))).encode.length ≤
          2 ^ 27 := by omega
    obtain ⟨out, hput, hvalid₂, hwritten₂⟩ :=
      WMessage.exists_putMessage H hvalid (hnumbered s (by simp)) hfit
    obtain ⟨ws₂, hws₂, hm₂, hothers⟩ :=
      exists_update (f := fun m =>
        m.putMessage H s.2 (encodeFields (ds.content R arrays budget s.1))) hm₁ hput
    rw [List.map_cons, List.nodup_cons] at hnodup
    -- those that follow are under none of its messages
    have hintact₂ : ∀ t ∈ subs, Intact ws₂ ds arrays t.1 := by
      intro t ht k hk d hd
      have htinside := hinside t (by simp [ht])
      have hki : k ≠ i := by
        rintro rfl
        exact hnested.forest.not_under htinside hk
      have hsk : ¬ Forest.Under ds.Inside s.1 k := fun hsk =>
        hnodup.1 (hnested.forest.eq_of_under htinside hs hk hsk ▸ List.mem_map_of_mem ht)
      rw [hothers k hki, hkeeps k hsk]
      exact hintact t (by simp [ht]) k hk d hd
    have hsize₂ : out.written.length + (encodeFields (subFields R ds arrays budget subs)).length ≤
        2 ^ 27 := by
      rw [hwritten₂, List.length_append]
      omega
    obtain ⟨ws', m', hws', hm', hwritten', hrest⟩ := ih (fun t ht => hinside t (by simp [ht]))
      (fun t ht => hnumbered t (by simp [ht])) hnodup.2 (fun t ht => hchild t (by simp [ht])) hm₂
        hvalid₂ hintact₂ hsize₂
    refine ⟨ws', m', ?_, hm', ?_, fun k hki hk => ?_⟩
    · have hstep : bufferSub H R budget i ws s = some ws₂ := by
        simp only [bufferSub, hws₁, hws₂, Option.bind_eq_bind, Option.bind_some]
      rw [List.foldlM_cons, hstep]
      exact hws'
    · rw [hwritten', hcons]
      show out.written ++ _ = _
      rw [hwritten₂, List.append_assoc]
    · rw [hrest k hki fun t ht => hk t (by simp [ht]), hothers k hki, hkeeps k (hk s (by simp))]

/-- **The bytes of a message.**  `pbc_wmessage_buffer` returns the encoding of the values, the
arrays and the messages inside, and goes through each of these once. -/
theorem buffer_spec (hnested : ds.Nested) (hsound : ds.Sound)
    (hfits : ∀ d ∈ ds, d.Fits) {budget : ℕ} (hi : i < ds.length)
    (hbudget : ds.length ≤ i + budget) (hintact : Intact ws ds arrays i)
    (hsize : (encodeFields (ds.content R arrays budget i)).length ≤ 2 ^ 27) :
    Buffers H R ds arrays budget ws i := by
  induction budget generalizing ws i with
  | zero => omega
  | succ budget ih =>
    have hd : ds[i]? = some ds[i] := List.getElem?_eq_getElem hi
    generalize ds[i] = d at hd
    have hmem := List.mem_of_getElem? hd
    have hcontent : ds.content R arrays (budget + 1) i =
        d.fields.map (fun v => wireField v.1 v.2) ++
        (arrays i).map (packedField R) ++ subFields R ds arrays budget d.sub := by
      rw [Drafts.content, hd]
      rfl
    have hencode : encodeFields (ds.content R arrays (budget + 1) i) =
        d.bytes ++ encodeFields ((arrays i).map (packedField R)) ++
          encodeFields (subFields R ds arrays budget d.sub) := by
      rw [hcontent]
      simp only [encodeFields, Draft.bytes, List.flatMap_append]
    rw [hencode, List.length_append] at hsize
    obtain ⟨m, hm, hshows, harrays⟩ := hintact i .refl d hd
    -- the arrays first
    obtain ⟨out, error, hpack, hvalid₁, hwritten₁⟩ :=
      hshows.packAll H R (hsound d hmem) (hfits d hmem) (by rw [harrays]; omega)
    obtain ⟨ws₁, hws₁, hm₁, hothers⟩ := exists_update hm hpack
    -- then what is inside
    have hinside : ∀ s ∈ d.sub, ds.Inside i s.1 := fun s hs => Drafts.inside_of_getElem? hd hs
    have hnumbered : ∀ s ∈ d.sub, s.2.Numbered :=
      fun s hs => hshows.numbered s.2 ((hsound d hmem).sub s hs).1
    have hchild : ∀ s ∈ d.sub, ∀ ws, Intact ws ds arrays s.1 →
        (encodeFields (ds.content R arrays budget s.1)).length ≤ 2 ^ 27 →
          Buffers H R ds arrays budget ws s.1 := by
      intro s hs ws hws hsize
      have hlt := hnested.forest.lt i s.1 (hinside s hs)
      exact ih (hnested.lt i s.1 (hinside s hs)) (by omega) hws hsize
    have hintact₁ : ∀ s ∈ d.sub, Intact ws₁ ds arrays s.1 := by
      intro s hs k hk e he
      have hki : k ≠ i := by
        rintro rfl
        exact hnested.forest.not_under (hinside s hs) hk
      rw [hothers k hki]
      exact hintact k (.head (hinside s hs) hk) e he
    have hsize₁ : ({ m with out } : WMessage).out.written.length +
        (encodeFields (subFields R ds arrays budget d.sub)).length ≤ 2 ^ 27 := by
      rw [hwritten₁, harrays]
      omega
    obtain ⟨ws', m', hws', hm', hwritten', hrest⟩ :=
      exists_bufferSubs hnested hinside hnumbered (hnested.nodup d hmem) hchild hm₁ hvalid₁
        hintact₁ hsize₁
    refine ⟨ws', ?_, fun k hk => ?_⟩
    · rw [buffer_succ, hws₁, Option.bind_some, hm₁, Option.bind_some]
      simp only [hshows.sub, hws', hm', Option.bind_some]
      rw [hencode, hwritten', hwritten₁, harrays]
    · have hki : k ≠ i := by
        rintro rfl
        exact hk .refl
      rw [hrest k hki fun s hs hsk => hk (.head (hinside s hs) hsk), hothers k hki]

end Writers

/-! ## Runs -/

/-- A message with an array, and messages of its own type inside. -/
def nodeMessage : PbcMessage :=
  ⟨[⟨1, "value", .sint32, .optional, "", ""⟩, ⟨2, "marks", .uint32, .packed, "", ""⟩,
    ⟨3, "child", .message, .repeated, "Node", ""⟩], by decide⟩

def nodeTypes : PbcTypes :=
  ⟨fun _ => none, fun name => if name = "Node" then some nodeMessage else none⟩

def nodeCalls : List WriteCall :=
  [.integer 0 "marks" ⟨300, 0⟩, .message 0 "child", .integer 1 "value" ⟨7, 0⟩,
    .integer 0 "marks" ⟨1, 0⟩]

theorem msgs_node : nodeTypes.msgs "Node" = some nodeMessage := rfl

theorem numbered_nodeTypes : nodeTypes.Numbered := by
  intro name msg hmsg f hf
  have hmsg : (if name = "Node" then some nodeMessage else none) = some msg := hmsg
  split_ifs at hmsg
  obtain rfl := Option.some.inj hmsg
  revert f
  decide

namespace Writers

variable {ds : Drafts}

/-- A run of calls, and the bytes that it comes to. -/
theorem exists_buffer (H : Heap UInt8) (htypes : types.Numbered) {typeName : String}
    {msg : PbcMessage} (hmsg : types.msgs typeName = some msg) {calls : List WriteCall}
    (hkeys : ∀ c ∈ calls, stringHash c.key ≠ 0)
    (hrun : Lts.run (Drafts.step R types) [Draft.new msg] calls = some ds)
    (hfits : ∀ d ∈ ds, d.Fits) (hsize : (ds.bytes R ds.arrays 0).length < 2 ^ 27) :
    ∃ ws ws' arrays,
      (Writers.new H types typeName).bind (fun ws => Lts.run (Writers.step H R types) ws calls) =
        some ws ∧
      ws.Shows ds ∧ (∀ i d, ds[i]? = some d → (arrays i).Perm d.arrays) ∧
      (ds.bytes R arrays 0).length = (ds.bytes R ds.arrays 0).length ∧
      buffer H R ds.length ws 0 = some (ws', ds.bytes R arrays 0) := by
  have hnested := Drafts.nested_of_run hrun
  have hsound := Drafts.sound_of_run hrun
  have hmoderate : ds.Moderate := by
    intro d hd
    refine (hsound d hd).moderate (hfits d hd) ?_
    obtain ⟨i, hi, rfl⟩ := List.getElem_of_mem hd
    exact calc ds[i].bytes.length
      _ ≤ (ds.bytes R ds.arrays i).length :=
        Drafts.length_values_le hnested.forest R ds.arrays (List.getElem?_eq_getElem hi)
      _ ≤ (ds.bytes R ds.arrays 0).length :=
        Drafts.length_bytes_le hnested.forest R ds.arrays (hnested.reached i hi)
      _ < 2 ^ 27 := hsize
  obtain ⟨ws, hws, hshows⟩ := shows_of_run htypes hmsg hkeys hrun hmoderate
  let arrays (i : ℕ) : List Packed := (ws.msgs[i]?.map WMessage.arrays).getD []
  have harrays {i : ℕ} {m : WMessage} (hm : ws.msgs[i]? = some m) : m.arrays = arrays i := by
    simp only [arrays, hm, Option.map_some, Option.getD_some]
  have hperm (i : ℕ) (d : Draft) (hd : ds[i]? = some d) : (arrays i).Perm d.arrays := by
    obtain ⟨m, hm, hshows⟩ := hshows.exists_message hd
    rw [← harrays hm]
    exact hshows.arrays_perm (hsound d (List.mem_of_getElem? hd))
  have hintact : Intact ws ds arrays 0 := by
    intro k _ d hd
    obtain ⟨m, hm, hshows⟩ := hshows.exists_message hd
    exact ⟨m, hm, hshows, harrays hm⟩
  have hlen : (ds.bytes R arrays 0).length = (ds.bytes R ds.arrays 0).length := by
    refine Drafts.length_content_eq R (fun i d hd => ?_) ds.length 0
    rw [Drafts.arrays, hd]
    exact hperm i d hd
  have hbudget : ds.length ≤ 0 + ds.length := by omega
  obtain ⟨ws', hws', -⟩ := buffer_spec hnested hsound hfits (Drafts.length_pos_of_run hrun)
    hbudget hintact
    (hlen.trans_le hsize.le)
  exact ⟨ws, ws', arrays, hws, hshows, hperm, hlen, hws'⟩

/-- **Writing messages.**  Every run of calls writes inside the buffers and the arrays only, and
comes to the encoding of what was written, the arrays in some order: as long as that does not
come to `2 ^ 27` bytes, no array has `2 ^ 26` numbers or numbers that are written too far apart,
and no key has the hash 0. -/
theorem buffer_of_run (H : Heap UInt8) (htypes : types.Numbered) {typeName : String}
    {msg : PbcMessage} (hmsg : types.msgs typeName = some msg) {calls : List WriteCall}
    (hkeys : ∀ c ∈ calls, stringHash c.key ≠ 0)
    (hrun : Lts.run (Drafts.step R types) [Draft.new msg] calls = some ds)
    (hfits : ∀ d ∈ ds, d.Fits) (hsize : (ds.bytes R ds.arrays 0).length < 2 ^ 27) :
    ∃ ws ws' arrays,
      (Writers.new H types typeName).bind (fun ws => Lts.run (Writers.step H R types) ws calls) =
        some ws ∧
      ws.Shows ds ∧ (∀ i d, ds[i]? = some d → (arrays i).Perm d.arrays) ∧
      buffer H R ds.length ws 0 = some (ws', ds.bytes R arrays 0) := by
  obtain ⟨ws, ws', arrays, hws, hshows, hperm, -, hbuffer⟩ :=
    exists_buffer H htypes hmsg hkeys hrun hfits hsize
  exact ⟨ws, ws', arrays, hws, hshows, hperm, hbuffer⟩

theorem hashed_nodeCalls : ∀ c ∈ nodeCalls, stringHash c.key ≠ 0 := by decide +kernel

/-- An array of two numbers, and a message of the same type inside. -/
theorem buffer_of_run_node : ∃ ds ws ws' arrays,
    Lts.run (Drafts.step Reals.zero nodeTypes) [Draft.new nodeMessage] nodeCalls = some ds ∧
      (Writers.new (Heap.const 0) nodeTypes "Node").bind
        (fun ws => Lts.run (Writers.step (Heap.const 0) Reals.zero nodeTypes) ws nodeCalls) =
          some ws ∧
      buffer (Heap.const 0) Reals.zero ds.length ws 0 = some
        (ws', ds.bytes Reals.zero arrays 0) := by
  obtain ⟨ds, hrun, hfits, hsize⟩ := Lts.exists_run_of_any
    (p := fun ds : Drafts => (∀ d ∈ ds, d.Fits) ∧
      (ds.bytes Reals.zero ds.arrays 0).length < 2 ^ 27)
    (show (Lts.run (Drafts.step Reals.zero nodeTypes) [Draft.new nodeMessage] nodeCalls).any
      _ = true by
      decide +kernel)
  obtain ⟨ws, ws', arrays, hws, -, -, hws'⟩ :=
    buffer_of_run (Heap.const 0) numbered_nodeTypes msgs_node hashed_nodeCalls hrun hfits hsize
  exact ⟨ds, ws, ws', arrays, hrun, hws, hws'⟩

end Writers

end SockTestProgram
