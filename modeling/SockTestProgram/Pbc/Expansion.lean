import SockTestProgram.Pbc.MessageTable

/-!
# What the tables of messages hold

In every run of decoding and accesses a table is either as it was made for a message in a field, or
it holds the values of its bytes (`Sound`).  It is no longer as it was made from the first ordinary
access on (`pending_eq_false_iff`).
-/

open Lts

namespace SockTestProgram

/-! ## Values and what stands for them -/

/-- The tables stay where they are, for the same messages. -/
def Keeps (h h' : LuaHeap) : Prop :=
  ∀ (r : ℕ) (t : MessageTable), h[r]? = some t →
    ∃ t' : MessageTable, h'[r]? = some t' ∧ t'.typeName = t.typeName ∧ t'.buffer = t.buffer

namespace Keeps

variable {h h' h'' : LuaHeap}

theorem trans (hk : Keeps h h') (hk' : Keeps h' h'') : Keeps h h'' := by
  intro r t ht
  obtain ⟨t', ht', htype, hbuffer⟩ := hk r t ht
  obtain ⟨t'', ht'', htype', hbuffer'⟩ := hk' r t' ht'
  exact ⟨t'', ht'', htype'.trans htype, hbuffer'.trans hbuffer⟩

theorem append (h new : LuaHeap) : Keeps h (h ++ new) := by
  intro r t ht
  obtain ⟨hlt, -⟩ := List.getElem?_eq_some_iff.1 ht
  exact ⟨t, by rw [List.getElem?_append_left hlt, ht], rfl, rfl⟩

theorem set {r : ℕ} {t t' : MessageTable} (ht : h[r]? = some t) (htype : t'.typeName = t.typeName)
    (hbuffer : t'.buffer = t.buffer) : Keeps h (h.set r t') := by
  intro q u hu
  obtain ⟨hlt, -⟩ := List.getElem?_eq_some_iff.1 hu
  by_cases hq : q = r
  · subst hq
    obtain rfl := Option.some.inj (ht.symm.trans hu)
    exact ⟨t', List.getElem?_set_self hlt, htype, hbuffer⟩
  · exact ⟨u, by rw [List.getElem?_set_ne (Ne.symm hq), hu], rfl, rfl⟩

end Keeps

/-- A Lua value stands for the value of a field: a table for the message it was made for, and any
other value is the one that is pushed, if that is not nil. -/
def Shows (h : LuaHeap) (c : Field × PbcValue) (v : MessageValue) : Prop :=
  match c.1.type, c.2 with
  | .message, .s buffer =>
    ∃ r t, v = .table r ∧ h[r]? = some t ∧ t.typeName = c.1.typeName ∧ t.buffer = buffer
  | _, _ => v = pushScalar c.1 c.2 ∧ v ≠ .nil

theorem shows_message {h : LuaHeap} {f : Field} {buffer : Bytes} (hf : f.type = .message)
    {v : MessageValue} : Shows h (f, .s buffer) v ↔
      ∃ r t, v = .table r ∧ h[r]? = some t ∧ t.typeName = f.typeName ∧ t.buffer = buffer := by
  simp only [Shows, hf]

/-- The value of a field is a message. -/
def IsMessage (c : Field × PbcValue) : Prop := c.1.type = .message ∧ ∃ buffer, c.2 = .s buffer

theorem shows_scalar {h : LuaHeap} {c : Field × PbcValue} (hc : ¬ IsMessage c) {v : MessageValue} :
    Shows h c v ↔ v = pushScalar c.1 c.2 ∧ v ≠ .nil := by
  unfold Shows
  split
  next buffer hf hv => exact absurd ⟨hf, buffer, hv⟩ hc
  next => rfl

theorem pushValue_scalar {h : LuaHeap} {c : Field × PbcValue} (hc : ¬ IsMessage c) :
    pushValue h c.1 c.2 = (h, pushScalar c.1 c.2) := by
  unfold pushValue
  split
  next buffer hf hv => exact absurd ⟨hf, buffer, hv⟩ hc
  next => rfl

theorem pushScalar_eq_nil_iff (f : Field) (v : PbcValue) :
    pushScalar f v = .nil ↔ v.unknown = true := by
  cases v with
  | i v => cases hf : f.type <;> simp [pushScalar, PbcValue.unknown, hf]
  | f v => simp [pushScalar, PbcValue.unknown]
  | float low => simp [pushScalar, PbcValue.unknown]
  | e id name => cases name <;> simp [pushScalar, PbcValue.unknown]
  | s buffer => simp [pushScalar, PbcValue.unknown]

theorem Shows.ne_nil {h : LuaHeap} {c : Field × PbcValue} {v : MessageValue} (hv : Shows h c v) :
    v ≠ .nil := by
  by_cases hc : IsMessage c
  · obtain ⟨f, v'⟩ := c
    obtain ⟨hf : f.type = .message, buffer, rfl⟩ := hc
    obtain ⟨r, t, rfl, -⟩ := (shows_message hf).1 hv
    simp
  · exact ((shows_scalar hc).1 hv).2

theorem Shows.keeps {h h' : LuaHeap} (hk : Keeps h h') {c : Field × PbcValue} {v : MessageValue}
    (hv : Shows h c v) : Shows h' c v := by
  by_cases hc : IsMessage c
  · obtain ⟨f, v'⟩ := c
    obtain ⟨hf : f.type = .message, buffer, rfl⟩ := hc
    obtain ⟨r, t, rfl, ht, htype, hbuffer⟩ := (shows_message hf).1 hv
    obtain ⟨t', ht', htype', hbuffer'⟩ := hk r t ht
    exact (shows_message hf).2 ⟨r, t', rfl, ht', htype'.trans htype, hbuffer'.trans hbuffer⟩
  · exact (shows_scalar hc).2 ((shows_scalar hc).1 hv)

/-- As `decode_message_cb` makes it. -/
structure MessageTable.Fresh (t : MessageTable) : Prop where
  nested : t.nested = true
  pending : t.pending = true
  fields : t.fields = fun _ => .nil
  metatable : t.metatable = some .decodeMessage

theorem fresh_decodeMessageCb (typeName : String) (buffer : Bytes) :
    (decodeMessageCb typeName buffer).Fresh := ⟨rfl, rfl, rfl, rfl⟩

/-- What is pushed stands for the value, unless it is a number without a name: then it is nil. -/
theorem pushValue_spec (h : LuaHeap) (c : Field × PbcValue) :
    ∃ new, (pushValue h c.1 c.2).1 = h ++ new ∧ (∀ t ∈ new, t.Fresh) ∧
      (c.2.unknown = true → (pushValue h c.1 c.2).2 = .nil) ∧
      (c.2.unknown = false → Shows (pushValue h c.1 c.2).1 c (pushValue h c.1 c.2).2) := by
  by_cases hc : IsMessage c
  · obtain ⟨f, v⟩ := c
    obtain ⟨hf : f.type = .message, buffer, rfl⟩ := hc
    have hpush : pushValue h f (.s buffer) =
        (h ++ [decodeMessageCb f.typeName buffer], .table h.length) := by
      simp only [pushValue, hf]
    refine ⟨[decodeMessageCb f.typeName buffer], by rw [hpush], ?_, by simp [PbcValue.unknown], ?_⟩
    · intro t ht
      rw [List.mem_singleton.1 ht]
      exact fresh_decodeMessageCb _ _
    · intro _
      rw [hpush]
      exact (shows_message hf).2 ⟨h.length, decodeMessageCb f.typeName buffer, rfl,
        by simp, rfl, rfl⟩
  · rw [pushValue_scalar hc]
    refine ⟨[], (List.append_nil h).symm, by simp, ?_, ?_⟩
    · exact (pushScalar_eq_nil_iff c.1 c.2).2
    · intro hknown
      refine (shows_scalar hc).2 ⟨rfl, fun hnil => ?_⟩
      rw [(pushScalar_eq_nil_iff c.1 c.2).1 hnil] at hknown
      exact absurd hknown (by decide)

/-! ## Fields -/

/-- The values of a name. -/
def valuesOf (cs : List (Field × PbcValue)) (n : String) : List (Field × PbcValue) :=
  cs.filter (·.1.name = n)

/-- The field holds what the values make of it: nil if there is none, an array of all that have a
Lua value, or the last one. -/
def Stored (h : LuaHeap) (cs : List (Field × PbcValue)) (fv : FieldValue) : Prop :=
  match cs.getLast? with
  | none => fv = .nil
  | some c =>
    if c.1.isRepeated then
      ∃ items, fv = .array items ∧ List.Forall₂ (Shows h) (cs.filter (·.2.unknown = false)) items
    else if c.2.unknown then fv = .nil
    else ∃ v, fv = .one v ∧ Shows h c v

/-- The field shows the values: nil if there is none, all of them, or the last one. -/
def ShowsField (h : LuaHeap) (cs : List (Field × PbcValue)) (fv : FieldValue) : Prop :=
  match cs.getLast? with
  | none => fv = .nil
  | some c =>
    if c.1.isRepeated then ∃ items, fv = .array items ∧ List.Forall₂ (Shows h) cs items
    else ∃ v, fv = .one v ∧ Shows h c v

/-- Every value that counts has a Lua value. -/
def Known (cs : List (Field × PbcValue)) : Prop :=
  match cs.getLast? with
  | none => True
  | some c => if c.1.isRepeated then ∀ d ∈ cs, d.2.unknown = false else c.2.unknown = false

theorem Stored.keeps {h h' : LuaHeap} (hk : Keeps h h') {cs : List (Field × PbcValue)}
    {fv : FieldValue} (hs : Stored h cs fv) : Stored h' cs fv := by
  unfold Stored at hs ⊢
  split at hs
  · exact hs
  · split_ifs at hs ⊢ with hrep hunknown
    · obtain ⟨items, rfl, hitems⟩ := hs
      exact ⟨items, rfl, hitems.imp fun _ _ => Shows.keeps hk⟩
    · exact hs
    · obtain ⟨v, rfl, hv⟩ := hs
      exact ⟨v, rfl, hv.keeps hk⟩

/-- A field shows its values exactly if they all have a Lua value. -/
theorem Stored.showsField_iff {h : LuaHeap} {cs : List (Field × PbcValue)} {fv : FieldValue}
    (hs : Stored h cs fv) : ShowsField h cs fv ↔ Known cs := by
  unfold Stored at hs
  unfold ShowsField Known
  split at hs
  · simp [hs]
  next c hc =>
    split_ifs at hs ⊢ with hrep hunknown
    · obtain ⟨items, rfl, hitems⟩ := hs
      constructor
      · rintro ⟨items', hitems', hshows⟩
        obtain rfl := FieldValue.array.inj hitems'
        have hlength : (cs.filter (·.2.unknown = false)).length = cs.length :=
          hitems.length_eq.trans hshows.length_eq.symm
        simpa using List.length_filter_eq_length_iff.1 hlength
      · intro hall
        rw [List.filter_eq_self.2 (by simpa using hall)] at hitems
        exact ⟨items, rfl, hitems⟩
    · refine iff_of_false ?_ (by simp [hunknown])
      rintro ⟨v, hv, hshows⟩
      exact hshows.ne_nil (FieldValue.one.inj (hv.symm.trans hs))
    · exact iff_of_true hs (by simpa using hunknown)

theorem valuesOf_append (cs ds : List (Field × PbcValue)) (n : String) :
    valuesOf (cs ++ ds) n = valuesOf cs n ++ valuesOf ds n := List.filter_append ..

/-! The table that is filled, after one more value. -/

section OneMore

variable (st : LuaHeap × (String → FieldValue)) (c : Field × PbcValue)

theorem decodeCb_fst : (decodeCb st c).1 = (pushValue st.1 c.1 c.2).1 := by
  unfold decodeCb
  split_ifs <;> rfl

theorem decodeCb_snd_of_ne {n : String} (hn : n ≠ c.1.name) : (decodeCb st c).2 n = st.2 n := by
  unfold decodeCb
  split_ifs <;> simp [hn]

theorem decodeCb_snd_repeated (hrep : c.1.isRepeated = true) :
    (decodeCb st c).2 c.1.name = .array (if (pushValue st.1 c.1 c.2).2 = .nil
      then (st.2 c.1.name).items
      else (st.2 c.1.name).items ++ [(pushValue st.1 c.1 c.2).2]) := by
  simp [decodeCb, hrep]

theorem decodeCb_snd_single (hrep : c.1.isRepeated = false) :
    (decodeCb st c).2 c.1.name = .one (pushValue st.1 c.1 c.2).2 := by
  simp [decodeCb, hrep]

end OneMore

/-- The array of a repeated field holds all values that have a Lua value. -/
theorem Stored.items {h : LuaHeap} {cs : List (Field × PbcValue)} {fv : FieldValue}
    (hs : Stored h cs fv) (hrep : ∀ c ∈ cs, c.1.isRepeated = true) :
    List.Forall₂ (Shows h) (cs.filter (·.2.unknown = false)) fv.items := by
  unfold Stored at hs
  split at hs
  next hnone =>
    rw [List.getLast?_eq_none_iff.1 hnone, hs]
    exact .nil
  next d hd =>
    rw [if_pos (hrep d (List.mem_of_getLast? hd))] at hs
    obtain ⟨items, rfl, hall⟩ := hs
    exact hall

/-- One more value. -/
theorem stored_decodeCb {st : LuaHeap × (String → FieldValue)} {cs : List (Field × PbcValue)}
    {c : Field × PbcValue} (hsame : SameField (cs ++ [c]))
    (h : ∀ n, Stored st.1 (valuesOf cs n) (st.2 n)) (n : String) :
    Stored (decodeCb st c).1 (valuesOf (cs ++ [c]) n) ((decodeCb st c).2 n) := by
  obtain ⟨new, hheap, -, hnil, hshows⟩ := pushValue_spec st.1 c
  have hk : Keeps st.1 (pushValue st.1 c.1 c.2).1 := hheap ▸ Keeps.append _ _
  have hst := (h n).keeps hk
  rw [valuesOf_append, decodeCb_fst]
  by_cases hn : n = c.1.name
  · subst hn
    have hlast : valuesOf [c] c.1.name = [c] := by simp [valuesOf]
    rw [hlast]
    unfold Stored
    rw [List.getLast?_concat]
    by_cases hrep : c.1.isRepeated = true
    · -- the values before are those of the same array
      have hfield : ∀ d ∈ valuesOf cs c.1.name, d.1.isRepeated = true := by
        intro d hd
        obtain ⟨hdcs, hname⟩ := List.mem_filter.1 hd
        have hsamefield : d.1 = c.1 := hsame d (by simp [hdcs]) c (by simp) (by simpa using hname)
        rw [hsamefield, hrep]
      have hitems := hst.items hfield
      simp only [hrep, if_true, decodeCb_snd_repeated st c hrep]
      refine ⟨_, rfl, ?_⟩
      rw [List.filter_append]
      by_cases hunknown : c.2.unknown = true
      · rw [if_pos (hnil hunknown)]
        simpa [hunknown] using hitems
      · have hv := hshows (by simpa using hunknown)
        rw [if_neg hv.ne_nil]
        apply List.rel_append hitems
        simpa [hunknown] using hv
    · have hrep' : c.1.isRepeated = false := by simpa using hrep
      simp only [hrep', Bool.false_eq_true, if_false, decodeCb_snd_single st c hrep']
      by_cases hunknown : c.2.unknown = true
      · rw [if_pos hunknown, hnil hunknown]
      · rw [if_neg hunknown]
        exact ⟨_, rfl, hshows (by simpa using hunknown)⟩
  · have hother : valuesOf [c] n = [] := by
      have hne : ¬ c.1.name = n := fun h => hn h.symm
      simp [valuesOf, hne]
    rw [hother, List.append_nil, decodeCb_snd_of_ne st c hn]
    exact hst

/-- All values. -/
theorem stored_foldl {h : LuaHeap} {cs : List (Field × PbcValue)} (hsame : SameField cs)
    (n : String) :
    Stored (cs.foldl decodeCb (h, fun _ => .nil)).1 (valuesOf cs n)
      ((cs.foldl decodeCb (h, fun _ => .nil)).2 n) := by
  induction cs using List.reverseRecOn generalizing n with
  | nil => exact rfl
  | append_singleton cs c ih =>
    rw [List.foldl_append]
    apply stored_decodeCb hsame
    refine fun m => ih (fun d hd e he => ?_) m
    exact hsame d (by simp [hd]) e (by simp [he])

/-- New tables are only those of messages in fields. -/
theorem foldl_decodeCb_fresh (cs : List (Field × PbcValue)) (h : LuaHeap)
    (fields : String → FieldValue) :
    ∃ new, (cs.foldl decodeCb (h, fields)).1 = h ++ new ∧ ∀ t ∈ new, t.Fresh := by
  induction cs generalizing h fields with
  | nil => exact ⟨[], (List.append_nil _).symm, by simp⟩
  | cons c cs ih =>
    obtain ⟨new, hheap, hfresh, -⟩ := pushValue_spec h c
    have hcb : (decodeCb (h, fields) c).1 = h ++ new := by rw [decodeCb_fst, hheap]
    obtain ⟨new', hheap', hfresh'⟩ := ih (decodeCb (h, fields) c).1 (decodeCb (h, fields) c).2
    refine ⟨new ++ new', ?_, ?_⟩
    · rw [List.foldl_cons, hheap', hcb, List.append_assoc]
    · intro t ht
      obtain ht | ht := List.mem_append.1 ht
      · exact hfresh t ht
      · exact hfresh' t ht

/-! ## Tables that are filled -/

variable {types : PbcTypes} {h h' : LuaHeap}

/-- The table holds the values of its bytes. -/
def MessageTable.Filled (types : PbcTypes) (h : LuaHeap) (t : MessageTable) : Prop :=
  t.pending = false ∧ ∃ cs ok, pbcDecode types t.typeName t.buffer = .ok (cs, ok) ∧
    ∀ n, Stored h (valuesOf cs n) (t.fields n)

theorem MessageTable.Filled.keeps (hk : Keeps h h') {t : MessageTable} (ht : t.Filled types h) :
    t.Filled types h' := by
  obtain ⟨hpending, cs, ok, hdecode, hstored⟩ := ht
  exact ⟨hpending, cs, ok, hdecode, fun n => (hstored n).keeps hk⟩

/-- A table is as it was made, or it holds the values of its bytes. -/
def Sound (types : PbcTypes) (h : LuaHeap) : Prop :=
  ∀ (r : ℕ) (t : MessageTable), h[r]? = some t → t.Fresh ∨ t.Filled types h

/-- Between `h` and `h'` the table `t` at `r` is filled with the values of its bytes and becomes
`t'`. -/
structure Fills (types : PbcTypes) (h : LuaHeap) (r : ℕ) (t t' : MessageTable) (h' : LuaHeap) :
    Prop where
  get : h[r]? = some t
  typeName : t'.typeName = t.typeName
  buffer : t'.buffer = t.buffer
  pending : t'.pending = false
  filled : ∃ cs ok, pbcDecode types t.typeName t.buffer = .ok (cs, ok) ∧
    t'.fields = (cs.foldl decodeCb (h, t.fields)).2 ∧
    h' = (cs.foldl decodeCb (h, t.fields)).1.set r t'

namespace Fills

variable {r : ℕ} {t t' : MessageTable}

theorem inside (hf : Fills types h r t t' h') : r < h.length :=
  (List.getElem?_eq_some_iff.1 hf.get).1

/-- Besides there are new tables. -/
theorem heap (hf : Fills types h r t t' h') :
    ∃ new, h' = (h ++ new).set r t' ∧ ∀ u ∈ new, u.Fresh := by
  obtain ⟨cs, ok, -, -, rfl⟩ := hf.filled
  obtain ⟨new, hheap, hfresh⟩ := foldl_decodeCb_fresh cs h t.fields
  exact ⟨new, by rw [hheap], hfresh⟩

theorem length_le (hf : Fills types h r t t' h') : h.length ≤ h'.length := by
  obtain ⟨new, rfl, -⟩ := hf.heap
  rw [List.length_set, List.length_append]
  omega

/-- The tables afterwards. -/
theorem cases (hf : Fills types h r t t' h') {q : ℕ} {u : MessageTable} (hu : h'[q]? = some u) :
    (q = r ∧ u = t') ∨ (q ≠ r ∧ h[q]? = some u) ∨ (h.length ≤ q ∧ u.Fresh) := by
  have hr := hf.inside
  obtain ⟨new, rfl, hfresh⟩ := hf.heap
  have hlength : (h ++ new).length = h.length + new.length := List.length_append
  by_cases hq : q = r
  · subst hq
    rw [List.getElem?_set_self (by omega)] at hu
    exact .inl ⟨rfl, (Option.some.inj hu).symm⟩
  · rw [List.getElem?_set_ne (Ne.symm hq)] at hu
    by_cases hlt : q < h.length
    · rw [List.getElem?_append_left hlt] at hu
      exact .inr (.inl ⟨hq, hu⟩)
    · rw [List.getElem?_append_right (by omega)] at hu
      exact .inr (.inr ⟨by omega, hfresh u (List.mem_of_getElem? hu)⟩)

theorem keeps (hf : Fills types h r t t' h') : Keeps h h' := by
  obtain ⟨new, rfl, -⟩ := hf.heap
  apply (Keeps.append h new).trans
  apply Keeps.set _ hf.typeName hf.buffer
  rw [List.getElem?_append_left hf.inside, hf.get]

/-- The table holds the values of its bytes, if it was empty. -/
theorem filled_self (hf : Fills types h r t t' h') (hnil : t.fields = fun _ => .nil) :
    t'.Filled types h' := by
  obtain ⟨cs, ok, hdecode, hfields, hh'⟩ := hf.filled
  refine ⟨hf.pending, cs, ok, by rw [hf.typeName, hf.buffer, hdecode], fun n => ?_⟩
  obtain ⟨new, hheap, -⟩ := foldl_decodeCb_fresh cs h t.fields
  have hset : Keeps (cs.foldl decodeCb (h, t.fields)).1 h' := by
    rw [hh']
    apply Keeps.set _ hf.typeName hf.buffer
    rw [hheap, List.getElem?_append_left hf.inside, hf.get]
  rw [hfields]
  rw [hnil] at hset ⊢
  exact (stored_foldl (sameField_pbcDecode hdecode) n).keeps hset

/-- Filling a table leaves the others as they are. -/
theorem sound (hf : Fills types h r t t' h') (hnil : t.fields = fun _ => .nil)
    (hother : ∀ (q : ℕ) (u : MessageTable), q ≠ r → h[q]? = some u → u.Fresh ∨ u.Filled types h) :
    Sound types h' := by
  intro q u hu
  obtain ⟨rfl, rfl⟩ | ⟨hq, hu⟩ | ⟨-, hfresh⟩ := hf.cases hu
  · exact .inr (hf.filled_self hnil)
  · exact (hother q u hq hu).imp id (.keeps hf.keeps)
  · exact .inl hfresh

end Fills

/-! ## Steps -/

theorem expand_eq_ok {msg : ℕ} {t : MessageTable} {ok : Bool} (ht : h[msg]? = some t)
    (he : expand types h msg t = .ok (h', ok)) :
    ∃ t', Fills types h msg t t' h' ∧ t'.nested = t.nested := by
  obtain ⟨⟨cs, ok⟩, hdecode, he⟩ := Opened.map_eq_ok he
  cases he
  let t' : MessageTable := { t with
    pending := false
    fields := (cs.foldl decodeCb (h, t.fields)).2
    metatable := if ok then some (.default t.typeName) else t.metatable }
  exact ⟨t', ⟨ht, rfl, rfl, rfl, cs, ok, hdecode, rfl, rfl⟩, rfl⟩

/-- `decode` makes an empty table and fills it. -/
theorem protobufDecode_eq_ok {typeName : String} {buffer : Bytes} {ret : Option ℕ}
    (hd : protobufDecode types h typeName buffer = .ok (h', ret)) :
    h' = h ∨ ∃ t t', (t.fields = fun _ => .nil) ∧ Fills types (h ++ [t]) h.length t t' h' ∧
      t'.nested = false := by
  obtain ⟨⟨cs, ok⟩, hdecode, hd⟩ := Opened.map_eq_ok hd
  cases ok with
  | true =>
    cases hd
    let ret : MessageTable := ⟨typeName, buffer, false, false, fun _ => .nil, none⟩
    let filled : MessageTable := { ret with
      fields := (cs.foldl decodeCb (h ++ [ret], ret.fields)).2
      metatable := some (.default typeName) }
    exact .inr ⟨ret, filled, rfl, ⟨by simp, rfl, rfl, rfl, cs, true, hdecode, rfl, rfl⟩, rfl⟩
  | false =>
    cases hd
    exact .inl rfl

/-- An access leaves the tables as they are, or fills the one that it is an access to. -/
theorem access_cases {msg : ℕ} {n : String} {res : Access}
    (ha : access types h msg n = some (h', res)) :
    ∃ t, h[msg]? = some t ∧ ((h' = h ∧ ¬ t.Fresh) ∨
      (t.pending = true ∧ ∃ ok, expand types h msg t = .ok (h', ok))) := by
  unfold access at ha
  split at ha
  · cases ha
  next t ht =>
    refine ⟨t, ht, ?_⟩
    by_cases hraw : t.fields n = .nil
    · rw [if_neg (not_not.2 hraw)] at ha
      split at ha
      next hmt =>
        cases ha
        exact .inl ⟨rfl, fun hfresh => by simp [hfresh.metatable] at hmt⟩
      next hmt =>
        cases ha
        exact .inl ⟨rfl, fun hfresh => by simp [hfresh.metatable] at hmt⟩
      next hmt =>
        by_cases hpending : t.pending = false
        · rw [if_pos hpending] at ha
          cases ha
          exact .inl ⟨rfl, fun hfresh => by simp [hfresh.pending] at hpending⟩
        · rw [if_neg hpending] at ha
          have hpending' : t.pending = true := by simpa using hpending
          split at ha
          next g hexpand =>
            cases ha
            exact .inr ⟨hpending', true, hexpand⟩
          next g hexpand =>
            cases ha
            exact .inr ⟨hpending', false, hexpand⟩
          · cases ha
          · cases ha
    · rw [if_pos hraw] at ha
      cases ha
      exact .inl ⟨rfl, fun hfresh => hraw (by rw [hfresh.fields])⟩

/-- The metatable is put back, and what the table holds is returned. -/
theorem optionalNoDefault_eq {msg : ℕ} {t : MessageTable} (ht : h[msg]? = some t) (n : String) :
    optionalNoDefault types h msg n = some (h, t.fields n) := by
  obtain ⟨hlt, hget⟩ := List.getElem?_eq_some_iff.1 ht
  have hset : (h.set msg { t with metatable := none })[msg]? = some { t with metatable := none } :=
    List.getElem?_set_self hlt
  have hback : (h.set msg { t with metatable := none }).modify msg
      ({ · with metatable := t.metatable }) = h := by
    apply List.ext_getElem?
    intro q
    rw [List.getElem?_modify]
    by_cases hq : q = msg
    · subst hq
      simp [hlt, ← hget]
    · simp [Ne.symm hq]
  have haccess : access types (h.set msg { t with metatable := none }) msg n =
      some (h.set msg { t with metatable := none }, .value (t.fields n)) := by
    simp only [access, hset]
    split_ifs with hraw
    · rfl
    · rw [not_not.1 hraw]
  simp only [optionalNoDefault, ht, haccess, hback]

theorem Sound.pending_eq_false {t : MessageTable} {r : ℕ} (hs : Sound types h) (ht : h[r]? = some t)
    (hfresh : ¬ t.Fresh) : t.pending = false :=
  ((hs r t ht).resolve_left hfresh).1

theorem Sound.fresh_of_pending {t : MessageTable} {r : ℕ} (hs : Sound types h) (ht : h[r]? = some t)
    (hpending : t.pending = true) : t.Fresh := by
  refine (hs r t ht).resolve_right fun hfilled => ?_
  rw [hfilled.1] at hpending
  exact absurd hpending (by decide)

theorem getElem?_concat_of_ne {q : ℕ} {t u : MessageTable} (hq : q ≠ h.length)
    (hu : (h ++ [t])[q]? = some u) : h[q]? = some u := by
  obtain ⟨hlt, -⟩ := List.getElem?_eq_some_iff.1 hu
  rw [List.length_append, List.length_singleton] at hlt
  rwa [List.getElem?_append_left (by omega)] at hu

/-- The operation is an ordinary access to the message. -/
def MessageOp.Accesses (op : MessageOp) (r : ℕ) : Prop := ∃ n, op = .access r n

/-- What a step can do: nothing, make a table and fill it, or fill the table that it is an access
to. -/
theorem LuaHeap.step_cases {op : MessageOp} (hstep : h.step types op = some h') :
    (h' = h ∧ ∀ r, op.Accesses r → ∃ t, h[r]? = some t ∧ ¬ t.Fresh) ∨
    ((∀ r, ¬ op.Accesses r) ∧ ∃ t t', (t.fields = fun _ => .nil) ∧
      Fills types (h ++ [t]) h.length t t' h' ∧ t'.nested = false) ∨
    ∃ r t t', (∀ q, op.Accesses q ↔ q = r) ∧ t.pending = true ∧ Fills types h r t t' h' ∧
      t'.nested = t.nested := by
  cases op with
  | decode typeName buffer =>
    have hno (r : ℕ) : ¬ (MessageOp.decode typeName buffer).Accesses
        r := by simp [MessageOp.Accesses]
    simp only [LuaHeap.step] at hstep
    split at hstep
    next g ret hd =>
      obtain rfl := Option.some.inj hstep
      obtain rfl | hfills := protobufDecode_eq_ok hd
      · exact .inl ⟨rfl, fun r hr => absurd hr (hno r)⟩
      · exact .inr (.inl ⟨hno, hfills⟩)
    · cases hstep
  | access msg n =>
    have hiff (r : ℕ) : (MessageOp.access msg n).Accesses r ↔ r = msg := by
      simp [MessageOp.Accesses, eq_comm]
    obtain ⟨⟨g, res⟩, ha, rfl⟩ := Option.map_eq_some_iff.1 hstep
    obtain ⟨t, ht, ⟨rfl, hfresh⟩ | ⟨hpending, ok, he⟩⟩ := access_cases ha
    · refine .inl ⟨rfl, fun r hr => ?_⟩
      rw [(hiff r).1 hr]
      exact ⟨t, ht, hfresh⟩
    · obtain ⟨t', hfills, hnested⟩ := expand_eq_ok ht he
      exact .inr (.inr ⟨msg, t, t', hiff, hpending, hfills, hnested⟩)
  | optionalNoDefault msg n =>
    have hno (r : ℕ) : ¬ (MessageOp.optionalNoDefault msg n).Accesses r := by
      simp [MessageOp.Accesses]
    obtain ⟨⟨g, res⟩, ho, rfl⟩ := Option.map_eq_some_iff.1 hstep
    cases ht : h[msg]? with
    | none => simp [optionalNoDefault, ht] at ho
    | some t =>
      rw [optionalNoDefault_eq ht] at ho
      cases ho
      exact .inl ⟨rfl, fun r hr => absurd hr (hno r)⟩

/-- Every step keeps the tables sound. -/
theorem Sound.step (hs : Sound types h) {op : MessageOp} (hstep : h.step types op = some h') :
    Sound types h' := by
  obtain ⟨rfl, -⟩ | ⟨-, t, t', hnil, hfills, -⟩ | ⟨r, t, t', -, hpending, hfills, -⟩ :=
    LuaHeap.step_cases hstep
  · exact hs
  · apply hfills.sound hnil
    intro q u hq hu
    exact (hs q u (getElem?_concat_of_ne hq hu)).imp id (.keeps (.append _ _))
  · exact hfills.sound (hs.fresh_of_pending hfills.get hpending).fields fun q u _ hu => hs q u hu

/-- What a step does to tables: one is pending no longer if it is accessed, and a new one is
pending if it is nested. -/
structure TablesStep (h h' : LuaHeap) (accessed : ℕ → Prop) : Prop where
  length_le : h.length ≤ h'.length
  inside : ∀ r, accessed r → r < h.length
  tables : ∀ (r : ℕ) (t' : MessageTable), h'[r]? = some t' →
    (∃ t, h[r]? = some t ∧ t'.nested = t.nested ∧
      (t'.pending = false ↔ t.pending = false ∨ accessed r)) ∨
    (h.length ≤ r ∧ (t'.pending = false ↔ t'.nested = false))

theorem tablesStep_same {accessed : ℕ → Prop}
    (hall : ∀ r, accessed r → ∃ t, h[r]? = some t ∧ t.pending = false) :
    TablesStep h h accessed := by
  refine ⟨le_rfl, fun r hr => ?_, fun r t ht => .inl ⟨t, ht, rfl, .inl, ?_⟩⟩
  · obtain ⟨t, ht, -⟩ := hall r hr
    exact (List.getElem?_eq_some_iff.1 ht).1
  · rintro (hpending | hr)
    · exact hpending
    · obtain ⟨t', ht', hpending⟩ := hall r hr
      obtain rfl := Option.some.inj (ht.symm.trans ht')
      exact hpending

theorem MessageTable.Fresh.pending_iff {t : MessageTable} (ht : t.Fresh) :
    t.pending = false ↔ t.nested = false := by
  rw [ht.pending, ht.nested]

theorem Sound.tablesStep (hs : Sound types h) {op : MessageOp} (hstep : h.step types op = some h') :
    TablesStep h h' op.Accesses := by
  obtain ⟨rfl, hfresh⟩ | ⟨hno, t, t', -, hfills, hnested⟩ | ⟨r, t, t', hiff, -, hfills, hnested⟩ :=
    LuaHeap.step_cases hstep
  · apply tablesStep_same
    intro r hr
    obtain ⟨t, ht, hnot⟩ := hfresh r hr
    exact ⟨t, ht, hs.pending_eq_false ht hnot⟩
  · have hlength : (h ++ [t]).length = h.length + 1 := by simp
    have hle := hfills.length_le
    refine ⟨by omega, fun r hr => absurd hr (hno r), fun r u hu => ?_⟩
    obtain ⟨rfl, rfl⟩ | ⟨hr, hu⟩ | ⟨hr, hfresh⟩ := hfills.cases hu
    · exact .inr ⟨le_rfl, by rw [hfills.pending, hnested]⟩
    · exact .inl ⟨u, getElem?_concat_of_ne hr hu, rfl, by simp [hno r]⟩
    · exact .inr ⟨by omega, hfresh.pending_iff⟩
  · refine ⟨hfills.length_le, fun q hq => ?_, fun q u hu => ?_⟩
    · rw [(hiff q).1 hq]
      exact hfills.inside
    · obtain ⟨rfl, rfl⟩ | ⟨hq, hu⟩ | ⟨hq, hfresh⟩ := hfills.cases hu
      · exact .inl ⟨t, hfills.get, hnested, by simp [hfills.pending, hiff]⟩
      · exact .inl ⟨u, hu, rfl, by simp [hiff, hq]⟩
      · exact .inr ⟨hq, hfresh.pending_iff⟩

/-! ## Runs -/

theorem sound_nil : Sound types [] := fun r t ht => by simp at ht

theorem sound_of_run {ops : List MessageOp} (hrun : run (LuaHeap.step types) [] ops = some h) :
    Sound types h :=
  run_invariant (fun _ _ _ hs hstep => hs.step hstep) hrun sound_nil

/-- A table is pending no longer if its message is one of `decode`, or there was an ordinary
access to it. -/
theorem pending_eq_false_iff {ops : List MessageOp}
    (hrun : run (LuaHeap.step types) [] ops = some h) :
    (∀ r, (∃ op ∈ ops, op.Accesses r) → r < h.length) ∧
      ∀ (r : ℕ) (t : MessageTable), h[r]? = some t →
        (t.pending = false ↔ t.nested = false ∨ ∃ op ∈ ops, op.Accesses r) := by
  induction ops using List.reverseRecOn generalizing h with
  | nil =>
    obtain rfl := Option.some.inj hrun
    simp
  | append_singleton ops op ih =>
    obtain ⟨m, hm, hlast⟩ := run_append_eq_some_iff.1 hrun
    have hstep : m.step types op = some h := by simpa [run_cons] using hlast
    obtain ⟨hinside, hpending⟩ := ih hm
    have htables := (sound_of_run hm).tablesStep hstep
    have hmem (r : ℕ) : (∃ o ∈ ops ++ [op], o.Accesses r) ↔
        (∃ o ∈ ops, o.Accesses r) ∨ op.Accesses r := by
      simp [or_and_right, exists_or]
    refine ⟨fun r hr => ?_, fun r t ht => ?_⟩
    · refine lt_of_lt_of_le ?_ htables.length_le
      exact ((hmem r).1 hr).elim (hinside r) (htables.inside r)
    · rw [hmem r]
      obtain ⟨t₀, ht₀, hnested, hiff⟩ | ⟨hr, hiff⟩ := htables.tables r t ht
      · rw [hiff, hpending r t₀ ht₀, hnested, or_assoc]
      · have hno : ¬ ((∃ o ∈ ops, o.Accesses r) ∨ op.Accesses r) := by
          rintro (hr' | hr')
          · exact absurd (hinside r hr') (by omega)
          · exact absurd (htables.inside r hr') (by omega)
        simp [hiff, hno]

end SockTestProgram
