import SockTestProgram.App.ReadOnly

/-!
# `ValueMaster`

The object that `_CreateValueMaster(m, {_value = v})` returns makes its accessors `isX` and `setX`
when they are first read, and keeps them in the same table as the value.  `Master` is what holds of
that table whatever was read before: it stands for the stored value alone, so that the answers do
not depend on what is cached (`Master.exec`).  Where `m` is wrapped by `ReadOnly`, the helper `iter`
of the wrapper passes for a name of `m` (`valueMaster_agrees`).
-/

open Lua Lts

namespace SockTestProgram

namespace Script

variable {κ : Type} {s s' : Tables κ} {p m : Ref} {k X : Key} {c : Option (Value κ)} {w : Bool}

/-- Names for constants.  The name `Value` would give an accessor `setValue`. -/
structure Enumeration (κ : Type) where
  entries : Entries κ
  names : ∀ X v, entries.lookup X = some v → X ≠ [] ∧ X ≠ key "Value"

def Enumeration.ofEntries (E : Entries κ) (h : ∀ X ∈ E.keys, X ≠ [] ∧ X ≠ key "Value") :
    Enumeration κ where
  entries := E
  names X v hv := by
    apply h X
    rw [← AList.mem_keys, ← AList.lookup_isSome, hv]
    rfl

variable {e : Enumeration κ}

/-- `m` is the table of an enumeration, wrapped by `ReadOnly` if `w` is true. -/
inductive Enumerates (s : Tables κ) (m : Ref) (e : Enumeration κ) : Bool → Prop
  | plain (h : s[m]? = some (.plain e.entries)) : Enumerates s m e false
  | wrapped {o : Ref} (h : Proxied s o m e.entries) : Enumerates s m e true

/-- The accessors and their functions. -/
inductive Accessor (m : Ref) (e : Enumeration κ) : Key → Closure → Prop
  | is {X : Key} {v : Value κ} (h : e.entries.lookup X = some v) :
    Accessor m e (key "is" ++ X) (.isField m X)
  | set {X : Key} {v : Value κ} (h : e.entries.lookup X = some v) :
    Accessor m e (key "set" ++ X) (.setField m X)

/-- The table of the object, where `c` is the stored value. -/
structure IsMaster (T : Object κ) (m : Ref)
    (e : Enumeration κ) (c : Option (Value κ)) : Prop where
  index : T.index = some (.function (.accessor m))
  newindex : T.newindex = some (.function .writeOnly)
  value : T.entries.lookup (key "_value") = c
  setValue : T.entries.lookup (key "setValue") = some (.function .setValue)
  /-- everything else is an accessor that was read before -/
  cached : ∀ k v, T.entries.lookup k = some v → k ≠ key "_value" → k ≠ key "setValue" →
    ∃ f, v = .function f ∧ Accessor m e k f

/-- The object `p` over the enumeration `m`, where `c` is the stored value. -/
structure Master (s : Tables κ) (p m : Ref) (e : Enumeration κ) (w : Bool)
    (c : Option (Value κ)) : Prop where
  enumerates : Enumerates s m e w
  table : ∃ T, s[p]? = some T ∧ IsMaster T m e c

/-! ## Keys -/

theorem key_is : key "is" = [105, 115] := rfl

theorem key_set : key "set" = [115, 101, 116] := rfl

theorem is_ne_set (X Y : Key) : key "is" ++ X ≠ key "set" ++ Y := by
  rw [key_is, key_set]
  simp

theorem is_ne_value (X : Key) : key "is" ++ X ≠ key "_value" := by
  rw [key_is, show key "_value" = [95, 118, 97, 108, 117, 101] from rfl]
  simp

theorem is_ne_setValue (X : Key) : key "is" ++ X ≠ key "setValue" := is_ne_set X (key "Value")

theorem set_ne_value (X : Key) : key "set" ++ X ≠ key "_value" := by
  rw [key_set, show key "_value" = [95, 118, 97, 108, 117, 101] from rfl]
  simp

theorem set_ne_setValue (hX : X ≠ key "Value") : key "set" ++ X ≠ key "setValue" := by
  intro h
  have hsplit : key "set" ++ X = key "set" ++ key "Value" := h
  exact hX (List.append_cancel_left hsplit)

theorem Accessor.ne {f : Closure} (h : Accessor m e k f) :
    k ≠ key "_value" ∧ k ≠ key "setValue" := by
  cases h with
  | is h => exact ⟨is_ne_value _, is_ne_setValue _⟩
  | set h => exact ⟨set_ne_value _, set_ne_setValue (e.names _ _ h).2⟩

/-- A key is the accessor of one function at most. -/
theorem Accessor.unique {f f' : Closure} (h : Accessor m e k f) (h' : Accessor m e k f') :
    f = f' := by
  generalize hk : k = k' at h'
  cases h with
  | is h =>
    cases h' with
    | is h' => rw [List.append_cancel_left hk]
    | set h' => exact absurd hk (is_ne_set _ _)
  | set h =>
    cases h' with
    | is h' => exact absurd hk.symm (is_ne_set _ _)
    | set h' => rw [List.append_cancel_left hk]

/-! ## Reads of the enumeration -/

/-- A name of the enumeration.  Behind a `ReadOnly` the name `iter` is hidden. -/
theorem Enumerates.index_of_some (h : Enumerates s m e w) (hX : w = true → X ≠ key "iter")
    {v : Value κ} (hv : e.entries.lookup X = some v) (depth : ℕ) :
    (indexAt depth m X).run s = (.ok (some v), s) := by
  cases h with
  | plain h => exact indexAt_of_mem h hv depth
  | wrapped h => exact h.index_of_mem (hX rfl) hv depth

/-- No name of the enumeration: the read gives nil or raises. -/
theorem Enumerates.index_of_none (h : Enumerates s m e w) (hX : w = true → X ≠ key "iter")
    (hv : e.entries.lookup X = none) (depth : ℕ) :
    (indexAt (depth + 1) m X).run s = (.ok none, s) ∨
      ∃ err, (indexAt (depth + 1) m X).run s = (.error err, s) := by
  cases h with
  | plain h => exact Or.inl (indexAt_of_no_index h hv rfl _)
  | wrapped h => exact Or.inr ⟨_, h.index_of_notMem (hX rfl) hv depth⟩

/-- Only the table `p` changed, and it has the metatable of a master. -/
theorem Enumerates.frame (h : Enumerates s m e w)
    {T : Object κ} {m' : Ref} (hT : s[p]? = some T)
    (hindex : T.index = some (.function (.accessor m'))) (hframe : ∀ t ≠ p, s'[t]? = s[t]?) :
    Enumerates s' m e w := by
  have hne {t : Ref} {T' : Object κ}
      (hT' : s[t]? = some T') (hindex' : T'.index ≠ some (.function (.accessor m'))) : t ≠ p := by
    rintro rfl
    rw [hT, Option.some.injEq] at hT'
    exact hindex' (hT' ▸ hindex)
  cases h with
  | plain h =>
    refine .plain ?_
    rw [hframe m (hne h (by simp [Table.plain, Table.index])), h]
  | @wrapped o h =>
    refine .wrapped (o := o) ⟨?_, ?_⟩
    · rw [hframe o (hne h.guarded (by simp [guarded, Table.index])), h.guarded]
    · rw [hframe m (hne h.proxy (by simp [proxy, Table.index])), h.proxy]

/-! ## The `__index` of the object -/

variable {look : Ref → Key → Script κ (Option (Value κ))} {start : Key}

/-- The test of a key for `start` and a name behind it. -/
theorem startsWith_iff (start k : Key) :
    k.take start.length = start ∧ start.length < k.length ↔ ∃ X ≠ [], k = start ++ X := by
  constructor
  · rintro ⟨htake, hlen⟩
    refine ⟨k.drop start.length, ?_, ?_⟩
    · rw [Ne, List.drop_eq_nil_iff]
      omega
    · rw [← htake, List.length_take, Nat.min_eq_left hlen.le, htake]
      conv_lhs => rw [← List.take_append_drop start.length k, htake]
  · rintro ⟨X, hX, rfl⟩
    refine ⟨List.take_left, ?_⟩
    have := List.length_pos_iff.2 hX
    rw [List.length_append]
    omega

theorem names_append (hX : X ≠ []) : names look m start (start ++ X) = (do
    let v ← look m X
    pure v.isSome) := by
  rw [names, if_pos ((startsWith_iff _ _).2 ⟨X, hX, rfl⟩), List.drop_left]

theorem names_of_not (h : ∀ X ≠ [], k ≠ start ++ X) : names look m start k = pure false := by
  rw [names, if_neg]
  rw [startsWith_iff]
  rintro ⟨X, hX, hk⟩
  exact h X hX hk

theorem names_run_of_some (hX : X ≠ []) {v : Value κ} (h : (look m X).run s = (.ok (some v), s)) :
    (names look m start (start ++ X)).run s = (.ok true, s) := by
  rw [names_append hX, Eval.run_bind_of_ok h]
  exact Eval.run_pure true s

/-- `isX` for a field `X` of `m`: the function is made and kept. -/
theorem accessor_run_is (hX : X ≠ []) {v : Value κ} (h : (look m X).run s = (.ok (some v), s)) :
    (accessor look m p (key "is" ++ X)).run s = (.ok (some (.function (.isField m X))),
      s.rawset p (key "is" ++ X) (some (.function (.isField m X)))) := by
  rw [accessor, Eval.run_bind_of_ok (names_run_of_some hX h)]
  rfl

/-- `setX`, which does not begin with `is`. -/
theorem accessor_run_set (hX : X ≠ []) {v : Value κ} (h : (look m X).run s = (.ok (some v), s)) :
    (accessor look m p (key "set" ++ X)).run s = (.ok (some (.function (.setField m X))),
      s.rawset p (key "set" ++ X) (some (.function (.setField m X)))) := by
  have hnot : (names look m (key "is") (key "set" ++ X)).run s = (.ok false, s) := by
    rw [names_of_not fun Y _ h => is_ne_set Y X h.symm]
    exact Eval.run_pure false s
  rw [accessor, Eval.run_bind_of_ok hnot, if_neg (by decide),
    Eval.run_bind_of_ok (names_run_of_some hX h)]
  rfl

/-- A key without the function that it ought to have. -/
theorem accessor_run {f : Closure} (h : Accessor m e k f)
    (hlook : ∀ X v, e.entries.lookup X = some v → (k = key "is" ++ X ∨ k = key "set" ++ X) →
      (look m X).run s = (.ok (some v), s)) :
    (accessor look m p k).run s =
      (.ok (some (.function f)), s.rawset p k (some (.function f))) := by
  cases h with
  | @is X v hv => exact accessor_run_is (e.names X v hv).1 (hlook X v hv (Or.inl rfl))
  | @set X v hv => exact accessor_run_set (e.names X v hv).1 (hlook X v hv (Or.inr rfl))

/-- A name behind `is` or `set` that reads as nil or raises is no name. -/
theorem names_run_of_none (start k : Key) (hlook : ∀ X ≠ [], k = start ++ X →
      (look m X).run s = (.ok none, s) ∨ ∃ err, (look m X).run s = (.error err, s)) :
    (names look m start k).run s = (.ok false, s) ∨
      ∃ err, (names look m start k).run s = (.error err, s) := by
  by_cases h : ∃ X ≠ [], k = start ++ X
  · obtain ⟨X, hX, rfl⟩ := h
    rw [names_append hX]
    rcases hlook X hX rfl with hnone | ⟨err, herr⟩
    · rw [Eval.run_bind_of_ok hnone]
      exact Or.inl (Eval.run_pure false s)
    · exact Or.inr ⟨err, Eval.run_bind_of_error herr _⟩
  · left
    rw [names_of_not fun X hX hk => h ⟨X, hX, hk⟩]
    exact Eval.run_pure false s

/-- A key with no name behind `is` or `set` raises, and nothing is kept. -/
theorem accessor_run_of_none (hlook : ∀ X, (k = key "is" ++ X ∨ k = key "set" ++ X) →
      (look m X).run s = (.ok none, s) ∨ ∃ err, (look m X).run s = (.error err, s)) :
    ∃ err, (accessor look m p k).run s = (.error err, s) := by
  rw [accessor]
  rcases names_run_of_none (key "is") k fun X _ hk => hlook X (Or.inl hk) with
    his | ⟨err, herr⟩
  · rw [Eval.run_bind_of_ok his, if_neg (by decide)]
    rcases names_run_of_none (key "set") k fun X _ hk => hlook X (Or.inr hk) with
      hset | ⟨err, herr⟩
    · rw [Eval.run_bind_of_ok hset, if_neg (by decide)]
      exact ⟨_, Eval.run_raise _ s⟩
    · exact ⟨err, Eval.run_bind_of_error herr _⟩
  · exact ⟨err, Eval.run_bind_of_error herr _⟩

/-! ## What keeps the object -/

theorem IsMaster.rawset_value {T : Object κ}
    (h : IsMaster T m e c) (v : Option (Value κ)) : IsMaster (T.rawset (key "_value") v) m e v where
  index := (T.index_rawset _ _).trans h.index
  newindex := (T.newindex_rawset _ _).trans h.newindex
  value := Table.lookup_rawset_self _ _ _
  setValue := by rw [Table.lookup_rawset_ne _ (by decide), h.setValue]
  cached k' v' hv' hne hne' := by
    rw [Table.lookup_rawset_ne _ hne] at hv'
    exact h.cached k' v' hv' hne hne'

theorem IsMaster.rawset_accessor {T : Object κ}
    (h : IsMaster T m e c) {f : Closure} (hf : Accessor m e k f) :
    IsMaster (T.rawset k (some (.function f))) m e c where
  index := (T.index_rawset _ _).trans h.index
  newindex := (T.newindex_rawset _ _).trans h.newindex
  value := by rw [Table.lookup_rawset_ne _ hf.ne.1.symm, h.value]
  setValue := by rw [Table.lookup_rawset_ne _ hf.ne.2.symm, h.setValue]
  cached k' v' hv' hne hne' := by
    by_cases hk : k' = k
    · subst hk
      rw [Table.lookup_rawset_self, Option.some.injEq] at hv'
      exact ⟨f, hv'.symm, hf⟩
    · rw [Table.lookup_rawset_ne _ hk] at hv'
      exact h.cached k' v' hv' hne hne'

/-- An entry of the object is set. -/
theorem Master.rawset (h : Master s p m e w c) {v : Option (Value κ)} {c' : Option (Value κ)}
    (hkeep : ∀ T, IsMaster T m e c → IsMaster (T.rawset k v) m e c') :
    Master (s.rawset p k v) p m e w c' := by
  obtain ⟨T, hT, hmaster⟩ := h.table
  refine ⟨h.enumerates.frame hT hmaster.index ?_, _, Store.getElem?_rawset_self hT k v,
    hkeep T hmaster⟩
  intro t ht
  exact Store.getElem?_rawset_ne ht.symm k v

theorem Master.rawget (h : Master s p m e w c) : s.rawget p (key "_value") = c := by
  obtain ⟨T, hT, hmaster⟩ := h.table
  rw [Store.rawget_eq hT, hmaster.value]

/-- The table that `_CreateValueMaster` makes of the table of the value `c`. -/
def freshMaster (m : Ref) (c : Option (Value κ)) : Object κ where
  entries := (field (key "_value") c).insert (key "setValue") (.function .setValue)
  metatable := some ⟨some (.function (.accessor m)), some (.function .writeOnly)⟩

theorem lookup_field_self (k : Key) (c : Option (Value κ)) : (field k c).lookup k = c := by
  cases c with
  | none => rfl
  | some v => rw [field, ← AList.insert_empty, AList.lookup_insert]

theorem lookup_field_ne {k k' : Key} (h : k' ≠ k) (c : Option (Value κ)) :
    (field k c).lookup k' = none := by
  cases c with
  | none => rfl
  | some v => rw [field, ← AList.insert_empty, AList.lookup_insert_ne h, AList.lookup_empty]

theorem isMaster_freshMaster (m : Ref) (e : Enumeration κ) (c : Option (Value κ)) :
    IsMaster (freshMaster m c) m e c where
  index := rfl
  newindex := rfl
  value := (AList.lookup_insert_ne (by decide)).trans (lookup_field_self _ c)
  setValue := AList.lookup_insert _
  cached k v hv hne hne' := by
    have hfield : (field (key "_value") c).lookup k = some v :=
      (AList.lookup_insert_ne hne').symm.trans hv
    rw [lookup_field_ne hne] at hfield
    cases hfield

theorem run_newMaster (s : Tables κ) (m : Ref) (c : Option (Value κ)) :
    (newMaster m c).run s = (.ok s.length, s ++ [freshMaster m c]) := by
  have hempty : (index s.length (key "setValue")).run (s ++ [.plain (field (key "_value") c)]) =
      (.ok none, s ++ [.plain (field (key "_value") c)]) :=
    indexAt_of_no_index (Store.getElem?_append s _ _) (lookup_field_ne (by decide) c) rfl _
  rw [newMaster, Eval.run_bind_of_ok (run_newtable _ _), createValueMaster,
    Eval.run_bind_of_ok hempty, if_neg (by simp), Eval.run_bind_of_ok (setindex_append rfl _ _ _ _),
    Eval.run_bind_of_ok (setmetatable_append _ _ _ _)]
  rfl

theorem Enumerates.mono (h : Enumerates s m e w)
    (hkeep : ∀ (t : Ref) (T : Object κ), s[t]? = some T → s'[t]? = some T) :
    Enumerates s' m e w := by
  cases h with
  | plain h => exact .plain (hkeep _ _ h)
  | wrapped h => exact .wrapped ⟨hkeep _ _ h.guarded, hkeep _ _ h.proxy⟩

/-- The new object. -/
theorem Enumerates.master (h : Enumerates s m e w) (c : Option (Value κ)) :
    Master (s ++ [freshMaster m c]) s.length m e w c where
  enumerates := h.mono fun _ _ hT => Store.getElem?_append_of_some hT _
  table := ⟨_, Store.getElem?_append s _ _, isMaster_freshMaster m e c⟩

/-! ## Accessors -/

/-- The accessors of the name `iter`, which a `ReadOnly` has for itself. -/
def OfIter (k : Key) : Prop := k = key "is" ++ key "iter" ∨ k = key "set" ++ key "iter"

instance (k : Key) : Decidable (OfIter k) := inferInstanceAs (Decidable (_ ∨ _))

theorem name_ne_iter (h : ¬ OfIter k) (hX : k = key "is" ++ X ∨ k = key "set" ++ X) :
    X ≠ key "iter" := by
  rintro rfl
  exact h hX

/-- A key that the object does not have goes to the function in `__index`. -/
theorem IsMaster.index_run {T : Object κ}
    (h : IsMaster T m e c) (hT : s[p]? = some T) (hk : T.entries.lookup k = none) :
    (Script.index p k).run s =
      (accessor (indexAt (maxCCalls - 1)) m p k).run s :=
  indexAt_of_call (Store.gettable_of_function hT hk h.index _) _

/-- An accessor is found, whether it was read before or not. -/
theorem Master.index_accessor (h : Master s p m e w c) {f : Closure} (hf : Accessor m e k f)
    (hk : w = true → ¬ OfIter k) :
    ∃ s', (index p k).run s = (.ok (some (.function f)), s') ∧ Master s' p m e w c ∧
      ∀ t ≠ p, s'[t]? = s[t]? := by
  obtain ⟨T, hT, hmaster⟩ := h.table
  cases hcached : T.entries.lookup k with
  | some v =>
    obtain ⟨f', rfl, hf'⟩ := hmaster.cached k v hcached hf.ne.1 hf.ne.2
    obtain rfl := hf.unique hf'
    exact ⟨s, index_of_mem hT hcached, h, fun _ _ => rfl⟩
  | none =>
    refine ⟨s.rawset p k (some (.function f)), ?_, h.rawset fun T hT => hT.rawset_accessor hf, ?_⟩
    · refine (hmaster.index_run hT hcached).trans (accessor_run hf fun X v hv hX => ?_)
      exact h.enumerates.index_of_some (fun hw => name_ne_iter (hk hw) hX) hv _
    · intro t ht
      exact Store.getElem?_rawset_ne ht.symm _ _

/-- The key is neither a field of the object nor an accessor. -/
def Undefined (e : Enumeration κ) (k : Key) : Prop :=
  k ≠ key "_value" ∧ k ≠ key "setValue" ∧
    ∀ X, (k = key "is" ++ X ∨ k = key "set" ++ X) → e.entries.lookup X = none

theorem undefined_is (hX : e.entries.lookup X = none) : Undefined e (key "is" ++ X) := by
  refine ⟨is_ne_value X, is_ne_setValue X, fun Y hY => ?_⟩
  rcases hY with hY | hY
  · rw [← List.append_cancel_left hY, hX]
  · exact absurd hY (is_ne_set X Y)

theorem IsMaster.lookup_undefined {T : Object κ}
    (h : IsMaster T m e c) (hu : Undefined e k) : T.entries.lookup k = none := by
  cases hcached : T.entries.lookup k with
  | none => rfl
  | some v =>
    obtain ⟨f, -, hf⟩ := h.cached k v hcached hu.1 hu.2.1
    cases hf with
    | @is X v' hv => exact absurd (hu.2.2 X (Or.inl rfl)) (by simp [hv])
    | @set X v' hv => exact absurd (hu.2.2 X (Or.inr rfl)) (by simp [hv])

/-- An undefined accessor raises and changes nothing. -/
theorem Master.index_undefined (h : Master s p m e w c) (hu : Undefined e k)
    (hk : w = true → ¬ OfIter k) : ∃ err, (index p k).run s = (.error err, s) := by
  obtain ⟨T, hT, hmaster⟩ := h.table
  rw [hmaster.index_run hT (hmaster.lookup_undefined hu)]
  refine accessor_run_of_none fun X hX => ?_
  exact h.enumerates.index_of_none (fun hw => name_ne_iter (hk hw) hX) (hu.2.2 X hX) _

/-- Behind a `ReadOnly` the accessors of `iter` are made although `iter` is no name. -/
theorem Master.index_iter (h : Master s p m e true c) (hu : Undefined e k) (hk : OfIter k) :
    ∃ f s', (index p k).run s = (.ok (some (.function f)), s') := by
  obtain ⟨T, hT, hmaster⟩ := h.table
  rw [hmaster.index_run hT (hmaster.lookup_undefined hu)]
  cases h.enumerates with
  | wrapped hproxied =>
    have hiter := hproxied.index_iter (maxCCalls - 1)
    have hne : key "iter" ≠ [] := by decide
    rcases hk with rfl | rfl
    · exact ⟨_, _, accessor_run_is hne hiter⟩
    · exact ⟨_, _, accessor_run_set hne hiter⟩

/-! ## What a script can do with the object -/

inductive MasterOp (κ : Type)
  /-- `p:isX()` -/
  | is (X : Key)
  /-- `p:setX()` -/
  | set (X : Key)
  /-- `p:setValue(v)` -/
  | setValue (v : Value κ)
  /-- `p[k]` -/
  | access (k : Key)
  deriving DecidableEq

namespace MasterOp

def exec [DecidableEq κ] (p : Ref) : MasterOp κ → Script κ (Results κ)
  | .is X => method p (key "is" ++ X) none
  | .set X => method p (key "set" ++ X) none
  | .setValue v => method p (key "setValue") (some v)
  | .access k => do
    let v ← index p k
    pure (.values [v])

/-- The calls are calls on names of the enumeration, and the keys that are read are no accessors. -/
def Allowed (e : Enumeration κ) : MasterOp κ → Prop
  | .is X | .set X => (e.entries.lookup X).isSome
  | .setValue _ => True
  | .access k => Undefined e k

/-- The key that the operation reads. -/
def field : MasterOp κ → Key
  | .is X => key "is" ++ X
  | .set X => key "set" ++ X
  | .setValue _ => key "setValue"
  | .access k => k

/-- The operation reads no accessor of `iter`, if the enumeration is wrapped. -/
def Spares (w : Bool) (op : MasterOp κ) : Prop := w = true → ¬ OfIter op.field

/-- The stored value after the operation. -/
def next (e : Enumeration κ) (c : Option (Value κ)) : MasterOp κ → Option (Value κ)
  | .set X => e.entries.lookup X
  | .setValue v => c.map fun _ => v
  | .is _ | .access _ => c

/-- What the operation comes to when `c` is stored. -/
def Answered [DecidableEq κ] (e : Enumeration κ) (p : Ref) (c : Option (Value κ)) (op : MasterOp κ)
    (r : Except (Raised κ) (Results κ)) : Prop :=
  match op with
  | .is X => r = .ok (.values [some (.boolean (decide (c = e.entries.lookup X)))])
  | .set _ => r = .ok (.values [some (.table p)])
  | .setValue _ => if c.isSome then r = .ok (.values []) else ∃ err, r = .error err
  | .access _ => ∃ err, r = .error err

end MasterOp

theorem MasterOp.isSome_next {op : MasterOp κ} (hop : op.Allowed e) (hc : c.isSome) :
    (op.next e c).isSome := by
  cases op with
  | set X => exact hop
  | setValue v => simpa [MasterOp.next] using hc
  | is X => exact hc
  | access k => exact hc

section

variable [DecidableEq κ]

theorem Master.call_is (h : Master s p m e w c) {v : Value κ} (hv : e.entries.lookup X = some v)
    (hX : w = true → X ≠ key "iter") :
    (call (.isField m X) p none).run s =
      (.ok (.values [some (.boolean (decide (c = e.entries.lookup X)))]), s) := by
  have hget : (Script.rawget p (key "_value")).run s = (.ok c, s) := by
    show (Except.ok (s.rawget p (key "_value")), s) = _
    rw [h.rawget]
  have hindex : (index m X).run s = (.ok (some v), s) := h.enumerates.index_of_some hX hv _
  rw [call_eq, Closure.body, Eval.run_bind_of_ok hget, Eval.run_bind_of_ok hindex, hv]
  rfl

theorem Master.call_set (h : Master s p m e w c) {v : Value κ} (hv : e.entries.lookup X = some v)
    (hX : w = true → X ≠ key "iter") :
    (call (.setField m X) p none).run s =
      (.ok (.values [some (.table p)]), s.rawset p (key "_value") (some v)) := by
  have hindex : (index m X).run s = (.ok (some v), s) := h.enumerates.index_of_some hX hv _
  rw [call_eq, Closure.body, Eval.run_bind_of_ok hindex]
  rfl

/-- `setValue` assigns, so that a value must be there already. -/
theorem Master.call_setValue (h : Master s p m e w c) (v : Value κ) :
    ∃ r s', (call .setValue p (some v)).run s = (r, s') ∧
      (MasterOp.setValue v).Answered e p c r ∧ Master s' p m e w (c.map fun _ => v) ∧
      ∀ t ≠ p, s'[t]? = s[t]? := by
  obtain ⟨T, hT, hmaster⟩ := h.table
  rw [call_eq, Closure.body]
  cases c with
  | some c =>
    refine ⟨_, _, Eval.run_bind_of_ok (setindex_of_mem hT hmaster.value) _, rfl, ?_, fun t ht => ?_⟩
    · exact h.rawset fun T hT => hT.rawset_value _
    · exact Store.getElem?_rawset_ne ht.symm _ _
  | none =>
    obtain ⟨err, herr⟩ := setindex_of_function (v := some v) hT hmaster.value hmaster.newindex
    exact ⟨_, _, Eval.run_bind_of_error herr _, ⟨err, rfl⟩, h, fun _ _ => rfl⟩

/-- **The object stands for its value.**  Every operation does what it would do if no accessor
were ever cached, and changes no other table. -/
theorem Master.exec (h : Master s p m e w c) {op : MasterOp κ} (hop : op.Allowed e)
    (hsp : op.Spares w) :
    ∃ r s', (op.exec p).run s = (r, s') ∧ op.Answered e p c r ∧ Master s' p m e w (op.next e c) ∧
      ∀ t ≠ p, s'[t]? = s[t]? := by
  cases op with
  | is X =>
    obtain ⟨v, hv⟩ := Option.isSome_iff_exists.1 hop
    obtain ⟨s', hindex, h', hframe⟩ := h.index_accessor (.is hv) hsp
    have hX (hw : w = true) : X ≠ key "iter" := name_ne_iter (hsp hw) (Or.inl rfl)
    refine ⟨_, s', ?_, rfl, h', hframe⟩
    rw [MasterOp.exec, method, Eval.run_bind_of_ok hindex]
    exact h'.call_is hv hX
  | set X =>
    obtain ⟨v, hv⟩ := Option.isSome_iff_exists.1 hop
    obtain ⟨s', hindex, h', hframe⟩ := h.index_accessor (.set hv) hsp
    have hX (hw : w = true) : X ≠ key "iter" := name_ne_iter (hsp hw) (Or.inr rfl)
    refine ⟨_, s'.rawset p (key "_value") (some v), ?_, rfl, ?_, fun t ht => ?_⟩
    · rw [MasterOp.exec, method, Eval.run_bind_of_ok hindex]
      exact h'.call_set hv hX
    · rw [MasterOp.next, hv]
      exact h'.rawset fun T hT => hT.rawset_value _
    · rw [Store.getElem?_rawset_ne ht.symm, hframe t ht]
  | setValue v =>
    obtain ⟨T, hT, hmaster⟩ := h.table
    obtain ⟨r, s', hcall, hanswered, h', hframe⟩ := h.call_setValue v
    refine ⟨r, s', ?_, hanswered, h', hframe⟩
    rw [MasterOp.exec, method, Eval.run_bind_of_ok (index_of_mem hT hmaster.setValue)]
    exact hcall
  | access k =>
    obtain ⟨err, herr⟩ := h.index_undefined hop hsp
    exact ⟨_, s, Eval.run_bind_of_error herr _, ⟨err, rfl⟩, h, fun _ _ => rfl⟩

/-! ## Runs -/

/-- The tables, and the value stored last. -/
structure Tracked (κ : Type) where
  tables : Tables κ
  last : Option (Value κ)

/-- One operation; an error ends only the operation. -/
def MasterOp.step (e : Enumeration κ) (p : Ref) (x : Tracked κ) (op : MasterOp κ) :
    Option (Tracked κ) :=
  some ⟨((op.exec p).run x.tables).2, op.next e x.last⟩

/-- The operation answers by the value stored last, which is not nil, and stores what it should. -/
def MasterOp.Agrees (e : Enumeration κ) (p : Ref) (x : Tracked κ) (op : MasterOp κ) : Prop :=
  x.last.isSome ∧ op.Answered e p x.last ((op.exec p).run x.tables).1 ∧
    ((op.exec p).run x.tables).2.rawget p (key "_value") = op.next e x.last

/-- The object with a value. -/
def Tracks (p m : Ref) (e : Enumeration κ) (w : Bool) (x : Tracked κ) : Prop :=
  Master x.tables p m e w x.last ∧ x.last.isSome

/-- One operation that spares `iter`. -/
theorem Tracks.agrees {x : Tracked κ} {op : MasterOp κ} (h : Tracks p m e w x)
    (hop : op.Allowed e) (hsp : op.Spares w) :
    op.Agrees e p x ∧ ∀ x', op.step e p x = some x' → Tracks p m e w x' := by
  obtain ⟨r, s', hrun, hanswered, hmaster, -⟩ := h.1.exec hop hsp
  refine ⟨⟨h.2, ?_, ?_⟩, fun x' hx' => ?_⟩
  · rw [hrun]
    exact hanswered
  · rw [hrun]
    exact hmaster.rawget
  · obtain rfl := Option.some.inj hx'
    refine ⟨?_, MasterOp.isSome_next hop h.2⟩
    simp only [hrun]
    exact hmaster

/-- An operation that does not spare `iter`, where `iter` is no name: the access does not raise. -/
theorem Tracks.not_agrees {x : Tracked κ} {op : MasterOp κ} (h : Tracks p m e w x)
    (hop : op.Allowed e) (hiter : e.entries.lookup (key "iter") = none) (hsp : ¬ op.Spares w) :
    ¬ op.Agrees e p x := by
  unfold MasterOp.Spares at hsp
  push Not at hsp
  obtain ⟨rfl, hsp⟩ := hsp
  cases op with
  | is X =>
    rcases hsp with hX | hX
    · rw [← List.append_cancel_left hX] at hiter
      simp [MasterOp.Allowed, hiter] at hop
    · exact absurd hX (is_ne_set _ _)
  | set X =>
    rcases hsp with hX | hX
    · exact absurd hX.symm (is_ne_set _ _)
    · rw [← List.append_cancel_left hX] at hiter
      simp [MasterOp.Allowed, hiter] at hop
  | setValue v =>
    have hfield : OfIter (key "setValue") := hsp
    exact absurd hfield (by decide)
  | access k =>
    obtain ⟨f, s', hindex⟩ := h.1.index_iter hop hsp
    rintro ⟨-, ⟨err, herr⟩, -⟩
    rw [MasterOp.exec, Eval.run_bind_of_ok hindex] at herr
    cases herr

/-- **Agreement of the accessors.**  For every enumeration and every sequence of calls on its
names and of accesses to undefined accessors, all answers are those of the value stored last, as
long as no accessor of the name `iter` is read where the enumeration is wrapped by `ReadOnly`.
Such a read is wrong: it does not raise although `iter` is no name. -/
theorem valueMaster_agrees (h : Enumerates s m e w) (v₀ : Value κ) {ops : List (MasterOp κ)}
    (hops : ∀ op ∈ ops, op.Allowed e) :
    ∃ p s', (newMaster m (some v₀)).run s = (.ok p, s') ∧
      ((∀ op ∈ ops, op.Spares w) →
        AllSteps (MasterOp.step e p) (fun x op => op.Agrees e p x) ⟨s', some v₀⟩ ops) ∧
      (e.entries.lookup (key "iter") = none →
        AllSteps (MasterOp.step e p) (fun x op => op.Agrees e p x) ⟨s', some v₀⟩ ops →
        ∀ op ∈ ops, op.Spares w) := by
  have htracks : Tracks s.length m e w ⟨s ++ [freshMaster m (some v₀)], some v₀⟩ :=
    ⟨h.master (some v₀), rfl⟩
  refine ⟨_, _, run_newMaster s m (some v₀), fun hsp => ?_, fun hiter hall => ?_⟩
  · have hboth : ∀ op ∈ ops, op.Allowed e ∧ op.Spares w := fun op hop => ⟨hops op hop, hsp op hop⟩
    exact AllSteps.of_invariant (fun x op hx hop => hx.agrees hop.1 hop.2) htracks
      (allSteps_iff_forall.2 hboth)
  · have hall' : AllSteps (MasterOp.step e s.length)
        (fun x op => op.Agrees e s.length x ∧ op.Allowed e)
        ⟨s ++ [freshMaster m (some v₀)], some v₀⟩ ops :=
      allSteps_and.2 ⟨hall, allSteps_iff_forall.2 hops⟩
    refine allSteps_iff_forall.1 (AllSteps.of_invariant (fun x op hx hop => ?_) htracks hall')
    have hsp : op.Spares w := by
      by_contra hsp
      exact hx.not_agrees hop.2 hiter hsp hop.1
    exact ⟨hsp, (hx.agrees hop.2 hsp).2⟩

end

/-- A lamp: two names, and an access to a name that there is not. -/
def lamp : Enumeration ℤ :=
  .ofEntries ((AList.singleton (key "On") (.constant 1)).insert (key "Off") (.constant 0))
    (by decide)

theorem valueMaster_agrees_lamp :
    let ops : List (MasterOp ℤ) :=
  [.is (key "Off"), .set (key "On"), .access (key "is" ++ key "Dim"),
      .setValue (.constant 0), .is (key "Off")]
    ∃ p s', (newMaster 0 (some (.constant 0))).run [.plain lamp.entries] = (.ok p, s') ∧
      AllSteps (MasterOp.step lamp p) (fun x op => op.Agrees lamp p x) ⟨s', some (.constant 0)⟩
        ops := by
  intro ops
  have hops : ∀ op ∈ ops, op.Allowed lamp := by
    simp only [ops, List.forall_mem_cons]
    refine ⟨rfl, rfl, undefined_is rfl, trivial, rfl, by simp⟩
  obtain ⟨p, s', hrun, hagrees, -⟩ :=
    valueMaster_agrees (s := [.plain lamp.entries]) (m := 0) (.plain rfl) (.constant 0) hops
  exact ⟨p, s', hrun, hagrees fun op _ hw => absurd hw (by decide)⟩

/-- Behind a `ReadOnly` the lamp has an accessor `isiter`. -/
theorem valueMaster_isiter :
    ¬ ∀ (s : Tables ℤ) (m : Ref) (e : Enumeration ℤ) (w : Bool), Enumerates s m e w →
      ∀ (v₀ : Value ℤ) (ops : List (MasterOp ℤ)), (∀ op ∈ ops, op.Allowed e) →
      ∃ p s', (newMaster m (some v₀)).run s = (.ok p, s') ∧
        AllSteps (MasterOp.step e p) (fun x op => op.Agrees e p x) ⟨s', some v₀⟩ ops := by
  intro h
  have hundefined : (MasterOp.access (key "is" ++ key "iter")).Allowed lamp := undefined_is rfl
  obtain ⟨s, -, hproxied, -⟩ := readOnly_spec (s := [.plain lamp.entries]) (o := 0) rfl
  have henum : Enumerates s 1 lamp true := .wrapped hproxied
  obtain ⟨p, s', hrun, hall⟩ := h s 1 lamp true henum (.constant 0)
    [.access (key "is" ++ key "iter")] (by simpa using hundefined)
  rw [run_newMaster] at hrun
  obtain ⟨hp, rfl⟩ := Prod.mk.inj hrun
  obtain rfl := Except.ok.inj hp
  have htracks : Tracks s.length 1 lamp true
      ⟨s ++ [freshMaster 1 (some (.constant 0))], some (.constant 0)⟩ :=
    ⟨henum.master _, rfl⟩
  exact htracks.not_agrees hundefined rfl (fun hsp => hsp rfl (Or.inl rfl)) hall.1

end Script

end SockTestProgram
