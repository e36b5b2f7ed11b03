import SockTestProgram.Pbc.Expansion

/-!
# Reading the fields of messages

A message in a field is decoded at the first access to it.  What an access returns does not depend
on when this was: in every run it is what the bytes of the message hold, or its default, if the
bytes decode.  If they do not, the first access raises an error, and the later ones return what was
decoded before the failure (`access_of_run`).
-/

open Lts

namespace SockTestProgram

/-- The field that the values make, or something else where they make none. -/
def ReadsAs (h : LuaHeap) (cs : List (Field × PbcValue)) (field : String)
    (absent res : Access) : Prop :=
  Stored h (valuesOf cs field) .nil ∧ res = absent ∨
    ∃ fv, fv ≠ .nil ∧ Stored h (valuesOf cs field) fv ∧ res = .value fv

variable {types : PbcTypes} {h h' : LuaHeap} {cs : List (Field × PbcValue)} {msg : ℕ}
  {t : MessageTable} {ok : Bool}

theorem ReadsAs.keeps (hk : Keeps h h') {field : String} {absent res : Access}
    (hr : ReadsAs h cs field absent res) :
    ReadsAs h' cs field absent res := by
  obtain ⟨hnil, hres⟩ | ⟨fv, hne, hstored, hres⟩ := hr
  · exact .inl ⟨hnil.keeps hk, hres⟩
  · exact .inr ⟨fv, hne, hstored.keeps hk, hres⟩

/-- A table that is not as it was made has the defaults of its type, if its bytes decode; those
of `decode` do. -/
def MessageTable.Settled (types : PbcTypes) (t : MessageTable) : Prop :=
  t.pending = false → ∃ cs ok, pbcDecode types t.typeName t.buffer = .ok (cs, ok) ∧
    t.metatable = some (if ok then .default t.typeName else .decodeMessage) ∧
      (t.nested = false → ok = true)

def Settled (types : PbcTypes) (h : LuaHeap) : Prop := ∀ t ∈ h, t.Settled types

theorem MessageTable.Fresh.settled (ht : t.Fresh) : t.Settled types := by
  intro hpending
  rw [ht.pending] at hpending
  cases hpending

/-! ## Steps -/

/-- Filling a table makes new ones. -/
theorem Settled.foldl_decodeCb (hs : Settled types h) (cs : List (Field × PbcValue))
    (fields : String → FieldValue) :
    Settled types (cs.foldl decodeCb (h, fields)).1 := by
  obtain ⟨new, hheap, hfresh⟩ := foldl_decodeCb_fresh cs h fields
  rw [hheap]
  intro u hu
  obtain hu | hu := List.mem_append.1 hu
  · exact hs u hu
  · exact (hfresh u hu).settled

theorem Settled.set (hs : Settled types h) {r : ℕ} (ht : t.Settled types) :
    Settled types (h.set r t) := by
  intro u hu
  obtain hu | rfl := List.mem_or_eq_of_mem_set hu
  · exact hs u hu
  · exact ht

theorem Settled.expand (hs : Settled types h) (ht : t.Fresh)
    (he : expand types h msg t = .ok (h', ok)) :
    Settled types h' := by
  obtain ⟨⟨cs, ok⟩, hdecode, he⟩ := Opened.map_eq_ok he
  cases he
  apply (hs.foldl_decodeCb cs t.fields).set
  refine fun _ => ⟨cs, ok, hdecode, ?_, fun hnested => ?_⟩
  · cases ok with
    | true => rfl
    | false => exact ht.metatable
  · have : t.nested = false := hnested
    rw [ht.nested] at this
    cases this

theorem Settled.decode (hs : Settled types h) {typeName : String} {buffer : Bytes} {ret : Option ℕ}
    (hd : protobufDecode types h typeName buffer = .ok (h', ret)) : Settled types h' := by
  obtain ⟨⟨cs, ok⟩, hdecode, hd⟩ := Opened.map_eq_ok hd
  cases ok with
  | false =>
    cases hd
    exact hs
  | true =>
    cases hd
    -- the place of the new table holds one that is overwritten
    obtain ⟨new, hheap, hfresh⟩ := foldl_decodeCb_fresh cs
      (h ++ [⟨typeName, buffer, false, false, fun _ => .nil, none⟩]) fun _ => .nil
    intro u hu
    simp only [hheap, List.append_assoc, List.singleton_append] at hu
    rw [List.set_append_right _ _ le_rfl, Nat.sub_self, List.set_cons_zero, List.mem_append,
      List.mem_cons] at hu
    obtain hu | rfl | hu := hu
    · exact hs u hu
    · exact fun _ => ⟨cs, true, hdecode, rfl, fun _ => rfl⟩
    · exact (hfresh u hu).settled

theorem Settled.step (hs : Settled types h) (hsound : Sound types h) {op : MessageOp}
    (hstep : h.step types op = some h') : Settled types h' := by
  cases op with
  | decode typeName buffer =>
    simp only [LuaHeap.step] at hstep
    split at hstep
    next g ret hd =>
      obtain rfl := Option.some.inj hstep
      exact hs.decode hd
    · cases hstep
  | access r field =>
    obtain ⟨⟨g, res⟩, ha, rfl⟩ := Option.map_eq_some_iff.1 hstep
    obtain ⟨t, ht, ⟨rfl, -⟩ | ⟨hpending, ok, he⟩⟩ := access_cases ha
    · exact hs
    · exact hs.expand (hsound.fresh_of_pending ht hpending) he
  | optionalNoDefault r field =>
    obtain ⟨⟨g, res⟩, ho, rfl⟩ := Option.map_eq_some_iff.1 hstep
    cases ht : h[r]? with
    | none => simp [optionalNoDefault, ht] at ho
    | some t =>
      rw [optionalNoDefault_eq ht] at ho
      cases ho
      exact hs

/-! ## Accesses -/

/-- What is read of a table that is not as it was made. -/
theorem access_filled (hs : Settled types h) (hsound : Sound types h) (ht : h[msg]? = some t)
    (hpending : t.pending = false) (hdecode : pbcDecode types t.typeName t.buffer = .ok (cs, ok))
    (field : String) :
    ∃ res, access types h msg field = some (h, res) ∧
      ReadsAs h cs field (if ok then .default t.typeName field else .raised) res := by
  have hfilled := (hsound msg t ht).resolve_left fun hfresh => by
    rw [hfresh.pending] at hpending
    cases hpending
  obtain ⟨-, cs', ok', hdecode', hstored⟩ := hfilled
  obtain ⟨rfl, rfl⟩ := Prod.mk.inj (Opened.ok.inj (hdecode.symm.trans hdecode'))
  obtain ⟨cs'', ok'', hdecode'', hmeta, -⟩ := hs t (List.mem_of_getElem? ht) hpending
  obtain ⟨rfl, rfl⟩ := Prod.mk.inj (Opened.ok.inj (hdecode.symm.trans hdecode''))
  have hfield := hstored field
  unfold access
  simp only [ht]
  by_cases hraw : t.fields field = .nil
  · rw [if_neg (not_not.2 hraw), hmeta]
    rw [hraw] at hfield
    cases ok with
    | true => exact ⟨_, rfl, .inl ⟨hfield, rfl⟩⟩
    | false =>
      refine ⟨.raised, ?_, .inl ⟨hfield, rfl⟩⟩
      simp only [hpending, Bool.false_eq_true, if_false, if_true]
  · rw [if_pos hraw]
    exact ⟨_, rfl, .inr ⟨_, hraw, hfield, rfl⟩⟩

/-- The first access to a message in a field. -/
theorem access_fresh (ht : h[msg]? = some t) (hfresh : t.Fresh)
    (hdecode : pbcDecode types t.typeName t.buffer = .ok (cs, ok)) (field : String) :
    ∃ h' res, access types h msg field = some (h', res) ∧ Keeps h h' ∧
      (ok = true → ReadsAs h' cs field (.default t.typeName field) res) ∧
        (ok = false → res = .raised) := by
  have hraw : t.fields field = .nil := by rw [hfresh.fields]
  obtain ⟨h', he⟩ : ∃ h', expand types h msg t = .ok (h', ok) := by
    unfold expand
    rw [hdecode]
    exact ⟨_, rfl⟩
  obtain ⟨t', hfills, -⟩ := expand_eq_ok ht he
  unfold access
  simp only [ht]
  rw [if_neg (not_not.2 hraw), hfresh.metatable]
  simp only [hfresh.pending, Bool.true_eq_false, if_false, he]
  cases ok with
  | false => exact ⟨h', .raised, rfl, hfills.keeps, by simp, fun _ => rfl⟩
  | true =>
    have hget : h'[msg]? = some t' := by
      obtain ⟨new, rfl, -⟩ := hfills.heap
      apply List.getElem?_set_self
      rw [List.length_append]
      have := hfills.inside
      omega
    obtain ⟨-, cs', ok', hdecode', hstored⟩ := hfills.filled_self hfresh.fields
    rw [hfills.typeName, hfills.buffer, hdecode] at hdecode'
    obtain ⟨rfl, -⟩ := Prod.mk.inj (Opened.ok.inj hdecode')
    have hfield := hstored field
    refine ⟨h', _, rfl, hfills.keeps, fun _ => ?_, by simp⟩
    simp only [hget, Option.elim_some]
    by_cases hnil : t'.fields field = .nil
    · rw [hnil] at hfield ⊢
      exact .inl ⟨hfield, if_neg (not_not.2 rfl)⟩
    · exact .inr ⟨_, hnil, hfield, if_pos hnil⟩

/-- The tables of a run. -/
structure Ready (types : PbcTypes) (h : LuaHeap) : Prop where
  sound : Sound types h
  settled : Settled types h

theorem Ready.step (hr : Ready types h) {op : MessageOp} (hstep : h.step types op = some h') :
    Ready types h' :=
  ⟨hr.sound.step hstep, hr.settled.step hr.sound hstep⟩

theorem ready_nil : Ready types [] := ⟨sound_nil, fun t ht => by simp at ht⟩

theorem ready_of_run {ops : List MessageOp} (hrun : run (LuaHeap.step types) [] ops = some h) :
    Ready types h :=
  run_invariant (fun _ _ _ hr hstep => hr.step hstep) hrun ready_nil

/-! ## What stays -/

theorem keeps_step {op : MessageOp} (hstep : h.step types op = some h') : Keeps h h' := by
  obtain ⟨rfl, -⟩ | ⟨-, t, t', -, hfills, -⟩ | ⟨_, t, t', -, -, hfills, -⟩ :=
    LuaHeap.step_cases hstep
  · exact fun _ u hu => ⟨u, hu, rfl, rfl⟩
  · exact (Keeps.append _ _).trans hfills.keeps
  · exact hfills.keeps

theorem keeps_of_run {ops : List MessageOp} (hrun : run (LuaHeap.step types) h ops = some h') :
    Keeps h h' :=
  run_invariant (I := Keeps h) (fun _ _ _ hk hstep => hk.trans (keeps_step hstep)) hrun
    fun _ u hu => ⟨u, hu, rfl, rfl⟩

/-- A step leaves a table as it is, unless it is the access that decodes it. -/
theorem getElem?_step {op : MessageOp} (hstep : h.step types op = some h') (ht : h[msg]? = some t)
    (hno : op.Accesses msg → t.pending = false) : h'[msg]? = some t := by
  have hlt := (List.getElem?_eq_some_iff.1 ht).1
  obtain ⟨u, hu, -⟩ := keeps_step hstep msg t ht
  obtain ⟨rfl, -⟩ | ⟨-, t₁, t', -, hfills, -⟩ | ⟨_, t₁, t', hiff, hpending, hfills, -⟩ :=
    LuaHeap.step_cases hstep
  · exact ht
  · have hlength : (h ++ [t₁]).length = h.length + 1 := by simp
    obtain ⟨rfl, -⟩ | ⟨hne, hsame⟩ | ⟨hle, -⟩ := hfills.cases hu
    · omega
    · rw [hu, ← getElem?_concat_of_ne hne hsame, ht]
    · omega
  · obtain ⟨rfl, -⟩ | ⟨-, hsame⟩ | ⟨hle, -⟩ := hfills.cases hu
    · obtain rfl := Option.some.inj (ht.symm.trans hfills.get)
      rw [hno ((hiff _).2 rfl)] at hpending
      cases hpending
    · rw [hu, ← hsame, ht]
    · omega

theorem getElem?_of_run {ops : List MessageOp} (hrun : run (LuaHeap.step types) h ops = some h')
    (ht : h[msg]? = some t) (hno : ∀ op ∈ ops, op.Accesses msg → t.pending = false) :
    h'[msg]? = some t := by
  induction ops generalizing h with
  | nil => exact Option.some.inj hrun ▸ ht
  | cons op ops ih =>
    obtain ⟨m, hm, hrest⟩ := run_cons_eq_some_iff.1 hrun
    exact ih hrest (getElem?_step hm ht (hno op List.mem_cons_self)) fun o ho =>
      hno o (List.mem_cons_of_mem _ ho)

/-- **An access to a message that decodes** reads what its bytes hold, or the default. -/
theorem Ready.access (hr : Ready types h) (ht : h[msg]? = some t)
    (hdecode : pbcDecode types t.typeName t.buffer = .ok (cs, true)) (field : String) :
    ∃ h' res, access types h msg field = some (h', res) ∧ Keeps h h' ∧ Ready types h' ∧
      ReadsAs h' cs field (.default t.typeName field) res := by
  have hready {h' res} (ha : SockTestProgram.access types h msg field = some (h', res)) :
      Ready types h' := by
    refine hr.step (show h.step types (.access msg field) = some h' from ?_)
    rw [LuaHeap.step, ha]
    rfl
  obtain hfresh | ⟨hpending, -⟩ := hr.sound msg t ht
  · obtain ⟨h', res, ha, hk, hreads, -⟩ := access_fresh ht hfresh hdecode field
    exact ⟨h', res, ha, hk, hready ha, hreads rfl⟩
  · obtain ⟨res, ha, hreads⟩ := access_filled hr.settled hr.sound ht hpending hdecode field
    exact ⟨h, res, ha, fun _ u hu => ⟨u, hu, rfl, rfl⟩, hr, hreads⟩

/-- **Decoding at the first access is not seen.**  In every run of decoding and accesses, what an
access to a message returns is what the bytes of the message hold or the default, if the bytes
decode.  If they do not, the first access to the message raises an error, and every later one
returns what was decoded, and raises an error where that is nothing. -/
theorem access_of_run {ops : List MessageOp} (hrun : run (LuaHeap.step types) [] ops = some h)
    (ht : h[msg]? = some t) (hdecode : pbcDecode types t.typeName t.buffer = .ok (cs, ok))
    (field : String) :
    ∃ h' res, access types h msg field = some (h', res) ∧
      (ok = true → ReadsAs h' cs field (.default t.typeName field) res) ∧
      (ok = false → (∃ op ∈ ops, op.Accesses msg) → ReadsAs h' cs field .raised res) ∧
      (ok = false → (∀ op ∈ ops, ¬ op.Accesses msg) → res = .raised) := by
  have hready := ready_of_run hrun
  have hpending := (pending_eq_false_iff hrun).2 msg t ht
  obtain hfresh | hfilled := hready.sound msg t ht
  · obtain ⟨h', res, ha, -, hreads, hraised⟩ := access_fresh ht hfresh hdecode field
    refine ⟨h', res, ha, hreads, fun _ haccessed => ?_, fun hok _ => hraised hok⟩
    have := hpending.2 (.inr haccessed)
    rw [hfresh.pending] at this
    cases this
  · obtain ⟨res, ha, hreads⟩ := access_filled hready.settled hready.sound ht hfilled.1 hdecode field
    refine ⟨h, res, ha, ?_, ?_, fun hok hno => ?_⟩
    · rintro rfl
      exact hreads
    · rintro rfl -
      exact hreads
    · -- a message of `decode` does decode
      have hnested := (hpending.1 hfilled.1).resolve_right fun ⟨op, hop, haccesses⟩ =>
        hno op hop haccesses
      obtain ⟨cs', ok', hdecode', -, hok'⟩ := hready.settled t (List.mem_of_getElem? ht) hfilled.1
      obtain ⟨-, rfl⟩ := Prod.mk.inj (Opened.ok.inj (hdecode.symm.trans hdecode'))
      rw [hok' hnested] at hok
      cases hok

/-- A tree with labels, whose type is its own field. -/
def treeMessage : PbcMessage :=
  ⟨[⟨1, "label", .string, .optional, "", ""⟩, ⟨2, "child", .message, .optional, "Tree", ""⟩],
    by decide⟩

def treeTypes : PbcTypes :=
  ⟨fun _ => none, fun name => if name = "Tree" then some treeMessage else none⟩

/-- A child with a label, and with a number where its own child ought to be: the second access
returns the label. -/
theorem access_of_run_child :
    ∃ h cs h' res, run (LuaHeap.step treeTypes) []
        [.decode "Tree" [0x12, 5, 0x0a, 1, 97, 0x10, 1], .access 1 "label"] = some h ∧
      valuesOf cs "label" = [(⟨1, "label", .string, .optional, "", ""⟩, .s [97])] ∧
      access treeTypes h 1 "label" = some (h', res) ∧ ReadsAs h' cs "label" .raised res := by
  have hrun : ∃ h, run (LuaHeap.step treeTypes) []
      [.decode "Tree" [0x12, 5, 0x0a, 1, 97, 0x10, 1], .access 1 "label"] = some h ∧
      h[1]?.map (fun t => (t.typeName, t.buffer)) = some ("Tree", [0x0a, 1, 97, 0x10, 1]) :=
    exists_run_of_any (by decide +kernel)
  obtain ⟨h, hrun, hentry⟩ := hrun
  obtain ⟨t, ht, hkey⟩ := Option.map_eq_some_iff.1 hentry
  obtain ⟨htype, hbuffer⟩ := Prod.mk.inj hkey
  have hdecode : pbcDecode treeTypes t.typeName t.buffer =
      .ok ([(⟨1, "label", .string, .optional, "", ""⟩, .s [97])], false) := by
    rw [htype, hbuffer]
    decide +kernel
  obtain ⟨h', res, ha, -, hreads, -⟩ := access_of_run hrun ht hdecode "label"
  exact ⟨h, _, h', res, hrun, by decide +kernel, ha,
    hreads rfl ⟨.access 1 "label", by simp, "label", rfl⟩⟩

end SockTestProgram
