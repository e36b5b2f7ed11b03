import SockTestProgram.App.ValueMaster

/-!
# `ClientState`

The object that `ClientState:create()` returns holds a `ValueMaster` over the three constants of
`CltState`.  Its first value is read from the class `ClientState`, which has no field
`Disconnected`, so that the master starts without a value: all three predicates are false, and
`setValue` raises, until one of the generated setters is called (`clientState_right_iff`).
-/

open Lua Lts

namespace SockTestProgram

namespace Script

/-- The names in `CltState`. -/
inductive CltState
  | disconnected
  | connecting
  | connected
  deriving DecidableEq, Repr

namespace CltState

def name : CltState → Key
  | disconnected => key "Disconnected"
  | connecting => key "Connecting"
  | connected => key "Connected"

def constant : CltState → Value ℤ
  | disconnected => .constant 1
  | connecting => .constant 2
  | connected => .constant 3

end CltState

/-- The enumeration that `CltState` wraps. -/
def clt : Enumeration ℤ := .ofEntries cltStates (by decide)

theorem lookup_clt (X : CltState) : clt.entries.lookup X.name = some X.constant := by
  cases X <;> rfl

theorem constant_inj {X Y : CltState} : X.constant = Y.constant ↔ X = Y := by
  cases X <;> cases Y <;> decide

theorem not_ofIter (X : CltState) :
    ¬ OfIter (key "is" ++ X.name) ∧ ¬ OfIter (key "set" ++ X.name) := by
  cases X <;> decide

variable {s s' : Tables ℤ} {obj cls m p : Ref} {c : Option CltState}

/-! ## The object after `create` -/

/-- The table that `class` returns. -/
def classTable (cls : Ref) : Object ℤ where
  entries := (((AList.singleton (key "__index") (.table cls)).insert (key "ctor")
    (.function .defaultCtor)).insert (key "new") (.function (.new cls))).insert (key "create")
    (.function (.create cls))
  metatable := some ⟨none, none⟩

theorem run_createClass (s : Tables ℤ) :
    (createClass (κ := ℤ)).run s = (.ok s.length, s ++ [classTable s.length]) := by
  rw [createClass, Eval.run_bind_of_ok (run_newtable _ _),
    Eval.run_bind_of_ok (setindex_append rfl _ _ _ _),
    Eval.run_bind_of_ok (setmetatable_append _ _ _ _),
    Eval.run_bind_of_ok (setindex_append rfl _ _ _ _),
    Eval.run_bind_of_ok (setindex_append rfl _ _ _ _),
    Eval.run_bind_of_ok (setindex_append rfl _ _ _ _)]
  rfl

/-- The class `ClientState`. -/
def clientStateTable (cls cltState : Ref) : Object ℤ :=
  ((classTable cls).rawset (key "ctor") (some (.function (.ctor cls cltState)))).rawset
    (key "GetState") (some (.function .getState))

/-- The tables of the module: the class, the three constants and `CltState`. -/
def moduleTables (cls : Ref) : Tables ℤ :=
  [clientStateTable cls (cls + 2), guarded cltStates, proxy (cls + 1)]

theorem run_clientStateModule (s : Tables ℤ) :
    clientStateModule.run s = (.ok s.length, s ++ moduleTables s.length) := by
  have hstates : (newtable cltStates).run (s ++ [classTable s.length]) =
      (.ok (s.length + 1), s ++ [classTable s.length, .plain cltStates]) := by
    rw [run_newtable]
    simp
  have hreadOnly : (readOnly (s.length + 1)).run (s ++ [classTable s.length, .plain cltStates]) =
      (.ok (s.length + 2),
        s ++ classTable s.length :: [guarded cltStates, proxy (s.length + 1)]) := by
    rw [run_readOnly]
    have hlast := Store.setmetatable_append (s ++ [classTable s.length]) []
      (.plain cltStates) ⟨some (.function .cannotAccess), none⟩
    simp only [List.length_append, List.length_singleton, List.append_assoc,
      List.singleton_append] at hlast
    rw [hlast]
    simp [guarded, Table.plain]
  rw [clientStateModule, Eval.run_bind_of_ok (run_createClass s), Eval.run_bind_of_ok hstates,
    Eval.run_bind_of_ok hreadOnly, Eval.run_bind_of_ok (setindex_append rfl _ _ _ _),
    Eval.run_bind_of_ok (setindex_append rfl _ _ _ _)]
  rfl

/-- The object of the class. -/
def instanceTable (cls p : Ref) : Object ℤ where
  entries := (AList.singleton (key "class") (.table cls)).insert (key "_state") (.table p)
  metatable := some ⟨some (.table cls), none⟩

/-- `ClientState:ctor` on a table that was just made.  The class has no field `Disconnected`: the
master gets no value. -/
theorem run_ctor {base : Tables ℤ} {cls cltState : Ref}
    (hC : base[cls]? = some (clientStateTable cls cltState)) {T : Object ℤ} (hT : T.newindex = none)
    (calls : ℕ) :
    (callAt (calls + 1) (.ctor cls cltState) base.length none).run (base ++ [T]) =
      (.ok (.values []), base ++ [T.rawset (key "_state") (some (.table (base.length + 1))),
        freshMaster cltState none]) := by
  have hnil : (index cls (key "Disconnected")).run (base ++ [T]) = (.ok none, base ++ [T]) :=
    indexAt_of_no_index (Store.getElem?_append_of_some hC T) rfl rfl _
  have hmaster : (newMaster cltState none).run (base ++ [T]) =
      (.ok (base.length + 1), base ++ T :: [freshMaster cltState none]) := by
    rw [run_newMaster]
    simp
  rw [callAt_succ, Closure.body, Eval.run_bind_of_ok hnil, Eval.run_bind_of_ok hmaster,
    Eval.run_bind_of_ok (setindex_append hT _ _ _ _)]
  rfl

/-- `cls.new` -/
theorem run_new {base : Tables ℤ} {cls cltState : Ref}
    (hC : base[cls]? = some (clientStateTable cls cltState)) (calls : ℕ) :
    (callAt (calls + 2) (.new cls) cls none).run base = (.ok (.values [some (.table base.length)]),
      base ++ [instanceTable cls (base.length + 1), freshMaster cltState none]) := by
  let T : Object ℤ := ⟨AList.singleton (key "class") (.table cls), some ⟨some (.table cls), none⟩⟩
  have hclass : (setindex base.length (key "class") (some (.table cls))).run
      (base ++ [⟨∅, some ⟨some (.table cls), none⟩⟩]) = (.ok (), base ++ [T]) :=
    setindex_append rfl _ _ _ _
  have hctor : (index base.length (key "ctor")).run (base ++ [T]) =
      (.ok (some (.function (.ctor cls cltState))), base ++ [T]) := by
    refine indexAt_of_value ?_ _
    exact (Store.gettable_of_table (Store.getElem?_append base [] T) rfl rfl _).trans
      (Store.gettable_of_mem (Store.getElem?_append_of_some hC T) rfl _)
  rw [callAt_succ, Closure.body, Eval.run_bind_of_ok (run_newtable _ _),
    Eval.run_bind_of_ok (setmetatable_append _ _ _ _), Table.plain, Eval.run_bind_of_ok hclass,
    Eval.run_bind_of_ok hctor, invoke, Eval.run_bind_of_ok (run_ctor hC rfl calls)]
  rfl

/-- `ClientState:create()`, when the module has just been loaded. -/
def createClientState : Script ℤ (Results ℤ) := do
  let clientState ← clientStateModule
  method clientState (key "create") none

theorem run_createClientState (s : Tables ℤ) :
    createClientState.run s = (.ok (.values [some (.table (s.length + 3))]),
      s ++ moduleTables s.length ++
        [instanceTable s.length (s.length + 4), freshMaster (s.length + 2) none]) := by
  have hC : (s ++ moduleTables s.length)[s.length]? =
      some (clientStateTable s.length (s.length + 2)) :=
    Store.getElem?_append s _ _
  have hcreate : (index s.length (key "create")).run (s ++ moduleTables s.length) =
      (.ok (some (.function (.create s.length))), s ++ moduleTables s.length) :=
    index_of_mem hC rfl
  have hnew : (index s.length (key "new")).run (s ++ moduleTables s.length) =
      (.ok (some (.function (.new s.length))), s ++ moduleTables s.length) :=
    index_of_mem hC rfl
  have hlen : (s ++ moduleTables s.length).length = s.length + 3 := by simp [moduleTables]
  have hrun := run_new hC (maxCalls - 3)
  rw [hlen] at hrun
  rw [createClientState, Eval.run_bind_of_ok (run_clientStateModule s), method,
    Eval.run_bind_of_ok hcreate, invoke, call_eq, Closure.body, Eval.run_bind_of_ok hnew]
  exact hrun

/-! ## What a script does with the object -/

/-- A call on `GetState()`. -/
inductive StateOp
  /-- `setX()` -/
  | set (X : CltState)
  /-- `setValue(CltState.X)` -/
  | setValue (X : CltState)
  /-- `isX()` -/
  | is (X : CltState)
  deriving DecidableEq, Repr

namespace StateOp

def master : StateOp → MasterOp ℤ
  | .set X => .set X.name
  | .setValue X => .setValue X.constant
  | .is X => .is X.name

/-- `obj:GetState():op()` -/
def exec (obj : Ref) (op : StateOp) : Script ℤ (Results ℤ) := do
  let r ← method obj (key "GetState") none
  match r with
  | .values (some (.table p) :: _) => op.master.exec p
  | _ => Eval.raise .typeError

/-- The state that the call sets. -/
def sets : StateOp → Option CltState
  | .set X | .setValue X => some X
  | .is _ => none

def step (obj : Ref) (s : Tables ℤ) (op : StateOp) : Option (Tables ℤ) :=
  some ((op.exec obj).run s).2

/-- The state that was set last, `X` if none was. -/
def lastSet (X : CltState) (ops : List StateOp) : CltState :=
  ops.foldl (fun X op => op.sets.getD X) X

end StateOp

/-- No call raises, and after the calls the predicate of the state `X` is true and no other is. -/
def Stands (obj : Ref) (s : Tables ℤ) (ops : List StateOp) (X : CltState) : Prop :=
  AllSteps (StateOp.step obj) (fun s op => ∃ r, ((op.exec obj).run s).1 = .ok r) s ops ∧
    ∃ t, run (StateOp.step obj) s ops = some t ∧ ∀ Y,
      (((StateOp.is Y).exec obj).run t).1 = .ok (.values [some (.boolean (decide (Y = X)))])

/-- The object `obj` with its master `p`, where `c` is the state that is stored, if there is one. -/
structure Ready (s : Tables ℤ) (obj cls m p : Ref) (c : Option CltState) : Prop where
  object : s[obj]? = some (instanceTable cls p)
  clientState : s[cls]? = some (clientStateTable cls m)
  master : Master s p m clt true (c.map CltState.constant)
  obj_ne : obj ≠ p
  cls_ne : cls ≠ p

/-- The object after `create` has a master without a value. -/
theorem ready_create (s : Tables ℤ) :
    ∃ obj cls m p s', createClientState.run s = (.ok (.values [some (.table obj)]), s') ∧
      Ready s' obj cls m p none := by
  refine ⟨_, s.length, s.length + 2, s.length + 4, _, run_createClientState s, ?_, ?_,
    ⟨?_, ?_⟩, ?_, ?_⟩
  · simp [moduleTables]
  · simp [moduleTables]
  · exact .wrapped (o := s.length + 1) ⟨by simp [moduleTables, clt, Enumeration.ofEntries],
      by simp [moduleTables]⟩
  · exact ⟨_, by simp [moduleTables], isMaster_freshMaster _ _ _⟩
  · simp
  · simp

theorem Ready.getState (h : Ready s obj cls m p c) :
    (method obj (key "GetState") none).run s = (.ok (.values [some (.table p)]), s) := by
  have hget : (index obj (key "GetState")).run s = (.ok (some (.function .getState)), s) := by
    refine indexAt_of_value ?_ _
    exact (Store.gettable_of_table h.object rfl rfl _).trans
      (Store.gettable_of_mem h.clientState rfl _)
  have hstate : (index obj (key "_state")).run s = (.ok (some (.table p)), s) :=
    index_of_mem h.object rfl
  rw [method, Eval.run_bind_of_ok hget, invoke, call_eq, Closure.body, Eval.run_bind_of_ok hstate]
  rfl

theorem Ready.exec_eq (h : Ready s obj cls m p c) (op : StateOp) :
    (op.exec obj).run s = (op.master.exec p).run s := by
  rw [StateOp.exec, Eval.run_bind_of_ok h.getState]

theorem StateOp.allowed (op : StateOp) : op.master.Allowed clt := by
  cases op with
  | set X => simp [master, MasterOp.Allowed, lookup_clt]
  | setValue X => trivial
  | is X => simp [master, MasterOp.Allowed, lookup_clt]

theorem StateOp.spares (op : StateOp) : op.master.Spares true := by
  intro _
  cases op with
  | set X => exact (not_ofIter X).2
  | setValue X =>
    have : ¬ OfIter (key "setValue") := by decide
    exact this
  | is X => exact (not_ofIter X).1

/-- The state that is stored after the call: `setValue` needs one before. -/
def StateOp.next (c : Option CltState) : StateOp → Option CltState
  | .set X => some X
  | .setValue X => c.map fun _ => X
  | .is _ => c

/-- One call on the object. -/
theorem Ready.exec (h : Ready s obj cls m p c) (op : StateOp) :
    ∃ r s', (op.exec obj).run s = (r, s') ∧
      op.master.Answered clt p (c.map CltState.constant) r ∧ Ready s' obj cls m p (op.next c) := by
  obtain ⟨r, s', hrun, hanswered, hmaster, hframe⟩ := h.master.exec op.allowed op.spares
  have hnext : op.master.next clt (c.map CltState.constant) =
      (op.next c).map CltState.constant := by
    cases op with
    | set X => exact lookup_clt X
    | setValue X => cases c <;> rfl
    | is X => rfl
  refine ⟨r, s', (h.exec_eq op).trans hrun, hanswered, ?_, ?_, hnext ▸ hmaster, h.obj_ne, h.cls_ne⟩
  · rw [hframe obj h.obj_ne, h.object]
  · rw [hframe cls h.cls_ne, h.clientState]

/-! ## Runs -/

theorem Ready.step_of_ok (h : Ready s obj cls m p c) (op : StateOp)
    (hok : c.isSome ∨ ∀ X, op ≠ .setValue X) :
    (∃ r, ((op.exec obj).run s).1 = .ok r) ∧
      Ready ((op.exec obj).run s).2 obj cls m p (op.next c) := by
  obtain ⟨r, s', hrun, hanswered, h'⟩ := h.exec op
  rw [hrun]
  refine ⟨?_, h'⟩
  cases op with
  | set X => exact ⟨_, hanswered⟩
  | setValue X =>
    have hc : c.isSome := hok.resolve_right fun h => h X rfl
    simp only [MasterOp.Answered, StateOp.master, Option.isSome_map, hc, if_true] at hanswered
    exact ⟨_, hanswered⟩
  | is X => exact ⟨_, hanswered⟩

/-- The predicates tell which state is stored. -/
theorem Ready.exec_is (h : Ready s obj cls m p c) (Y : CltState) :
    (((StateOp.is Y).exec obj).run s).1 =
      .ok (.values [some (.boolean (decide (c = some Y)))]) := by
  obtain ⟨r, s', hrun, hanswered, -⟩ := h.exec (.is Y)
  have hiff : c.map CltState.constant = clt.entries.lookup Y.name ↔ c = some Y := by
    rw [lookup_clt]
    cases c with
    | none => simp
    | some X => simp [constant_inj]
  rw [hrun, hanswered]
  simp only [decide_eq_decide.2 hiff]

theorem stands_cons_iff {op : StateOp} {ops : List StateOp} {X : CltState} :
    Stands obj s (op :: ops) X ↔
      (∃ r, ((op.exec obj).run s).1 = .ok r) ∧ Stands obj ((op.exec obj).run s).2 ops X := by
  simp only [Stands, AllSteps, StateOp.step, run_cons, Option.bind_some, Option.some.injEq,
    forall_eq', and_assoc]

/-- A stored state stands whatever is called then. -/
theorem Ready.stands {X : CltState} (h : Ready s obj cls m p (some X)) (ops : List StateOp) :
    Stands obj s ops (StateOp.lastSet X ops) := by
  induction ops generalizing s X with
  | nil =>
    refine ⟨trivial, s, rfl, fun Y => ?_⟩
    rw [h.exec_is Y]
    simp [StateOp.lastSet, eq_comm]
  | cons op ops ih =>
    obtain ⟨hok, h'⟩ := h.step_of_ok op (Or.inl rfl)
    have hnext : op.next (some X) = some (op.sets.getD X) := by cases op <;> rfl
    rw [hnext] at h'
    exact stands_cons_iff.2 ⟨hok, ih h'⟩

/-- Without a stored state the calls are right exactly if a generated setter comes before
`setValue`. -/
theorem Ready.stands_iff (h : Ready s obj cls m p none) (ops : List StateOp) :
    Stands obj s ops (StateOp.lastSet .disconnected ops) ↔
      ∃ X, ops.find? (fun op => op.sets.isSome) = some (.set X) := by
  induction ops generalizing s with
  | nil =>
    refine iff_of_false ?_ (by simp)
    rintro ⟨-, t, ht, hpredicates⟩
    obtain rfl := Option.some.inj ht
    have hdisconnected := hpredicates .disconnected
    rw [h.exec_is] at hdisconnected
    simp [StateOp.lastSet] at hdisconnected
  | cons op ops ih =>
    cases op with
    | is X =>
      obtain ⟨hok, h'⟩ := h.step_of_ok (.is X) (Or.inr (by simp))
      exact (stands_cons_iff.trans (and_iff_right hok)).trans (ih h')
    | set X =>
      obtain ⟨hok, h'⟩ := h.step_of_ok (.set X) (Or.inr (by simp))
      exact iff_of_true (stands_cons_iff.2 ⟨hok, Ready.stands h' ops⟩) ⟨X, rfl⟩
    | setValue X =>
      refine iff_of_false (fun hstands => ?_) (by simp [StateOp.sets])
      obtain ⟨⟨r, hr⟩, -⟩ := stands_cons_iff.1 hstands
      obtain ⟨r', s', hrun, hanswered, -⟩ := h.exec (.setValue X)
      obtain ⟨err, rfl⟩ : ∃ err, r' = .error err := hanswered
      rw [hrun] at hr
      cases hr

/-- **When `ClientState` is in exactly one state.**  After `ClientState:create()` and any calls
on `GetState()`, no call has raised and exactly the predicate of the last state set (at first
`Disconnected`) is true, if and only if the first setter among the calls was a generated one.  In
particular it is not so before the first. -/
theorem clientState_right_iff (s : Tables ℤ) :
    ∃ obj s', createClientState.run s = (.ok (.values [some (.table obj)]), s') ∧
      ∀ ops : List StateOp, Stands obj s' ops (StateOp.lastSet .disconnected ops) ↔
        ∃ X, ops.find? (fun op => op.sets.isSome) = some (.set X) := by
  obtain ⟨obj, cls, m, p, s', hrun, hready⟩ := ready_create s
  exact ⟨obj, s', hrun, hready.stands_iff⟩

/-- Right after `create` no predicate is true. -/
theorem clientState_without_value :
    ¬ ∀ (s : Tables ℤ) (obj : Ref) (s' : Tables ℤ),
      createClientState.run s = (.ok (.values [some (.table obj)]), s') →
      ∀ ops : List StateOp, Stands obj s' ops (StateOp.lastSet .disconnected ops) := by
  intro h
  obtain ⟨obj, cls, m, p, s', hrun, hready⟩ := ready_create []
  obtain ⟨X, hX⟩ := (hready.stands_iff []).1 (h [] obj s' hrun [])
  cases hX

end Script

end SockTestProgram
