import SockTestProgram.App.Objects
import SockTestProgram.Lib.Run

/-!
# `ReadOnly`

The table that `_ReadOnly(o)` returns has one entry of its own, `iter`; every other key goes through
its metatable: reads on to `o`, whose metatable raises for the keys that `o` does not have, writes
to a function that raises.  Lua asks `__newindex` only for absent keys, so that `iter` itself can be
overwritten, and a key `iter` of `o` is never reached (`readOnly_right_iff`).
-/

open Lua Lts

namespace SockTestProgram

namespace Script

variable {κ : Type} {s : Tables κ} {o ro : Ref} {E : Entries κ} {k : Key}

/-- The table `o` after `_ReadOnly(o)`. -/
def guarded (E : Entries κ) : Object κ :=
  ⟨E, some ⟨some (.function .cannotAccess), none⟩⟩

/-- The table that `_ReadOnly(o)` returns. -/
def proxy (o : Ref) : Object κ :=
  ⟨AList.singleton (key "iter") (.function (.iter o)),
    some ⟨some (.table o), some (.function .cannotWrite)⟩⟩

/-- `ro` is a read-only table over the entries `E`, which are in the table `o`. -/
structure Proxied (s : Tables κ) (o ro : Ref) (E : Entries κ) : Prop where
  guarded : s[o]? = some (guarded E)
  proxy : s[ro]? = some (proxy o)

theorem lookup_proxy_iter (o : Ref) :
    (proxy o : Object κ).entries.lookup (key "iter") = some (.function (.iter o)) := by
  rw [proxy, ← AList.insert_empty, AList.lookup_insert]

theorem lookup_proxy_ne (o : Ref) (h : k ≠ key "iter") :
    (proxy o : Object κ).entries.lookup k = none := by
  rw [proxy, ← AList.insert_empty, AList.lookup_insert_ne h, AList.lookup_empty]

/-- `_ReadOnly(o)` gives `o` a metatable and adds the proxy. -/
theorem run_readOnly (s : Tables κ) (o : Ref) :
    (readOnly o).run s = (.ok s.length,
      s.setmetatable o ⟨some (.function .cannotAccess), none⟩ ++ [proxy o]) := by
  have hlen := s.length_setmetatable o ⟨some (.function .cannotAccess), none⟩
  rw [readOnly, Eval.run_bind_of_ok (run_setmetatable _ _ _),
    Eval.run_bind_of_ok (run_newtable _ _), Eval.run_bind_of_ok (setindex_append rfl _ _ _ _),
    Eval.run_bind_of_ok (setmetatable_append _ _ _ _), Eval.run_pure, hlen]
  rfl

/-- What `_ReadOnly(o)` makes of the store; of the tables in it it changes only `o`. -/
theorem readOnly_spec {mt : Option (Metatable IndexFunction NewindexFunction)}
    (h : s[o]? = some ⟨E, mt⟩) :
    ∃ s', (readOnly o).run s = (.ok s.length, s') ∧ Proxied s' o s.length E ∧
      ∀ t ≠ o, ∀ T, s[t]? = some T → s'[t]? = some T := by
  have hlen := s.length_setmetatable o ⟨some (.function .cannotAccess), none⟩
  refine ⟨_, run_readOnly s o, ⟨?_, ?_⟩, fun t ht T hT => ?_⟩
  · exact Store.getElem?_append_of_some (Store.getElem?_setmetatable_self h _) _
  · rw [← hlen]
    exact Store.getElem?_append _ _ _
  · refine Store.getElem?_append_of_some ?_ _
    rw [Store.getElem?_setmetatable_ne ht.symm, hT]

/-! ## Reads and writes through the proxy -/

theorem Proxied.index_iter (h : Proxied s o ro E) (depth : ℕ) :
    (indexAt depth ro (key "iter")).run s = (.ok (some (.function (.iter o))), s) :=
  indexAt_of_mem h.proxy (lookup_proxy_iter o) depth

/-- A key of `o` other than `iter`. -/
theorem Proxied.index_of_mem (h : Proxied s o ro E) (hk : k ≠ key "iter") {v : Value κ}
    (hv : E.lookup k = some v) (depth : ℕ) : (indexAt depth ro k).run s = (.ok (some v), s) := by
  apply indexAt_of_value
  exact (Store.gettable_of_table h.proxy (lookup_proxy_ne o hk) rfl _).trans
    (Store.gettable_of_mem h.guarded hv _)

/-- A key that is in neither table. -/
theorem Proxied.index_of_notMem (h : Proxied s o ro E) (hk : k ≠ key "iter")
    (hv : E.lookup k = none) (depth : ℕ) :
    (indexAt (depth + 1) ro k).run s = (.error (.cannotAccessTo k), s) := by
  have hcall : s.gettable maxTagLoop ro k = .call .cannotAccess o :=
    (Store.gettable_of_table h.proxy (lookup_proxy_ne o hk) rfl _).trans
      (Store.gettable_of_function h.guarded hv rfl _)
  exact indexAt_of_call hcall depth

theorem Proxied.setindex_ne (h : Proxied s o ro E) (hk : k ≠ key "iter") (v : Option (Value κ)) :
    ∃ e, (setindex ro k v).run s = (.error e, s) :=
  setindex_of_function h.proxy (lookup_proxy_ne o hk) rfl

theorem Proxied.setindex_iter (h : Proxied s o ro E) (v : Option (Value κ)) :
    (setindex ro (key "iter") v).run s = (.ok (), s.rawset ro (key "iter") v) :=
  setindex_of_mem h.proxy (lookup_proxy_iter o)

/-! ## What a script can do with the proxy -/

/-- `for k, v in ro.iter() do`: the pairs that the loop visits. -/
def enumerate [DecidableEq κ] (ro : Ref) : Script κ (List (Sigma fun _ : Key => Value κ)) := do
  let f ← index ro (key "iter")
  -- `iter` has no parameters
  let r ← invoke call f ro none
  match r with
  | .iterator o => do
    let s ← Eval.get
    pure (s[o]?.elim [] fun T => T.entries.entries)
  | .values _ => Eval.raise .typeError

inductive ProxyOp (κ : Type)
  /-- `ro[k] = v` -/
  | assign (k : Key) (v : Option (Value κ))
  /-- `ro[k]` -/
  | read (k : Key)
  /-- a loop over `ro.iter()` -/
  | iter
  deriving DecidableEq

inductive ProxyAnswer (κ : Type)
  | assigned
  | value (v : Option (Value κ))
  | entries (l : List (Sigma fun _ : Key => Value κ))

namespace ProxyOp

def exec [DecidableEq κ] (ro : Ref) : ProxyOp κ → Script κ (ProxyAnswer κ)
  | .assign k v => do
    setindex ro k v
    pure .assigned
  | .read k => do
    let v ← index ro k
    pure (.value v)
  | .iter => do
    let l ← enumerate ro
    pure (.entries l)

/-- What a read-only table over `E` does in state `s`: an assignment raises and changes nothing,
a read returns the value in `E`, or raises if there is none, and `iter` enumerates `E`.  Nothing
is said of a read of the helper `iter`. -/
def Right (E : Entries κ) (s : Tables κ) (r : Except (Raised κ) (ProxyAnswer κ) × Tables κ) :
    ProxyOp κ → Prop
  | .assign _ _ => ∃ e, r = (.error e, s)
  | .read k => (∀ v, E.lookup k = some v → r.1 = .ok (.value (some v))) ∧
      (E.lookup k = none → k ≠ key "iter" → ∃ e, r.1 = .error e)
  | .iter => r.1 = .ok (.entries E.entries)

/-- The operation does not write `iter`, and does not read a key `iter` of `o`.  (The function
that the call of `_ReadOnly` creates is not in `o`.) -/
def Spares (o : Ref) (E : Entries κ) : ProxyOp κ → Prop
  | .assign k _ => k ≠ key "iter"
  | .read k => k = key "iter" → E.lookup k = none ∨ E.lookup k = some (.function (.iter o))
  | .iter => True

instance [DecidableEq κ] (o : Ref) (E : Entries κ) : ∀ op : ProxyOp κ, Decidable (op.Spares o E)
  | .assign k _ => inferInstanceAs (Decidable (k ≠ key "iter"))
  | .read k => inferInstanceAs (Decidable (k = key "iter" → E.lookup k = none ∨ E.lookup k = _))
  | .iter => isTrue trivial

/-- One operation; an error ends only the operation. -/
def step [DecidableEq κ] (ro : Ref) (s : Tables κ) (op : ProxyOp κ) : Option (Tables κ) :=
  some ((op.exec ro).run s).2

end ProxyOp

section

variable [DecidableEq κ]

theorem Proxied.exec_assign (h : Proxied s o ro E) (hk : k ≠ key "iter") (v : Option (Value κ)) :
    ∃ e, ((ProxyOp.assign k v).exec ro).run s = (.error e, s) := by
  obtain ⟨e, he⟩ := h.setindex_ne hk v
  exact ⟨e, Eval.run_bind_of_error he _⟩

/-- The helper can be overwritten. -/
theorem Proxied.exec_assign_iter (h : Proxied s o ro E) (v : Option (Value κ)) :
    ((ProxyOp.assign (key "iter") v).exec ro).run s =
      (.ok .assigned, s.rawset ro (key "iter") v) :=
  Eval.run_bind_of_ok (h.setindex_iter v) _

theorem Proxied.exec_read_iter (h : Proxied s o ro E) :
    ((ProxyOp.read (key "iter")).exec ro).run s =
      (.ok (.value (some (.function (.iter o)))), s) :=
  Eval.run_bind_of_ok (h.index_iter _) _

theorem Proxied.exec_read_of_mem (h : Proxied s o ro E) (hk : k ≠ key "iter") {v : Value κ}
    (hv : E.lookup k = some v) :
    ((ProxyOp.read k).exec ro).run s = (.ok (.value (some v)), s) :=
  Eval.run_bind_of_ok (h.index_of_mem hk hv _) _

theorem Proxied.exec_read_of_notMem (h : Proxied s o ro E) (hk : k ≠ key "iter")
    (hv : E.lookup k = none) :
    ((ProxyOp.read k).exec ro).run s = (.error (.cannotAccessTo k), s) :=
  Eval.run_bind_of_error (h.index_of_notMem hk hv _) _

theorem Proxied.exec_iter (h : Proxied s o ro E) :
    (ProxyOp.iter.exec ro).run s = (.ok (.entries E.entries), s) := by
  have henumerate : (enumerate ro).run s = (.ok E.entries, s) := by
    have hf : (index ro (key "iter")).run s = (.ok (some (.function (.iter o))), s) :=
      h.index_iter _
    have hcall : (invoke call (some (.function (.iter o))) ro none).run s =
        (.ok (.iterator o), s) := rfl
    rw [enumerate, Eval.run_bind_of_ok hf, Eval.run_bind_of_ok hcall, Eval.run_get_bind, h.guarded]
    rfl
  exact Eval.run_bind_of_ok henumerate _

/-- One operation does what it should exactly if it spares `iter`, and then it changes nothing. -/
theorem Proxied.right_iff (h : Proxied s o ro E) (op : ProxyOp κ) :
    (op.Right E s ((op.exec ro).run s) ↔ op.Spares o E) ∧
      (op.Spares o E → ((op.exec ro).run s).2 = s) := by
  cases op with
  | assign k v =>
    by_cases hk : k = key "iter"
    · subst hk
      rw [h.exec_assign_iter v]
      simp [ProxyOp.Right, ProxyOp.Spares]
    · obtain ⟨e, he⟩ := h.exec_assign hk v
      rw [he]
      simp [ProxyOp.Right, ProxyOp.Spares, hk]
  | read k =>
    by_cases hk : k = key "iter"
    · subst hk
      rw [h.exec_read_iter]
      simp only [ProxyOp.Right, ProxyOp.Spares]
      cases hE : E.lookup (key "iter") with
      | none => simp
      | some v => simp [eq_comm]
    · cases hE : E.lookup k with
      | none =>
        rw [h.exec_read_of_notMem hk hE]
        simp [ProxyOp.Right, ProxyOp.Spares, hE, hk]
      | some v =>
        rw [h.exec_read_of_mem hk hE]
        simp [ProxyOp.Right, ProxyOp.Spares, hE, hk]
  | iter =>
    rw [h.exec_iter]
    simp [ProxyOp.Right, ProxyOp.Spares]

/-- **When a read-only table is read-only.**  In a run of assignments, reads and loops over
`ro.iter()` every operation does what it should exactly if none of them writes `iter` or reads a
key `iter` of `o`. -/
theorem readOnly_right_iff {mt : Option (Metatable IndexFunction NewindexFunction)}
    (h : s[o]? = some ⟨E, mt⟩) (ops : List (ProxyOp κ)) :
    ∃ ro s', (readOnly o).run s = (.ok ro, s') ∧
      (AllSteps (ProxyOp.step ro) (fun s op => op.Right E s ((op.exec ro).run s)) s' ops ↔
        ∀ op ∈ ops, op.Spares o E) := by
  obtain ⟨s', hrun, hproxied, -⟩ := readOnly_spec h
  refine ⟨s.length, s', hrun, ?_⟩
  have hkeep (s₁ : Tables κ) (op : ProxyOp κ) (s₂ : Tables κ) (h₁ : Proxied s₁ o s.length E)
      (hop : op.Spares o E) (hstep : op.step s.length s₁ = some s₂) : Proxied s₂ o s.length E := by
    rw [ProxyOp.step, (h₁.right_iff op).2 hop, Option.some.injEq] at hstep
    exact hstep ▸ h₁
  exact (allSteps_congr hkeep (fun s₁ op h₁ => (h₁.right_iff op).1) hproxied).trans
    allSteps_iff_forall

/-- Two event names of the client: a name is read, a write to it and a misspelt name raise. -/
theorem readOnly_right_events :
    let E : Entries Bytes :=
      (AList.singleton (key "DirectoryConnected")
        (.constant (key "Model.Net.DirectoryConnected"))).insert
        (key "WorldConnected") (.constant (key "Model.Net.WorldConnected"))
    let ops : List (ProxyOp Bytes) := [.read (key "WorldConnected"),
      .assign (key "WorldConnected") none, .read (key "Worldconnected"), .iter]
    ∃ ro s', (readOnly 0).run [.plain E] = (.ok ro, s') ∧
      AllSteps (ProxyOp.step ro) (fun s op => op.Right E s ((op.exec ro).run s)) s' ops := by
  intro E ops
  obtain ⟨ro, s', hrun, hright⟩ := readOnly_right_iff (s := [.plain E]) (o := 0) rfl ops
  exact ⟨ro, s', hrun, hright.2 (by decide)⟩

/-- `ro.iter = 1` is no error, and `ro.iter()` is one from then on. -/
theorem readOnly_iter_overwritten :
    ¬ ∀ (s : Tables ℤ) (o : Ref) (E : Entries ℤ), s[o]? = some (.plain E) →
      ∀ (ops : List (ProxyOp ℤ)) (ro : Ref) (s' : Tables ℤ), (readOnly o).run s = (.ok ro, s') →
        AllSteps (ProxyOp.step ro) (fun s op => op.Right E s ((op.exec ro).run s)) s' ops := by
  intro h
  have hfalse := h [.plain ∅] 0 ∅ rfl [.assign (key "iter") (some (.constant 1)), .iter] 1 _ rfl
  obtain ⟨⟨e, he⟩, -⟩ := hfalse
  cases he

end

end Script

end SockTestProgram
