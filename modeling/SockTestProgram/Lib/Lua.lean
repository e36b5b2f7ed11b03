import Mathlib.Data.List.AList

/-!
# Tables with metatables

The tables of Lua 5.1: a table holds entries with non-nil values and may have a metatable, whose
`__index` and `__newindex` are asked for keys that the table itself does not have.  Each of them is
a function or a table to go on with.  `gettable` and `settable` follow the handlers up to the point
where a function has to be called (as `luaV_gettable` and `luaV_settable`); what the functions do is
left to the program, which has codes `φ` for those in `__index` and `ψ` for those in `__newindex`.
-/

namespace Lua

/-- The address of a table. -/
abbrev Ref := ℕ

inductive Handler (φ : Type)
  | function (f : φ)
  | table (t : Ref)
  deriving DecidableEq, Repr

structure Metatable (φ ψ : Type) where
  index : Option (Handler φ)
  newindex : Option (Handler ψ)
  deriving DecidableEq, Repr

structure Table (κ ν φ ψ : Type) where
  entries : AList fun _ : κ => ν
  metatable : Option (Metatable φ ψ)

/-- All tables; an address is a position in the list. -/
abbrev Store (κ ν φ ψ : Type) := List (Table κ ν φ ψ)

/-- What a read comes to. -/
inductive Lookup (ν φ : Type)
  | value (v : Option ν)
  /-- `f` is called with the table `t` and the key. -/
  | call (f : φ) (t : Ref)
  /-- Too many handlers. -/
  | loop
  deriving DecidableEq, Repr

/-- What a write comes to. -/
inductive Assign (σ ψ : Type)
  | stored (s : σ)
  | call (f : ψ) (t : Ref)
  | loop

section Table

variable {κ ν φ ψ : Type} [DecidableEq κ]

/-- A table without metatable. -/
def Table.plain (entries : AList fun _ : κ => ν) : Table κ ν φ ψ := ⟨entries, none⟩

/-- Set an entry; `nil` removes it. -/
def Table.rawset (T : Table κ ν φ ψ) (k : κ) : Option ν → Table κ ν φ ψ
  | some v => { T with entries := T.entries.insert k v }
  | none => { T with entries := T.entries.erase k }

def Table.index (T : Table κ ν φ ψ) : Option (Handler φ) := T.metatable.bind Metatable.index

def Table.newindex (T : Table κ ν φ ψ) : Option (Handler ψ) := T.metatable.bind Metatable.newindex

theorem Table.lookup_rawset_self (T : Table κ ν φ ψ) (k : κ) (v : Option ν) :
    (T.rawset k v).entries.lookup k = v := by
  cases v with
  | none => exact AList.lookup_erase k _
  | some v => exact AList.lookup_insert _

theorem Table.lookup_rawset_ne (T : Table κ ν φ ψ) {k k' : κ} (h : k' ≠ k) (v : Option ν) :
    (T.rawset k v).entries.lookup k' = T.entries.lookup k' := by
  cases v with
  | none => exact AList.lookup_erase_ne h
  | some v => exact AList.lookup_insert_ne h

@[simp] theorem Table.metatable_rawset (T : Table κ ν φ ψ) (k : κ) (v : Option ν) :
    (T.rawset k v).metatable = T.metatable := by
  cases v <;> rfl

@[simp] theorem Table.index_rawset (T : Table κ ν φ ψ) (k : κ) (v : Option ν) :
    (T.rawset k v).index = T.index := by
  rw [Table.index, metatable_rawset, Table.index]

@[simp] theorem Table.newindex_rawset (T : Table κ ν φ ψ) (k : κ) (v : Option ν) :
    (T.rawset k v).newindex = T.newindex := by
  rw [Table.newindex, metatable_rawset, Table.newindex]

end Table

namespace Store

variable {κ ν φ ψ : Type} {s : Store κ ν φ ψ} {t t' : Ref} {T : Table κ ν φ ψ} {k : κ}

/-- A new table, and the store with it. -/
def newtable (s : Store κ ν φ ψ) (T : Table κ ν φ ψ) : Ref × Store κ ν φ ψ := (s.length, s ++ [T])

def setmetatable (s : Store κ ν φ ψ) (t : Ref) (mt : Metatable φ ψ) : Store κ ν φ ψ :=
  s.modify t fun T => { T with metatable := some mt }

theorem getElem?_append (s L : Store κ ν φ ψ) (T : Table κ ν φ ψ) :
    (s ++ T :: L)[s.length]? = some T := by
  simp

/-- A new table changes no other. -/
theorem getElem?_append_of_some (h : s[t]? = some T) (T' : Table κ ν φ ψ) :
    (s ++ [T'])[t]? = some T := by
  obtain ⟨hlt, -⟩ := List.getElem?_eq_some_iff.1 h
  rw [List.getElem?_append_left hlt, h]

theorem length_setmetatable (s : Store κ ν φ ψ) (t : Ref) (mt : Metatable φ ψ) :
    (s.setmetatable t mt).length = s.length :=
  List.length_modify _ _ _

theorem setmetatable_append (s L : Store κ ν φ ψ) (T : Table κ ν φ ψ) (mt : Metatable φ ψ) :
    (s ++ T :: L : Store κ ν φ ψ).setmetatable s.length mt =
      s ++ { T with metatable := some mt } :: L := by
  simp [setmetatable, List.modify_eq_take_drop]

theorem getElem?_setmetatable_self (h : s[t]? = some T) (mt : Metatable φ ψ) :
    (s.setmetatable t mt)[t]? = some { T with metatable := some mt } := by
  rw [setmetatable, List.getElem?_modify_eq, h]
  rfl

theorem getElem?_setmetatable_ne (h : t ≠ t') (mt : Metatable φ ψ) :
    (s.setmetatable t mt)[t']? = s[t']? :=
  List.getElem?_modify_ne _ _ h

variable [DecidableEq κ]

def rawget (s : Store κ ν φ ψ) (t : Ref) (k : κ) : Option ν :=
  s[t]?.bind fun T => T.entries.lookup k

def rawset (s : Store κ ν φ ψ) (t : Ref) (k : κ) (v : Option ν) : Store κ ν φ ψ :=
  s.modify t fun T => T.rawset k v

/-- `t[k]`, through at most `loop` tables. -/
def gettable (s : Store κ ν φ ψ) : ℕ → Ref → κ → Lookup ν φ
  | 0, _, _ => .loop
  | loop + 1, t, k =>
    match s.rawget t k with
    | some v => .value (some v)
    | none =>
      match s[t]?.bind Table.index with
      | none => .value none
      | some (.function f) => .call f t
      | some (.table t') => s.gettable loop t' k

/-- `t[k] = v`, through at most `loop` tables. -/
def settable (s : Store κ ν φ ψ) : ℕ → Ref → κ → Option ν → Assign (Store κ ν φ ψ) ψ
  | 0, _, _, _ => .loop
  | loop + 1, t, k, v =>
    match s.rawget t k with
    | some _ => .stored (s.rawset t k v)
    | none =>
      match s[t]?.bind Table.newindex with
      | none => .stored (s.rawset t k v)
      | some (.function f) => .call f t
      | some (.table t') => s.settable loop t' k v

/-! ## What a table contains -/

theorem rawget_eq (h : s[t]? = some T) (k : κ) : s.rawget t k = T.entries.lookup k := by
  rw [rawget, h, Option.bind_some]

theorem getElem?_rawset_self (h : s[t]? = some T) (k : κ) (v : Option ν) :
    (s.rawset t k v)[t]? = some (T.rawset k v) := by
  rw [rawset, List.getElem?_modify_eq, h]
  rfl

theorem rawset_append (s L : Store κ ν φ ψ) (T : Table κ ν φ ψ) (k : κ) (v : Option ν) :
    (s ++ T :: L : Store κ ν φ ψ).rawset s.length k v = s ++ T.rawset k v :: L := by
  simp [rawset, List.modify_eq_take_drop]

theorem getElem?_rawset_ne (h : t ≠ t') (k : κ) (v : Option ν) :
    (s.rawset t k v)[t']? = s[t']? :=
  List.getElem?_modify_ne _ _ h

/-! ## Reads -/

/-- A key of the table itself. -/
theorem gettable_of_mem (h : s[t]? = some T) {v : ν} (hv : T.entries.lookup k = some v) (loop : ℕ) :
    s.gettable (loop + 1) t k = .value (some v) := by
  rw [gettable, rawget_eq h, hv]

theorem gettable_of_no_index (h : s[t]? = some T) (hk : T.entries.lookup k = none)
    (hi : T.index = none) (loop : ℕ) : s.gettable (loop + 1) t k = .value none := by
  rw [gettable, rawget_eq h, hk, h, Option.bind_some, hi]

theorem gettable_of_function (h : s[t]? = some T) (hk : T.entries.lookup k = none) {f : φ}
    (hi : T.index = some (.function f)) (loop : ℕ) : s.gettable (loop + 1) t k = .call f t := by
  rw [gettable, rawget_eq h, hk, h, Option.bind_some, hi]

/-- A key that is looked up in the next table. -/
theorem gettable_of_table (h : s[t]? = some T) (hk : T.entries.lookup k = none)
    (hi : T.index = some (.table t')) (loop : ℕ) :
    s.gettable (loop + 1) t k = s.gettable loop t' k := by
  rw [gettable, rawget_eq h, hk, h, Option.bind_some, hi]

/-! ## Writes -/

/-- A key that the table has is overwritten, whatever the metatable says. -/
theorem settable_of_mem (h : s[t]? = some T) {v : ν} (hv : T.entries.lookup k = some v) (loop : ℕ)
    (v' : Option ν) : s.settable (loop + 1) t k v' = .stored (s.rawset t k v') := by
  rw [settable, rawget_eq h, hv]

theorem settable_of_no_newindex (h : s[t]? = some T) (hi : T.newindex = none) (loop : ℕ)
    (v : Option ν) : s.settable (loop + 1) t k v = .stored (s.rawset t k v) := by
  rw [settable, h, Option.bind_some, hi]
  cases s.rawget t k <;> rfl

theorem settable_of_function (h : s[t]? = some T) (hk : T.entries.lookup k = none) {f : ψ}
    (hi : T.newindex = some (.function f)) (loop : ℕ) (v : Option ν) :
    s.settable (loop + 1) t k v = .call f t := by
  rw [settable, rawget_eq h, hk, h, Option.bind_some, hi]

end Store

/-! ## Programs -/

/-- A computation on a state that may raise an error.  An error undoes nothing. -/
structure Eval (σ ε α : Type) where
  run : σ → Except ε α × σ

namespace Eval

variable {σ ε α β : Type} {s s' : σ}

instance : Monad (Eval σ ε) where
  pure a := ⟨fun s => (.ok a, s)⟩
  bind x f := ⟨fun s =>
    match x.run s with
    | (.ok a, s) => (f a).run s
    | (.error e, s) => (.error e, s)⟩

/-- `error` -/
def raise (e : ε) : Eval σ ε α := ⟨fun s => (.error e, s)⟩

def get : Eval σ ε σ := ⟨fun s => (.ok s, s)⟩

def set (s : σ) : Eval σ ε Unit := ⟨fun _ => (.ok (), s)⟩

@[simp] theorem run_pure (a : α) (s : σ) : (pure a : Eval σ ε α).run s = (.ok a, s) := rfl

@[simp] theorem run_raise (e : ε) (s : σ) : (raise e : Eval σ ε α).run s = (.error e, s) := rfl

@[simp] theorem run_get_bind (f : σ → Eval σ ε β) (s : σ) : (get >>= f).run s = (f s).run s := rfl

@[simp] theorem run_set (s s' : σ) : (set s' : Eval σ ε Unit).run s = (.ok (), s') := rfl

theorem run_bind_of_ok {x : Eval σ ε α} {a : α} (h : x.run s = (.ok a, s')) (f : α → Eval σ ε β) :
    (x >>= f).run s = (f a).run s' := by
  show (match x.run s with
    | (.ok a, s) => (f a).run s
    | (.error e, s) => (.error e, s)) = _
  rw [h]

theorem run_bind_of_error {x : Eval σ ε α} {e : ε} (h : x.run s = (.error e, s'))
    (f : α → Eval σ ε β) : (x >>= f).run s = (.error e, s') := by
  show (match x.run s with
    | (.ok a, s) => (f a).run s
    | (.error e, s) => (.error e, s)) = _
  rw [h]

end Eval

end Lua
