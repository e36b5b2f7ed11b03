import SockTestProgram.Io.StreamBuffer
import SockTestProgram.Lib.Lua

/-!
# Objects made of tables

The Lua files whose objects work through metatables: `app/libs/ReadOnly.lua`,
`app/libs/ValueMaster.lua`, `app/model/ClientState.lua`, and `class` of `app/libs/functions.lua` for
a class without super classes.  Every function that they create is a constructor of `Closure` (or of
`IndexFunction` and `NewindexFunction`, if it is created for a metatable), with the variables that
it captures.  `κ` is the type of the constants: numbers, strings and whatever else is compared by
value.  `none` is `nil`.
-/

open Lua

namespace SockTestProgram

namespace Script

abbrev Key := Bytes

/-- A string of ASCII characters. -/
def key (s : String) : Key := s.toList.map fun c => UInt8.ofNat c.toNat

inductive Closure
  /-- `ro.iter` of `ReadOnly` -/
  | iter (o : Ref)
  /-- `proto.setValue` of `ValueMaster` -/
  | setValue
  /-- the `sf` of `ValueMaster` for a key that begins with `is` -/
  | isField (m : Ref) (field : Key)
  /-- the `sf` of `ValueMaster` for a key that begins with `set` -/
  | setField (m : Ref) (field : Key)
  /-- `cls.ctor` of `class` -/
  | defaultCtor
  /-- `cls.new` -/
  | new (cls : Ref)
  /-- `cls.create` -/
  | create (cls : Ref)
  /-- `ClientState:ctor` -/
  | ctor (clientState cltState : Ref)
  /-- `ClientState:GetState` -/
  | getState
  deriving DecidableEq, Repr

inductive Value (κ : Type)
  | boolean (b : Bool)
  | constant (c : κ)
  | table (t : Ref)
  | function (f : Closure)
  deriving DecidableEq, Repr

/-- The functions in `__index`. -/
inductive IndexFunction
  /-- of `ReadOnly` -/
  | cannotAccess
  /-- of `ValueMaster` -/
  | accessor (m : Ref)
  deriving DecidableEq, Repr

/-- The functions in `__newindex`. -/
inductive NewindexFunction
  /-- of `ReadOnly` -/
  | cannotWrite
  /-- of `ValueMaster` -/
  | writeOnly
  deriving DecidableEq, Repr

/-- The errors. -/
inductive Raised (κ : Type)
  /-- `"Cannot access to :"..tostring(k)` -/
  | cannotAccessTo (k : Key)
  /-- `"Cannot write to read-only table with "..tostring(k)..":"..tostring(v)` -/
  | cannotWrite (k : Key) (v : Option (Value κ))
  /-- `"Cannot access to "..k` -/
  | cannotAccess (k : Key)
  /-- `"Write only table:writing to "..k.." with value:"..tostring(v)` -/
  | writeOnly (k : Key) (v : Option (Value κ))
  /-- `"Must be empty"` -/
  | mustBeEmpty
  /-- `"No state ?? Client-State"` -/
  | noState
  /-- a call or an index of a value that is no function or no table -/
  | typeError
  /-- `"loop in gettable"` or `"loop in settable"` -/
  | loop
  | stackOverflow
  deriving DecidableEq, Repr

/-- A table of the program. -/
abbrev Object (κ : Type) := Table Key (Value κ) IndexFunction NewindexFunction

abbrev Tables (κ : Type) := Store Key (Value κ) IndexFunction NewindexFunction

abbrev Entries (κ : Type) := AList fun _ : Key => Value κ

end Script

/-- What a piece of a script does. -/
abbrev Script (κ α : Type) := Eval (Script.Tables κ) (Script.Raised κ) α

namespace Script

variable {κ : Type}

/-- `MAXTAGLOOP` -/
def maxTagLoop : ℕ := 100

/-- `LUAI_MAXCCALLS`: how deep the functions of metatables may call one another. -/
def maxCCalls : ℕ := 200

/-- `LUAI_MAXCALLS`: how deep Lua functions may call one another. -/
def maxCalls : ℕ := 20000

/-! ## Reading and writing fields -/

def newtable (entries : Entries κ) : Script κ Ref where
  run s := (.ok (s.newtable (.plain entries)).1, (s.newtable (.plain entries)).2)

def setmetatable (t : Ref) (mt : Metatable IndexFunction NewindexFunction) : Script κ Unit where
  run s := (.ok (), s.setmetatable t mt)

def rawget (t : Ref) (k : Key) : Script κ (Option (Value κ)) where
  run s := (.ok (s.rawget t k), s)

def rawset (t : Ref) (k : Key) (v : Option (Value κ)) : Script κ Unit where
  run s := (.ok (), s.rawset t k v)

/-- The condition of `ValueMaster` on a key, where `start` is `is` or `set`:
`k:sub(1, #start) == start and k:len() > #start and m[k:sub(#start + 1)] ~= nil`. -/
def names (look : Ref → Key → Script κ (Option (Value κ))) (m : Ref) (start k : Key) :
    Script κ Bool :=
  if k.take start.length = start ∧ start.length < k.length then do
    let v ← look m (k.drop start.length)
    pure v.isSome
  else pure false

/-- `rawset(self, k, sf)` and `return sf` -/
def synthesise (self : Ref) (k : Key) (sf : Closure) : Script κ (Option (Value κ)) := do
  rawset self k (some (.function sf))
  pure (some (.function sf))

/-- The `__index` of `ValueMaster`; `look` reads a field of a table. -/
def accessor (look : Ref → Key → Script κ (Option (Value κ))) (m self : Ref) (k : Key) :
    Script κ (Option (Value κ)) := do
  let is ← names look m (key "is") k
  if is then synthesise self k (.isField m (k.drop 2))
  else
    let set ← names look m (key "set") k
    if set then synthesise self k (.setField m (k.drop 3))
    else Eval.raise (.cannotAccess k)

/-- The functions in `__index`. -/
def IndexFunction.call (look : Ref → Key → Script κ (Option (Value κ))) (self : Ref) (k : Key) :
    IndexFunction → Script κ (Option (Value κ))
  | .cannotAccess => Eval.raise (.cannotAccessTo k)
  | .accessor m => Script.accessor look m self k

/-- `t[k]`, where `handle` calls the functions in `__index`. -/
def lookup (handle : IndexFunction → Ref → Script κ (Option (Value κ))) (t : Ref) (k : Key) :
    Script κ (Option (Value κ)) := do
  let s ← Eval.get
  match s.gettable maxTagLoop t k with
  | .value v => pure v
  | .call f self => handle f self
  | .loop => Eval.raise .loop

/-- `t[k]`, when functions of metatables may call one another `depth` deep. -/
def indexAt : ℕ → Ref → Key → Script κ (Option (Value κ))
  | 0, t, k => lookup (fun _ _ => Eval.raise .stackOverflow) t k
  | depth + 1, t, k => lookup (fun f self => f.call (indexAt depth) self k) t k

/-- `t[k]` -/
def index (t : Ref) (k : Key) : Script κ (Option (Value κ)) := indexAt maxCCalls t k

/-- `t[k] = v` -/
def setindex (t : Ref) (k : Key) (v : Option (Value κ)) : Script κ Unit := do
  let s ← Eval.get
  match s.settable maxTagLoop t k v with
  | .stored s => Eval.set s
  | .call .cannotWrite _ => Eval.raise (.cannotWrite k v)
  | .call .writeOnly _ => Eval.raise (.writeOnly k v)
  | .loop => Eval.raise .loop

/-! ## The library functions -/

/-- `_ReadOnly(o)` -/
def readOnly (o : Ref) : Script κ Ref := do
  setmetatable o ⟨some (.function .cannotAccess), none⟩
  let ro ← newtable ∅
  setindex ro (key "iter") (some (.function (.iter o)))
  setmetatable ro ⟨some (.table o), some (.function .cannotWrite)⟩
  pure ro

/-- `_CreateValueMaster(m, proto)` -/
def createValueMaster (m proto : Ref) : Script κ Ref := do
  let v ← index proto (key "setValue")
  if v.isSome then Eval.raise .mustBeEmpty
  else
    setindex proto (key "setValue") (some (.function .setValue))
    setmetatable proto ⟨some (.function (.accessor m)), some (.function .writeOnly)⟩
    pure proto

/-- The table `{k = v}`. -/
def field (k : Key) : Option (Value κ) → Entries κ
  | some v => AList.singleton k v
  | none => ∅

/-- `_CreateValueMaster(m, {_value = v})` -/
def newMaster (m : Ref) (v : Option (Value κ)) : Script κ Ref := do
  let proto ← newtable (field (key "_value") v)
  createValueMaster m proto

/-- `class(classname)`.  Nothing reads `__cname`, which is left out; without super classes
`cls.__create` is nil, so that `cls.new` starts from an empty table. -/
def createClass : Script κ Ref := do
  let cls ← newtable ∅
  setindex cls (key "__index") (some (.table cls))
  -- `cls.super` is nil, and the metatable is empty
  setmetatable cls ⟨none, none⟩
  -- so is `cls.ctor`
  setindex cls (key "ctor") (some (.function .defaultCtor))
  setindex cls (key "new") (some (.function (.new cls)))
  setindex cls (key "create") (some (.function (.create cls)))
  pure cls

/-! ## Calls -/

/-- What a function returns. -/
inductive Results (κ : Type)
  | values (vs : List (Option (Value κ)))
  /-- `next, o, nil`, which a `for` loop turns into the entries of `o` -/
  | iterator (o : Ref)
  deriving DecidableEq, Repr

/-- `v:method(arg)`, where the field `method` of the table `v` has the value `f`. -/
def invoke (call : Closure → Ref → Option (Value κ) → Script κ (Results κ))
    (f : Option (Value κ)) (self : Ref) (arg : Option (Value κ)) : Script κ (Results κ) :=
  match f with
  | some (.function f) => call f self arg
  | _ => Eval.raise .typeError

/-- The functions, with their first two arguments; `call` calls another function. -/
def Closure.body [DecidableEq κ] (call : Closure → Ref → Option (Value κ) → Script κ (Results κ))
    (self : Ref) (arg : Option (Value κ)) : Closure → Script κ (Results κ)
  | .iter o => pure (.iterator o)
  | .setValue => do
    setindex self (key "_value") arg
    pure (.values [])
  | .isField m field => do
    let v ← rawget self (key "_value")
    let c ← index m field
    pure (.values [some (.boolean (decide (v = c)))])
  | .setField m field => do
    let c ← index m field
    rawset self (key "_value") c
    pure (.values [some (.table self)])
  | .defaultCtor => pure (.values [])
  | .new cls => do
    let instance_ ← newtable ∅
    setmetatable instance_ ⟨some (.table cls), none⟩
    setindex instance_ (key "class") (some (.table cls))
    let ctor ← index instance_ (key "ctor")
    let _ ← invoke call ctor instance_ none
    pure (.values [some (.table instance_)])
  | .create cls => do
    let new ← index cls (key "new")
    invoke call new cls none
  | .ctor clientState cltState => do
    let v ← index clientState (key "Disconnected")
    let master ← newMaster cltState v
    setindex self (key "_state") (some (.table master))
    pure (.values [])
  | .getState => do
    let v ← index self (key "_state")
    match v with
    | none | some (.boolean false) => Eval.raise .noState
    | some v => pure (.values [some v])

/-- Calls of functions, `calls` deep. -/
def callAt [DecidableEq κ] : ℕ → Closure → Ref → Option (Value κ) → Script κ (Results κ)
  | 0, _, _, _ => Eval.raise .stackOverflow
  | calls + 1, f, self, arg => f.body (callAt calls) self arg

def call [DecidableEq κ] (f : Closure) (self : Ref) (arg : Option (Value κ)) :
    Script κ (Results κ) :=
  callAt maxCalls f self arg

theorem callAt_succ [DecidableEq κ] (calls : ℕ) (f : Closure) (self : Ref)
    (arg : Option (Value κ)) :
    callAt (calls + 1) f self arg = f.body (callAt calls) self arg := rfl

theorem call_eq [DecidableEq κ] (f : Closure) (self : Ref) (arg : Option (Value κ)) :
    call f self arg = f.body (callAt (maxCalls - 1)) self arg := rfl

/-- `self:k(arg)` -/
def method [DecidableEq κ] (self : Ref) (k : Key) (arg : Option (Value κ)) :
    Script κ (Results κ) := do
  let f ← index self k
  invoke call f self arg

/-! ## `ClientState.lua` -/

/-- The table that `CltState` wraps. -/
def cltStates : Entries ℤ :=
  ((AList.singleton (key "Disconnected") (.constant 1)).insert (key "Connecting")
    (.constant 2)).insert
    (key "Connected") (.constant 3)

/-- The module `ClientState.lua`; the result is the class. -/
def clientStateModule : Script ℤ Ref := do
  let clientState ← createClass
  let states ← newtable cltStates
  let cltState ← readOnly states
  setindex clientState (key "ctor") (some (.function (.ctor clientState cltState)))
  setindex clientState (key "GetState") (some (.function .getState))
  pure clientState

/-! ## What reads and writes come to -/

section

variable {s : Tables κ} {t self : Ref} {k : Key} {v : Option (Value κ)}
  {T : Object κ}

theorem lookup_of_value {handle : IndexFunction → Ref → Script κ (Option (Value κ))}
    (h : s.gettable maxTagLoop t k = .value v) : (lookup handle t k).run s = (.ok v, s) := by
  rw [lookup, Eval.run_get_bind, h]
  exact Eval.run_pure v s

theorem lookup_of_call {handle : IndexFunction → Ref → Script κ (Option (Value κ))}
    {f : IndexFunction} (h : s.gettable maxTagLoop t k = .call f self) :
    (lookup handle t k).run s = (handle f self).run s := by
  rw [lookup, Eval.run_get_bind, h]

theorem indexAt_of_value (h : s.gettable maxTagLoop t k = .value v) (depth : ℕ) :
    (indexAt depth t k).run s = (.ok v, s) := by
  cases depth with
  | zero => exact lookup_of_value h
  | succ depth => exact lookup_of_value h

theorem indexAt_of_call {f : IndexFunction} (h : s.gettable maxTagLoop t k = .call f self)
    (depth : ℕ) : (indexAt (depth + 1) t k).run s =
      (f.call (indexAt depth) self k).run s :=
  lookup_of_call h

/-- A key that the table itself has. -/
theorem indexAt_of_mem (h : s[t]? = some T) {v : Value κ} (hv : T.entries.lookup k = some v)
    (depth : ℕ) : (indexAt depth t k).run s = (.ok (some v), s) :=
  indexAt_of_value (Store.gettable_of_mem h hv _) depth

theorem index_of_mem (h : s[t]? = some T) {v : Value κ} (hv : T.entries.lookup k = some v) :
    (index t k).run s = (.ok (some v), s) :=
  indexAt_of_mem h hv _

/-- A key that a table without `__index` does not have. -/
theorem indexAt_of_no_index (h : s[t]? = some T) (hk : T.entries.lookup k = none)
    (hi : T.index = none) (depth : ℕ) : (indexAt depth t k).run s = (.ok none, s) :=
  indexAt_of_value (Store.gettable_of_no_index h hk hi _) depth

theorem setindex_of_stored {s' : Tables κ} (h : s.settable maxTagLoop t k v = .stored s') :
    (setindex t k v).run s = (.ok (), s') := by
  rw [setindex, Eval.run_get_bind, h]
  exact Eval.run_set s s'

theorem setindex_of_mem (h : s[t]? = some T) {v' : Value κ} (hv : T.entries.lookup k = some v') :
    (setindex t k v).run s = (.ok (), s.rawset t k v) :=
  setindex_of_stored (Store.settable_of_mem h hv _ v)

theorem setindex_of_no_newindex (h : s[t]? = some T) (hi : T.newindex = none) :
    (setindex t k v).run s = (.ok (), s.rawset t k v) :=
  setindex_of_stored (Store.settable_of_no_newindex h hi _ v)

/-! New tables are added at the end of the store. -/

theorem run_newtable (s : Tables κ) (entries : Entries κ) :
    (newtable entries).run s = (.ok s.length, s ++ [.plain entries]) := rfl

theorem run_setmetatable (s : Tables κ) (t : Ref) (mt : Metatable IndexFunction NewindexFunction) :
    (setmetatable t mt).run s = (.ok (), s.setmetatable t mt) := rfl

theorem setmetatable_append (s L : Tables κ) (T : Object κ)
    (mt : Metatable IndexFunction NewindexFunction) :
    (setmetatable s.length mt).run (s ++ T :: L) =
      (.ok (), s ++ { T with metatable := some mt } :: L) := by
  rw [run_setmetatable, Store.setmetatable_append]

theorem setindex_append (hi : T.newindex = none) (s L : Tables κ) (k : Key)
    (v : Option (Value κ)) :
    (setindex s.length k v).run (s ++ T :: L) = (.ok (), s ++ T.rawset k v :: L) := by
  rw [setindex_of_no_newindex (Store.getElem?_append s L T) hi, Store.rawset_append]

/-- A key that the table does not have goes to its `__newindex`, which always raises. -/
theorem setindex_of_function (h : s[t]? = some T) (hk : T.entries.lookup k = none)
    {f : NewindexFunction} (hi : T.newindex = some (.function f)) :
    ∃ e, (setindex t k v).run s = (.error e, s) := by
  rw [setindex, Eval.run_get_bind, maxTagLoop, Store.settable_of_function h hk hi]
  cases f with
  | cannotWrite => exact ⟨_, Eval.run_raise _ s⟩
  | writeOnly => exact ⟨_, Eval.run_raise _ s⟩

end

end Script

end SockTestProgram
