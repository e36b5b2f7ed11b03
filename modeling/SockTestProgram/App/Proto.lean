import SockTestProgram.Pbc.Register
import SockTestProgram.App.NetworkCmd

/-!
# `Proto.toID`

The identifiers of messages: `Proto.toID` of `app/Proto.lua`, which remembers what it has looked up,
over `get_enum_value` of pbc, and `MakeRule` of `app/Pumper.lua`.

A name without an enumerator gets the number -1, which Lua takes for true: it is remembered as an
identifier, and `or error` of `MakeRule` does not see it.  So in a run of registrations and lookups
the answers are right exactly if every lookup comes after the registration of its enumerator
(`answers_iff_found`).
-/

open Memo

namespace SockTestProgram

/-- The module `Proto`, with the environment of pbc. -/
structure ProtoModule where
  env : PbcEnv
  nameToIDTable : String → Option ℤ

/-- A registration, a call of `Proto.toID` or a call of `MakeRule`, where the name of the event
may be nil. -/
inductive ProtoCall
  | register (files : List FileDescriptor)
  | toID (name : String)
  | makeRule (protoName : String) (eventName : Option String)
  deriving Repr

/-- What a call returns. -/
inductive ProtoAnswer
  /-- whether the registration went well -/
  | registered (ok : Bool)
  /-- a number or nil -/
  | id (id : Option ℤ)
  /-- a rule, or an error -/
  | rule (rule : Option Rule)
  deriving DecidableEq, Repr

/-- The number of the enumerator `ID` of the enumeration `Type` of a message, if it is
registered. -/
def PbcEnv.typeID (p : PbcEnv) (name : String) : Option ℤ := p.enumerator (name ++ ".Type") "ID"

namespace ProtoModule

/-- Nothing looked up yet. -/
def start (p : PbcEnv) : ProtoModule := ⟨p, fun _ => none⟩

/-- `Proto.toID`; a number is never false. -/
def toID (s : ProtoModule) (name : String) : ProtoModule × Option ℤ :=
  match s.nameToIDTable name with
  | some id => (s, some id)
  | none =>
    let id := s.env.getEnumValue (name ++ ".Type") "ID"
    ({ s with nameToIDTable := Function.update s.nameToIDTable name (some id) }, some id)

/-- `MakeRule`; `none` where it raises an error. -/
def makeRule (s : ProtoModule) (protoName : String) : Option String → ProtoModule × Option Rule
  | none => (s, none)
  | some eventName =>
    match s.toID protoName with
    | (s', some id) => (s', some ⟨id, protoName, eventName⟩)
    | (s', none) => (s', none)

def call (s : ProtoModule) : ProtoCall → ProtoModule × ProtoAnswer
  | .register files => ({ s with env := (s.env.register files).1 },
      .registered (s.env.register files).2)
  | .toID name => ((s.toID name).1, .id (s.toID name).2)
  | .makeRule protoName eventName =>
    ((s.makeRule protoName eventName).1, .rule (s.makeRule protoName eventName).2)

/-- What the calls of a run return. -/
def answers : ProtoModule → List ProtoCall → List ProtoAnswer
  | _, [] => []
  | s, c :: calls => (s.call c).2 :: (s.call c).1.answers calls

end ProtoModule

/-! ## Lookup without a memory -/

namespace ProtoCall

/-- The answer that a call ought to get, from what is registered at the time: the number of the
enumerator, and nil or an error if there is none. -/
def expected (p : PbcEnv) : ProtoCall → ProtoAnswer
  | .register files => .registered (p.register files).2
  | .toID name => .id (p.typeID name)
  | .makeRule protoName eventName =>
    .rule (eventName.bind fun event => (p.typeID protoName).map fun id => ⟨id, protoName, event⟩)

/-- The environment after the call. -/
def envAfter (p : PbcEnv) : ProtoCall → PbcEnv
  | .register files => (p.register files).1
  | _ => p

/-- If the call looks up a name, its enumerator is registered. -/
def Found (p : PbcEnv) : ProtoCall → Prop
  | .register _ => True
  | .toID name => (p.typeID name).isSome = true
  | .makeRule protoName eventName => eventName.isSome = true → (p.typeID protoName).isSome = true

instance (p : PbcEnv) : DecidablePred (Found p)
  | .register _ => isTrue trivial
  | .toID name => inferInstanceAs (Decidable ((p.typeID name).isSome = true))
  | .makeRule _ _ => inferInstanceAs (Decidable (_ = true → _ = true))

end ProtoCall

namespace PbcEnv

/-- The answers that the calls of a run ought to get.  They depend on the registrations only, so
that no lookup can change the answer of another. -/
def expected : PbcEnv → List ProtoCall → List ProtoAnswer
  | _, [] => []
  | p, c :: calls => c.expected p :: (c.envAfter p).expected calls

/-- Whatever is looked up is registered at the time. -/
def AllFound : PbcEnv → List ProtoCall → Prop
  | _, [] => True
  | p, c :: calls => c.Found p ∧ (c.envAfter p).AllFound calls

instance decidableAllFound : ∀ (p : PbcEnv) (calls : List ProtoCall), Decidable (p.AllFound calls)
  | _, [] => isTrue trivial
  | p, c :: calls =>
    have := decidableAllFound (c.envAfter p) calls
    inferInstanceAs (Decidable (_ ∧ _))

theorem extends_typeID (p : PbcEnv) (files : List FileDescriptor) :
    Extends p.typeID (p.register files).1.typeID :=
  fun _ _ h => p.enumerator_register files h

end PbcEnv

namespace ProtoModule

variable {s : ProtoModule}

/-- Every identifier in the table is one of a registered enumerator. -/
def Memoized (s : ProtoModule) : Prop := Valid s.env.typeID s.nameToIDTable

theorem memoized_start (p : PbcEnv) : (start p).Memoized := valid_empty _

theorem toID_eq_lookup (s : ProtoModule) (name : String) :
    s.toID name =
      ({ s with nameToIDTable :=
          (lookup (fun n => s.env.getEnumValue (n ++ ".Type") "ID") s.nameToIDTable name).1 },
        some (lookup (fun n => s.env.getEnumValue (n ++ ".Type") "ID") s.nameToIDTable
          name).2) := by
  unfold toID lookup
  cases h : s.nameToIDTable name <;> rfl

theorem env_toID (s : ProtoModule) (name : String) : (s.toID name).1.env = s.env := by
  rw [toID_eq_lookup]

/-- A registered name gets its identifier. -/
theorem Memoized.toID_of_some (h : s.Memoized) {name : String} {id : ℤ}
    (hid : s.env.typeID name = some id) :
    (s.toID name).2 = some id ∧ (s.toID name).1.Memoized := by
  have hc : s.env.getEnumValue (name ++ ".Type") "ID" = id := by
    rw [PbcEnv.getEnumValue_eq]
    show (s.env.typeID name).getD (-1) = id
    rw [hid, Option.getD_some]
  obtain ⟨hval, hvalid⟩ :=
    Valid.lookup_of_some (c := fun n => s.env.getEnumValue (n ++ ".Type") "ID") h hid hc
  rw [toID_eq_lookup]
  exact ⟨congrArg some hval, hvalid⟩

/-- A name that is not registered gets a number too. -/
theorem Memoized.toID_of_none (h : s.Memoized) {name : String} (hid : s.env.typeID name = none) :
    (s.toID name).2 = some (-1) := by
  have hc : s.env.getEnumValue (name ++ ".Type") "ID" = -1 := by
    rw [PbcEnv.getEnumValue_eq]
    show (s.env.typeID name).getD (-1) = -1
    rw [hid, Option.getD_none]
  rw [toID_eq_lookup]
  exact congrArg some ((Valid.lookup_of_none h hid).trans hc)

theorem makeRule_some (s : ProtoModule) (protoName eventName : String) :
    s.makeRule protoName (some eventName) =
      ((s.toID protoName).1, (s.toID protoName).2.map fun id => ⟨id, protoName, eventName⟩) := by
  unfold makeRule
  cases h : s.toID protoName with
  | mk s' id => cases id <;> rfl

theorem env_call (s : ProtoModule) (c : ProtoCall) : (s.call c).1.env = c.envAfter s.env := by
  cases c with
  | register files => rfl
  | toID name => exact s.env_toID name
  | makeRule protoName eventName =>
    cases eventName with
    | none => rfl
    | some event =>
      show (s.makeRule protoName (some event)).1.env = s.env
      rw [makeRule_some]
      exact s.env_toID protoName

/-- A call that finds what it looks up gets the right answer. -/
theorem Memoized.call_of_found (h : s.Memoized) {c : ProtoCall} (hc : c.Found s.env) :
    (s.call c).2 = c.expected s.env ∧ (s.call c).1.Memoized := by
  cases c with
  | register files => exact ⟨rfl, h.extends (s.env.extends_typeID files)⟩
  | toID name =>
    obtain ⟨id, hid⟩ := Option.isSome_iff_exists.1 hc
    obtain ⟨hval, hmemo⟩ := h.toID_of_some hid
    refine ⟨?_, hmemo⟩
    show ProtoAnswer.id (s.toID name).2 = .id (s.env.typeID name)
    rw [hval, hid]
  | makeRule protoName eventName =>
    cases eventName with
    | none => exact ⟨rfl, h⟩
    | some event =>
      obtain ⟨id, hid⟩ := Option.isSome_iff_exists.1 (hc rfl)
      obtain ⟨hval, hmemo⟩ := h.toID_of_some hid
      simp only [call, makeRule_some, ProtoCall.expected, Option.bind_some, hval, hid]
      exact ⟨trivial, hmemo⟩

/-- A call that gets the right answer finds what it looks up. -/
theorem Memoized.found_of_call (h : s.Memoized) {c : ProtoCall}
    (hc : (s.call c).2 = c.expected s.env) : c.Found s.env := by
  by_contra hfound
  cases c with
  | register files => exact hfound trivial
  | toID name =>
    have hid : s.env.typeID name = none := by simpa [ProtoCall.Found] using hfound
    have hanswer : ProtoAnswer.id (s.toID name).2 = .id (s.env.typeID name) := hc
    rw [h.toID_of_none hid, hid] at hanswer
    simp at hanswer
  | makeRule protoName eventName =>
    cases eventName with
    | none => exact hfound (by simp [ProtoCall.Found])
    | some event =>
      have hid : s.env.typeID protoName = none := by simpa [ProtoCall.Found] using hfound
      simp [call, makeRule_some, ProtoCall.expected, h.toID_of_none hid, hid] at hc

theorem Memoized.answers_iff (h : s.Memoized) (calls : List ProtoCall) :
    s.answers calls = s.env.expected calls ↔ s.env.AllFound calls := by
  induction calls generalizing s with
  | nil => exact iff_of_true rfl trivial
  | cons c calls ih =>
    simp only [answers, PbcEnv.expected, PbcEnv.AllFound, List.cons.injEq]
    constructor
    · rintro ⟨hc, hrest⟩
      have hfound := h.found_of_call hc
      have hafter := ih (h.call_of_found hfound).2
      rw [s.env_call c] at hafter
      exact ⟨hfound, hafter.1 hrest⟩
    · rintro ⟨hfound, hrest⟩
      obtain ⟨hc, hmemo⟩ := h.call_of_found hfound
      have hafter := ih hmemo
      rw [s.env_call c] at hafter
      exact ⟨hc, hafter.2 hrest⟩

/-- **Lookup of identifiers.**  In a run of registrations and lookups every call returns what it
ought to return, exactly if every lookup finds its enumerator registered. -/
theorem answers_iff_found (p : PbcEnv) (calls : List ProtoCall) :
    (start p).answers calls = p.expected calls ↔ p.AllFound calls :=
  (memoized_start p).answers_iff calls

/-- A name that is looked up too early has the identifier -1, then and ever after, and its rule
has the type code -1. -/
theorem unknown_name_is_number :
    let nope : FileDescriptor := ⟨"nope.proto", "", [], [], [.mk "Nope" [⟨"Type", [("ID", 7)]⟩] []]⟩
    let calls : List ProtoCall :=
      [.toID "Nope", .register [nope], .toID "Nope", .makeRule "Nope" (some "Event")]
    (start .new).answers calls ≠ PbcEnv.new.expected calls ∧
      (start .new).answers calls = [.id (some (-1)), .registered true, .id (some (-1)),
        .rule (some ⟨-1, "Nope", "Event"⟩)] ∧
      PbcEnv.new.expected calls = [.id none, .registered true, .id (some 7),
        .rule (some ⟨7, "Nope", "Event"⟩)] := by
  decide +kernel

end ProtoModule

/-! ## The messages of the client -/

namespace Proto

/-- A message without nested messages whose type has an identifier. -/
def identified (name : String) (id : ℤ) : MessageDescriptor := .mk name [⟨"Type", [("ID", id)]⟩] []

/-- `ExceptionType` of `exceptiontype.pb` -/
def exceptionType : EnumDescriptor :=
  ⟨"ExceptionType", [("ET_OK", 0), ("ET_FAIL", 1), ("ET_ACCOUNT_ALREADY_EXSIT", 2),
    ("ET_NO_DATA", 3), ("ET_NOT_LOGIN", 4), ("ET_ALREADY_CREATE_PLAYER", 5)]⟩

/-- `_pbs`: `data.pb`, `exceptiontype.pb`, `cs_dir.pb` and `cs_world.pb`. -/
def pbs : List FileDescriptor :=
  [⟨"data.proto", "", [], [], [.mk "Data_WorldInfo" [] []]⟩,
    ⟨"exceptiontype.proto", "", [], [exceptionType], []⟩,
    ⟨"cs_dir.proto", "", ["data.proto", "exceptiontype.proto"], [],
      [identified "RequestWorldList" 1001, identified "RequestUserRegister" 1002,
        identified "ResponseWorldList" 101001, identified "ResponseUserRegister" 101002]⟩,
    ⟨"cs_world.proto", "", ["data.proto", "exceptiontype.proto"], [],
      [identified "RequestLogin" 2001, identified "RequestCreatePlayer" 2002,
        identified "ResponseLogin" 102001, identified "ResponseCreatePlayer" 102002]⟩]

/-- The names that `Proto.test` looks up. -/
def namesForTest : List String :=
  ["RequestWorldList", "RequestUserRegister", "ResponseWorldList", "ResponseUserRegister",
    "RequestLogin", "RequestCreatePlayer", "ResponseLogin", "ResponseCreatePlayer"]

/-- `Proto.__init`, then the rules of the message pump. -/
def loadCalls : List ProtoCall :=
  pbs.map (fun file => .register [file]) ++ namesForTest.map .toID ++
    [.makeRule "ResponseWorldList" (some ModelEvent.worldListNotify),
      .makeRule "ResponseUserRegister" (some ModelEvent.directoryRegisterUserNotify),
      .makeRule "ResponseLogin" (some ModelEvent.loginNotify),
      .makeRule "ResponseCreatePlayer" (some ModelEvent.createPlayerNotify)]

/-- When the program has been loaded, the identifiers and the rules are those that the other
modules work with. -/
theorem answers_load :
    (ProtoModule.start .new).answers loadCalls =
      List.replicate 4 (.registered true) ++ namesForTest.map
        (fun name => .id (some (toID name))) ++
        (distributeRules toID).map fun v => .rule (some v) := by
  decide +kernel

end Proto

end SockTestProgram
