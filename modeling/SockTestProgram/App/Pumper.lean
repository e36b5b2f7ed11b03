import SockTestProgram.App.Dispatcher
import SockTestProgram.Io.StreamBuffer

/-!
# The message pump

The rules of `app/Pumper.lua` and the two functions that C++ calls.  The identifiers of the
protocols (`Proto.toID`) and `protobuf.decode` are parameters.
-/

namespace SockTestProgram

/-- The names of `app/model/NetEvent/Events.lua`. -/
def ModelEvent.disconnectedFromServer : String := "Model.Net.DisconnectedFromServer"
def ModelEvent.directoryConnected : String := "Model.Net.DirectoryConnected"
def ModelEvent.worldConnected : String := "Model.Net.WorldConnected"
def ModelEvent.worldListNotify : String := "Model.Net.WorldListNotify"
def ModelEvent.directoryRegisterUserNotify : String := "Model.Net.DirectoryRegisterUserNotify"
def ModelEvent.loginNotify : String := "Model.Net.WorldLoginNotify"
def ModelEvent.createPlayerNotify : String := "Model.Net.CreatePlayerNotify"

structure Rule where
  typeCode : ℤ
  proto : String
  event : String
  deriving DecidableEq, Repr

def makeRule (toID : String → ℤ) (protoName eventName : String) : Rule where
  typeCode := toID protoName
  proto := protoName
  event := eventName

def distributeRules (toID : String → ℤ) : List Rule :=
  [makeRule toID "ResponseWorldList" ModelEvent.worldListNotify,
    makeRule toID "ResponseUserRegister" ModelEvent.directoryRegisterUserNotify,
    makeRule toID "ResponseLogin" ModelEvent.loginNotify,
    makeRule toID "ResponseCreatePlayer" ModelEvent.createPlayerNotify]

/-- What `protobuf.decode` does: it returns a message or `false`, or raises an error. -/
inductive Decoded (μ : Type)
  | message (m : μ)
  | false
  | error
  deriving DecidableEq, Repr

variable {η μ : Type}

/-- The loop of `redirectNetBuffer`; the flag tells that it raised an error. -/
def redirectLoop (decode : String → Bytes → Decoded μ) (typecode : ℤ) (buffer : Bytes) :
    List Rule → EventDispatcher String η μ → EventDispatcher String η μ × Bool
  | [], d => (d, false)
  | v :: rules, d =>
    if v.typeCode = typecode then
      match decode v.proto buffer with
      | .message m => redirectLoop decode typecode buffer rules (d.dispatch v.event [m])
      | .false => (d, true)
      | .error => (d, true)
    else redirectLoop decode typecode buffer rules d

def redirectNetBuffer (toID : String → ℤ) (decode : String → Bytes → Decoded μ) (typecode : ℤ)
    (buffer : Bytes) (d : EventDispatcher String η μ) : EventDispatcher String η μ × Bool :=
  redirectLoop decode typecode buffer (distributeRules toID) d

def serverConnectOn (serverEvent : String) (d : EventDispatcher String η μ) :
    EventDispatcher String η μ :=
  d.dispatch serverEvent []

/-! ## What a frame appends to the queue -/

/-- The event of a rule and its arguments, if the payload decodes. -/
def Rule.decoded (decode : String → Bytes → Decoded μ) (buffer : Bytes) (v : Rule) :
    Option (String × List μ) :=
  match decode v.proto buffer with
  | .message m => some (v.event, [m])
  | _ => none

/-- The event of a frame: that of the rule with its type code. -/
def eventOf (toID : String → ℤ) (decode : String → Bytes → Decoded μ) (typecode : ℤ)
    (buffer : Bytes) : Option (String × List μ) :=
  ((distributeRules toID).find? (·.typeCode = typecode)).bind (Rule.decoded decode buffer)

/-- At least one handler is registered for the event of each rule. -/
def Registered (toID : String → ℤ) (d : EventDispatcher String η μ) : Prop :=
  ∀ v ∈ distributeRules toID, ((d.handlers v.event).getD []).isEmpty = false

instance (toID : String → ℤ) (d : EventDispatcher String η μ) : Decidable (Registered toID d) :=
  inferInstanceAs (Decidable (∀ v ∈ distributeRules toID, _))

/-- Different rules have different type codes. -/
def DistinctTypeCodes (toID : String → ℤ) : Prop :=
  (distributeRules toID).Pairwise fun v w => v.typeCode ≠ w.typeCode

instance (toID : String → ℤ) : Decidable (DistinctTypeCodes toID) :=
  inferInstanceAs (Decidable (List.Pairwise _ _))

/-- The event and the arguments that a closure was dispatched with. -/
def Ev.dispatched (ev : Ev String η μ) : String × List μ := (ev.event, ev.more)

/-- Between `d` and `d'` these events are put in the queue, each for the handlers registered for it,
and nothing else happens. -/
structure Appends (d d' : EventDispatcher String η μ) (events : List (String × List μ)) : Prop where
  handlers : d'.handlers = d.handlers
  queue : ∃ new, d'.eventCache = d.eventCache ++ new ∧ new.map Ev.dispatched = events ∧
    ∀ ev ∈ new, d.handlers ev.event = some ev.t

theorem Appends.refl (d : EventDispatcher String η μ) : Appends d d [] :=
  ⟨rfl, [], by simp, rfl, by simp⟩

theorem Appends.registered {toID : String → ℤ} {d d' : EventDispatcher String η μ}
    {events : List (String × List μ)} (h : Appends d d' events) (hreg : Registered toID d) :
    Registered toID d' := by
  rw [Registered, h.handlers]
  exact hreg

/-- Dispatching an event that has handlers puts it in the queue. -/
theorem appends_dispatch (d : EventDispatcher String η μ) (event : String) (more : List μ) :
    Appends d (d.dispatch event more)
      (if (d.handlers event).isSome then [(event, more)] else []) := by
  cases hchain : d.handlers event with
  | none => exact ⟨by simp [EventDispatcher.dispatch, hchain],
      [], by simp [EventDispatcher.dispatch, hchain], by simp, by simp⟩
  | some chain =>
    refine ⟨by simp [EventDispatcher.dispatch, hchain], [⟨d.dispatched, event, more, chain⟩],
      by simp [EventDispatcher.dispatch, hchain], rfl, ?_⟩
    simp [hchain]

theorem redirectLoop_none {decode : String → Bytes → Decoded μ} {typecode : ℤ} {buffer : Bytes}
    {rules : List Rule} (h : ∀ v ∈ rules, v.typeCode ≠ typecode) (d : EventDispatcher String η μ) :
    redirectLoop decode typecode buffer rules d = (d, false) := by
  induction rules with
  | nil => rfl
  | cons v rules ih =>
    rw [redirectLoop, if_neg (h v (by simp))]
    exact ih fun w hw => h w (by simp [hw])

/-- The loop puts the event of the rule with the type code in the queue, if the payload decodes; an
error leaves the dispatcher as it was. -/
theorem appends_redirectLoop (decode : String → Bytes → Decoded μ) (typecode : ℤ) (buffer : Bytes)
    {rules : List Rule} (hdistinct : rules.Pairwise fun v w => v.typeCode ≠ w.typeCode)
    (d : EventDispatcher String η μ)
    (hreg : ∀ v ∈ rules, ((d.handlers v.event).getD []).isEmpty = false) :
    Appends d (redirectLoop decode typecode buffer rules d).1
      ((rules.find? (·.typeCode = typecode)).bind (Rule.decoded decode buffer)).toList := by
  induction rules with
  | nil => exact .refl d
  | cons v rules ih =>
    obtain ⟨hv, hrest⟩ := List.pairwise_cons.1 hdistinct
    by_cases hcode : v.typeCode = typecode
    · rw [redirectLoop, if_pos hcode, List.find?_cons_of_pos (by simpa using hcode),
        Option.bind_some, Rule.decoded]
      cases decode v.proto buffer with
      | message m =>
        -- no other rule has the type code
        simp only [redirectLoop_none fun w hw => (hcode ▸ hv w hw).symm]
        have hsome : (d.handlers v.event).isSome = true := by
          by_contra hnone
          have := hreg v (by simp)
          simp_all
        simpa [hsome] using appends_dispatch d v.event [m]
      | false => exact .refl d
      | error => exact .refl d
    · rw [redirectLoop, if_neg hcode, List.find?_cons_of_neg (by simpa using hcode)]
      exact ih hrest fun w hw => hreg w (by simp [hw])

theorem appends_redirectNetBuffer {toID : String → ℤ} (hdistinct : DistinctTypeCodes toID)
    (decode : String → Bytes → Decoded μ) (typecode : ℤ) (buffer : Bytes)
    {d : EventDispatcher String η μ} (hreg : Registered toID d) :
    Appends d (redirectNetBuffer toID decode typecode buffer d).1
      (eventOf toID decode typecode buffer).toList :=
  appends_redirectLoop decode typecode buffer hdistinct d hreg

end SockTestProgram
