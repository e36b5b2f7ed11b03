import Mathlib.Data.List.Basic
import Mathlib.Logic.Function.Basic

/-!
# `EventDispatcher`

The event dispatcher of `app/Dispatcher.lua`, for any type of events, of handlers and of arguments.
The code of the handlers is a parameter: given its arguments and the state of the rest of the
program (`ω`) a handler is a program (`Prog`) that calls the dispatcher finitely often, each call
depending on what the ones before it returned, and then returns or raises an error.

`check` gets a budget of iterations of its loop, since handlers may dispatch forever.
-/

namespace SockTestProgram

/-- The code of a handler.  A call of `removeHandler` goes on with whether it succeeded; code that
does not protect the call goes on with `raise` where it did not. -/
inductive Prog (ε η α ω : Type)
  | done (world : ω)
  | raise (world : ω)
  | addHandler (event : ε) (handler : η) (next : Prog ε η α ω)
  | removeHandler (event : ε) (handler : η) (next : Bool → Prog ε η α ω)
  | dispatch (event : ε) (more : List α) (next : Prog ε η α ω)

/-- The closure that `dispatch` puts in the queue: `t` is its copy of the chain.  The serial number
stands for the identity of the closure. -/
structure Ev (ε η α : Type) where
  serial : ℕ
  event : ε
  more : List α
  t : List η
  deriving DecidableEq, Repr

structure EventDispatcher (ε η α : Type) where
  handlers : ε → Option (List η)
  eventCache : List (Ev ε η α)
  /-- How many times `dispatch` was called. -/
  dispatched : ℕ

/-- The call of the handler at a place of the chain of a closure. -/
structure Call (ε η α : Type) where
  serial : ℕ
  place : ℕ
  event : ε
  more : List α
  handler : η
  deriving DecidableEq, Repr

/-- What happens at the dispatcher. -/
inductive Action (ε η α : Type)
  | added (event : ε) (handler : η)
  /-- `removeHandler` succeeded (`ok`) or raised its error -/
  | removed (event : ε) (handler : η) (ok : Bool)
  | dispatched (event : ε) (more : List α)
  | called (call : Call ε η α)
  deriving DecidableEq, Repr

/-- How a piece of code ended; `running` if its budget did not suffice. -/
inductive Ending
  | returned
  | raised
  | running
  deriving DecidableEq, Repr

/-- The dispatcher and the rest of the program after a piece of code, what the code did at the
dispatcher, and how it ended. -/
structure Outcome (ε η α ω : Type) where
  dispatcher : EventDispatcher ε η α
  log : List (Action ε η α)
  world : ω
  ending : Ending

variable {ε η α ω : Type} [DecidableEq ε] [DecidableEq η]

namespace EventDispatcher

/-- No handler was added yet. -/
def start : EventDispatcher ε η α := ⟨fun _ => none, [], 0⟩

def dispatch (d : EventDispatcher ε η α) (event : ε) (more : List α) : EventDispatcher ε η α :=
  match d.handlers event with
  | some chain =>
    { d with
      eventCache := d.eventCache ++ [⟨d.dispatched, event, more, chain⟩]
      dispatched := d.dispatched + 1 }
  | none => { d with dispatched := d.dispatched + 1 }

def addHandler (d : EventDispatcher ε η α) (event : ε) (handler : η) : EventDispatcher ε η α :=
  let h := (d.handlers event).getD []
  { d with handlers := Function.update d.handlers event (some (h ++ [handler])) }

/-- `removeHandler`; `none` where its assertion fails. -/
def removeHandler (d : EventDispatcher ε η α) (event : ε) (handler : η) :
    Option (EventDispatcher ε η α) :=
  match d.handlers event with
  | some chain =>
    match chain.idxOf? handler with
    | some index =>
      some { d with
        handlers := Function.update d.handlers event (some (chain.eraseIdx index)) }
    | none => none
  | none => none

end EventDispatcher

/-- The same outcome after one more action before it. -/
def Outcome.after (a : Action ε η α) (r : Outcome ε η α ω) : Outcome ε η α ω :=
  { r with log := a :: r.log }

/-- Run the code of a handler. -/
def Prog.exec : Prog ε η α ω → EventDispatcher ε η α → Outcome ε η α ω
  | .done world, d => ⟨d, [], world, .returned⟩
  | .raise world, d => ⟨d, [], world, .raised⟩
  | .addHandler event handler next, d =>
    (next.exec (d.addHandler event handler)).after (.added event handler)
  | .removeHandler event handler next, d =>
    match d.removeHandler event handler with
    | some d' => ((next true).exec d').after (.removed event handler true)
    | none => ((next false).exec d).after (.removed event handler false)
  | .dispatch event more next, d =>
    (next.exec (d.dispatch event more)).after (.dispatched event more)

section

variable (body : η → ε → List α → ω → Prog ε η α ω)

/-- The loop of a closure, from the handler at `place` on; an error of a handler ends it. -/
def callAll (ev : Ev ε η α) : ℕ → List η → EventDispatcher ε η α → ω → Outcome ε η α ω
  | _, [], d, world => ⟨d, [], world, .returned⟩
  | place, f :: fs, d, world =>
    let r := (body f ev.event ev.more world).exec d
    let call := Action.called ⟨ev.serial, place, ev.event, ev.more, f⟩
    match r.ending with
    | .returned =>
      let r' := callAll ev (place + 1) fs r.dispatcher r.world
      { r' with log := call :: (r.log ++ r'.log) }
    | _ => { r with log := call :: r.log }

/-- `ev()` -/
def Ev.run (ev : Ev ε η α) (d : EventDispatcher ε η α) (world : ω) : Outcome ε η α ω :=
  callAll body ev 0 ev.t d world

namespace EventDispatcher

/-- At most so many iterations of the loop of `check`. -/
def check : ℕ → EventDispatcher ε η α → ω → Outcome ε η α ω
  | 0, d, world => ⟨d, [], world, .running⟩
  | n + 1, d, world =>
    match d.eventCache with
    | [] => ⟨d, [], world, .returned⟩
    | now :: _ =>
      let r := now.run body d world
      match r.ending with
      | .returned =>
        let d' := { r.dispatcher with eventCache := r.dispatcher.eventCache.tail }
        let r' := check n d' r.world
        { r' with log := r.log ++ r'.log }
      | _ => r

end EventDispatcher

/-- A call from outside the handlers.  `check` is the frame of `GameCore::frameUpdate`, which
goes on after an error; its budget counts from 0. -/
inductive Op (ε η α ω : Type)
  | addHandler (event : ε) (handler : η)
  | removeHandler (event : ε) (handler : η)
  | dispatch (event : ε) (more : List α)
  | check (budget : ℕ)
  /-- the rest of the program goes on -/
  | world (world : ω)

/-- The dispatcher in a program. -/
structure Program (ε η α ω : Type) where
  dispatcher : EventDispatcher ε η α
  log : List (Action ε η α)
  world : ω
  /-- How the last `check` ended. -/
  ending : Ending

namespace Program

def start (world : ω) : Program ε η α ω := ⟨.start, [], world, .returned⟩

/-- One call; there is none while a `check` is running. -/
def step (m : Program ε η α ω) (op : Op ε η α ω) : Option (Program ε η α ω) :=
  if m.ending = .running then none
  else match op with
    | .addHandler event handler =>
      some { m with
        dispatcher := m.dispatcher.addHandler event handler
        log := m.log ++ [.added event handler] }
    | .removeHandler event handler =>
      match m.dispatcher.removeHandler event handler with
      | some d => some { m with dispatcher := d, log := m.log ++ [.removed event handler true] }
      | none => some { m with log := m.log ++ [.removed event handler false] }
    | .dispatch event more =>
      some { m with
        dispatcher := m.dispatcher.dispatch event more
        log := m.log ++ [.dispatched event more] }
    | .check budget =>
      let r := m.dispatcher.check body (budget + 1) m.world
      some ⟨r.dispatcher, m.log ++ r.log, r.world, r.ending⟩
    | .world world => some { m with world := world }

end Program

/-! ## What the handlers keep -/

variable {body} {I : ω → Prop}

theorem callAll_keeps (hbody : ∀ f event more world d, I world →
    I ((body f event more world).exec d).world) (ev : Ev ε η α) (fs : List η) (place : ℕ)
    (d : EventDispatcher ε η α) {world : ω} (h : I world) :
    I (callAll body ev place fs d world).world := by
  induction fs generalizing place d world with
  | nil => exact h
  | cons f fs ih =>
    have hf := hbody f ev.event ev.more world d h
    rw [callAll]
    cases hending : ((body f ev.event ev.more world).exec d).ending with
    | returned => simpa only [hending] using ih (place + 1) _ hf
    | raised => simpa only [hending] using hf
    | running => simpa only [hending] using hf

/-- What the code of every handler keeps of the rest of the program, `check` keeps. -/
theorem EventDispatcher.check_keeps (hbody : ∀ f event more world d, I world →
    I ((body f event more world).exec d).world) (n : ℕ) (d : EventDispatcher ε η α) {world : ω}
    (h : I world) : I (d.check body n world).world := by
  induction n generalizing d world with
  | zero => exact h
  | succ n ih =>
    rw [check]
    cases d.eventCache with
    | nil => exact h
    | cons now rest =>
      have hnow : I (now.run body d world).world := callAll_keeps hbody now now.t 0 d h
      cases hending : (now.run body d world).ending with
      | returned => simpa only [hending] using ih _ hnow
      | raised => simpa only [hending] using hnow
      | running => simpa only [hending] using hnow

end

end SockTestProgram
