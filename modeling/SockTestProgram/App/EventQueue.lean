import SockTestProgram.App.Dispatcher
import SockTestProgram.Lib.Run

/-!
# The dispatcher as a registry and a queue

`EventQueue` is what the dispatcher is for: an ordered registry of handlers and a first-in first-out
queue of the calls that are due.  A dispatch makes one call due for each handler registered at that
moment; calls are made in the order in which they become due.  The code refines it: as long as
no handler raises, everything that happens at the dispatcher is a run of `EventQueue`
(`dispatcher_refines`).
-/

open Lts

namespace SockTestProgram

variable {ε η α ω : Type}

/-! ## The abstract dispatcher -/

structure EventQueue (ε η α : Type) where
  registry : ε → List η
  dispatched : ℕ
  /-- The calls that are due, the next one first. -/
  due : List (Call ε η α)

/-- The calls of a chain of handlers, from a place of it on. -/
def callsFrom (serial : ℕ) (event : ε) (more : List α) : ℕ → List η → List (Call ε η α)
  | _, [] => []
  | place, f :: fs => ⟨serial, place, event, more, f⟩ :: callsFrom serial event more (place + 1) fs

theorem callsFrom_eq_nil_iff {serial place : ℕ} {event : ε} {more : List α} {fs : List η} :
    callsFrom serial event more place fs = [] ↔ fs = [] := by
  cases fs <;> simp [callsFrom]

/-- The call that an action is, if it is one. -/
def Action.made : Action ε η α → List (Call ε η α)
  | .called call => [call]
  | _ => []

/-- The calls made, in order. -/
def made (log : List (Action ε η α)) : List (Call ε η α) := log.flatMap Action.made

theorem made_append (log log' : List (Action ε η α)) : made (log ++ log') = made log ++ made log' :=
  List.flatMap_append

theorem made_cons (a : Action ε η α) (log : List (Action ε η α)) :
    made (a :: log) = a.made ++ made log := rfl

variable [DecidableEq ε] [DecidableEq η]

namespace EventQueue

def start : EventQueue ε η α := ⟨fun _ => [], 0, []⟩

/-- The calls that an action makes due. -/
def makesDue (s : EventQueue ε η α) : Action ε η α → List (Call ε η α)
  | .dispatched event more => callsFrom s.dispatched event more 0 (s.registry event)
  | _ => []

def step [DecidableEq α] (s : EventQueue ε η α) : Action ε η α → Option (EventQueue ε η α)
  | .added event handler =>
    some { s with registry := Function.update s.registry event (s.registry event ++ [handler]) }
  | .removed event handler ok =>
    if ok = decide (handler ∈ s.registry event) then
      some
        { s with
          registry := Function.update s.registry event ((s.registry event).erase handler) }
    else none
  | .dispatched event more =>
    some { s with
      dispatched := s.dispatched + 1
      due := s.due ++ s.makesDue (.dispatched event more) }
  | .called call =>
    match s.due with
    | next :: rest => if call = next then some { s with due := rest } else none
    | [] => none

end EventQueue

namespace EventQueue

variable [DecidableEq α] {s s' : EventQueue ε η α} {log : List (Action ε η α)}

/-- The calls that become due in a run, in order. -/
def allDue : EventQueue ε η α → List (Action ε η α) → List (Call ε η α)
  | _, [] => []
  | s, a :: log => s.makesDue a ++ (s.step a).elim [] fun s' => s'.allDue log

/-- Calls are made in the order in which they become due, and none is lost or made twice. -/
theorem made_append_due (h : run step s log = some s') :
    made log ++ s'.due = s.due ++ s.allDue log := by
  induction log generalizing s with
  | nil =>
    obtain rfl := Option.some.inj h
    simp [made, allDue]
  | cons a log ih =>
    obtain ⟨t, ht, hrest⟩ := run_cons_eq_some_iff.1 h
    have hstep : a.made ++ t.due = s.due ++ s.makesDue a := by
      cases a with
      | added event handler =>
        obtain rfl := Option.some.inj ht
        simp [Action.made, makesDue]
      | removed event handler ok =>
        simp only [step] at ht
        split_ifs at ht
        obtain rfl := Option.some.inj ht
        simp [Action.made, makesDue]
      | dispatched event more =>
        obtain rfl := Option.some.inj ht
        rfl
      | called call =>
        simp only [step] at ht
        split at ht
        next next rest hdue =>
          split_ifs at ht with hcall
          obtain rfl := Option.some.inj ht
          simp [Action.made, makesDue, hdue, hcall]
        next => simp at ht
    calc made (a :: log) ++ s'.due = a.made ++ (made log ++ s'.due) := by simp [made]
      _ = a.made ++ t.due ++ t.allDue log := by rw [ih hrest, List.append_assoc]
      _ = s.due ++ (s.makesDue a ++ t.allDue log) := by rw [hstep, List.append_assoc]
      _ = s.due ++ s.allDue (a :: log) := by simp [allDue, ht]

end EventQueue

/-! ## The code refines it -/

/-- The calls of a closure. -/
def Ev.calls (ev : Ev ε η α) : List (Call ε η α) := callsFrom ev.serial ev.event ev.more 0 ev.t

namespace EventDispatcher

/-- The abstract dispatcher with the registry of the code and the given calls due. -/
def abs (d : EventDispatcher ε η α) (due : List (Call ε η α)) : EventQueue ε η α :=
  ⟨fun event => (d.handlers event).getD [], d.dispatched, due⟩

/-- The calls of the closures in the queue. -/
def pending (d : EventDispatcher ε η α) : List (Call ε η α) := d.eventCache.flatMap Ev.calls

variable [DecidableEq α] {d d' d'' : EventDispatcher ε η α}

theorem abs_addHandler (d : EventDispatcher ε η α) (due : List (Call ε η α)) (event : ε)
    (handler : η) :
    (d.abs due).step (.added event handler) = some ((d.addHandler event handler).abs due) := by
  simp only [EventQueue.step, abs, addHandler]
  congr 2
  funext e
  by_cases he : e = event
  · subst he
    simp
  · simp [Function.update_of_ne he]

/-- `removeHandler` deletes the first occurrence, or there is none and it fails. -/
theorem abs_removeHandler (d : EventDispatcher ε η α) (event : ε) (handler : η) :
    (∃ d', d.removeHandler event handler = some d' ∧ d'.eventCache = d.eventCache ∧
      ∀ due, (d.abs due).step (.removed event handler true) = some (d'.abs due)) ∨
    (d.removeHandler event handler = none ∧
      ∀ due, (d.abs due).step (.removed event handler false) = some (d.abs due)) := by
  cases hchain : d.handlers event with
  | none =>
    refine .inr ⟨by simp [removeHandler, hchain], fun due => ?_⟩
    simp [EventQueue.step, abs, hchain]
  | some chain =>
    cases hindex : chain.idxOf? handler with
    | none =>
      have hmem : handler ∉ chain := by simpa using hindex
      refine .inr ⟨by simp [removeHandler, hchain, hindex], fun due => ?_⟩
      simp [EventQueue.step, abs, hchain, hmem, List.erase_of_not_mem]
    | some index =>
      have hmem : handler ∈ chain := by
        by_contra hnot
        rw [List.idxOf?_eq_none_iff.2 hnot] at hindex
        cases hindex
      have hremove : d.removeHandler event handler = some { d with
          handlers := Function.update d.handlers event (some (chain.eraseIdx index)) } := by
        simp [removeHandler, hchain, hindex]
      refine .inl ⟨_, hremove, rfl, fun due => ?_⟩
      have herase : chain.erase handler = chain.eraseIdx index := by
        rw [List.erase_eq_eraseIdx, hindex]
      simp only [EventQueue.step, abs, hchain, Option.getD_some, hmem, decide_true, if_true, herase]
      congr 2
      funext e
      by_cases he : e = event
      · subst he
        simp
      · simp [Function.update_of_ne he]

/-- The code between `d` and `d'` called no handler, put the closures `new` in the queue, and is a
run of the abstract dispatcher. -/
structure Extends (d d' : EventDispatcher ε η α) (log : List (Action ε η α))
    (new : List (Ev ε η α)) : Prop where
  eventCache : d'.eventCache = d.eventCache ++ new
  made : made log = []
  refines : ∀ due, run EventQueue.step (d.abs due) log =
    some (d'.abs (due ++ new.flatMap Ev.calls))

theorem Extends.refl (d : EventDispatcher ε η α) : Extends d d [] [] :=
  ⟨by simp, rfl, by simp⟩

/-- One action, and then more. -/
theorem Extends.cons {a : Action ε η α} {log : List (Action ε η α)} (new : List (Ev ε η α))
    {new' : List (Ev ε η α)}
    (ha : a.made = []) (he : d'.eventCache = d.eventCache ++ new)
    (hstep : ∀ due, (d.abs due).step a = some (d'.abs (due ++ new.flatMap Ev.calls)))
    (h : Extends d' d'' log new') : Extends d d'' (a :: log) (new ++ new') where
  eventCache := by rw [h.eventCache, he, List.append_assoc]
  made := by
    have := h.made
    simp_all [SockTestProgram.made]
  refines due := by
    rw [run_cons, hstep due]
    simp [h.refines]

theorem dispatch_spec (d : EventDispatcher ε η α) (event : ε) (more : List α) :
    ∃ new, (d.dispatch event more).eventCache = d.eventCache ++ new ∧
      ∀ due, (d.abs due).step (.dispatched event more) =
        some ((d.dispatch event more).abs (due ++ new.flatMap Ev.calls)) := by
  cases hchain : d.handlers event with
  | none =>
    refine ⟨[], by simp [dispatch, hchain], fun due => ?_⟩
    simp [EventQueue.step, EventQueue.makesDue, abs, dispatch, hchain, callsFrom]
  | some chain =>
    refine ⟨[⟨d.dispatched, event, more, chain⟩], by simp [dispatch, hchain], fun due => ?_⟩
    simp [EventQueue.step, EventQueue.makesDue, abs, dispatch, hchain, Ev.calls]

end EventDispatcher

variable [DecidableEq α]

/-- The code of a handler does what the abstract dispatcher does. -/
theorem Prog.exec_spec (p : Prog ε η α ω) (d : EventDispatcher ε η α) :
    (p.exec d).ending ≠ .running ∧
      ∃ new, d.Extends (p.exec d).dispatcher (p.exec d).log new := by
  induction p generalizing d with
  | done world => exact ⟨by simp [exec], [], .refl d⟩
  | raise world => exact ⟨by simp [exec], [], .refl d⟩
  | addHandler event handler next ih =>
    obtain ⟨hend, new, hnew⟩ := ih (d.addHandler event handler)
    refine ⟨hend, [] ++ new, hnew.cons [] rfl (by simp [EventDispatcher.addHandler]) fun due => ?_⟩
    simpa using d.abs_addHandler due event handler
  | removeHandler event handler next ih =>
    simp only [exec]
    rcases d.abs_removeHandler event handler with ⟨d', hd', he, hstep⟩ | ⟨hd', hstep⟩
    · rw [hd']
      obtain ⟨hend, new, hnew⟩ := ih true d'
      exact ⟨hend, [] ++ new, hnew.cons [] rfl (by simp [he]) fun due => by simpa using hstep due⟩
    · rw [hd']
      obtain ⟨hend, new, hnew⟩ := ih false d
      exact ⟨hend, [] ++ new, hnew.cons [] rfl (by simp) fun due => by simpa using hstep due⟩
  | dispatch event more next ih =>
    obtain ⟨new₀, hcache, hstep⟩ := d.dispatch_spec event more
    obtain ⟨hend, new, hnew⟩ := ih (d.dispatch event more)
    exact ⟨hend, new₀ ++ new, hnew.cons _ rfl hcache hstep⟩

section

variable (body : η → ε → List α → ω → Prog ε η α ω)

/-- The loop of a closure makes the calls that are due, up to the first handler that raises. -/
theorem callAll_spec (ev : Ev ε η α) (fs : List η) (place : ℕ) (d : EventDispatcher ε η α)
    (world : ω) :
    let r := callAll body ev place fs d world
    let calls := callsFrom ev.serial ev.event ev.more place fs
    ∃ k new, r.dispatcher.eventCache = d.eventCache ++ new ∧
      made r.log = calls.take k ∧
      (∀ due, run EventQueue.step (d.abs (calls ++ due)) r.log =
        some (r.dispatcher.abs (calls.drop k ++ due ++ new.flatMap Ev.calls))) ∧
      (r.ending = .returned ∧ calls.drop k = [] ∨ r.ending = .raised ∧ 0 < k) := by
  intro r calls
  induction fs generalizing place d world with
  | nil => exact ⟨0, [], by simp [r, callAll], rfl, by simp [r, calls, callAll, callsFrom],
      .inl ⟨rfl, rfl⟩⟩
  | cons f fs ih =>
    obtain ⟨hend, new, hnew⟩ := (body f ev.event ev.more world).exec_spec d
    -- the call of the first handler, and what its code does
    have hcall (due : List (Call ε η α)) : run EventQueue.step (d.abs (calls ++ due))
        (.called ⟨ev.serial, place, ev.event, ev.more, f⟩ ::
          ((body f ev.event ev.more world).exec d).log) =
        some (((body f ev.event ev.more world).exec d).dispatcher.abs
          (calls.drop 1 ++ due ++ new.flatMap Ev.calls)) := by
      simp only [calls, callsFrom, run_cons, EventQueue.step, EventDispatcher.abs, List.cons_append,
        if_true, Option.bind_some, List.drop_succ_cons, List.drop_zero]
      exact hnew.refines _
    cases hr : ((body f ev.event ev.more world).exec d).ending with
    | running => exact absurd hr hend
    | raised =>
      refine ⟨1, new, ?_, ?_, fun due => ?_, .inr ⟨?_, Nat.one_pos⟩⟩
      · simp [r, callAll, hr, hnew.eventCache]
      · simp [r, callAll, hr, calls, callsFrom, made_cons, hnew.made, Action.made]
      · simpa [r, callAll, hr] using hcall due
      · simp [r, callAll, hr]
    | returned =>
      obtain ⟨k, new', hcache, hmade, hrun, hor⟩ := ih (place + 1)
        ((body f ev.event ev.more world).exec d).dispatcher
        ((body f ev.event ev.more world).exec d).world
      refine ⟨k + 1, new ++ new', ?_, ?_, fun due => ?_, ?_⟩
      · simp [r, callAll, hr, hcache, hnew.eventCache]
      · simp [r, callAll, hr, calls, callsFrom, made_cons, made_append, hnew.made, hmade,
          Action.made]
      · have hlog : r.log = (.called ⟨ev.serial, place, ev.event, ev.more, f⟩ ::
            ((body f ev.event ev.more world).exec d).log) ++
              (callAll body ev (place + 1) fs ((body f ev.event ev.more world).exec d).dispatcher
                ((body f ev.event ev.more world).exec d).world).log := by
          simp [r, callAll, hr]
        rw [hlog, run_append, hcall, Option.bind_some]
        have := hrun (due ++ new.flatMap Ev.calls)
        simpa [r, callAll, hr, calls, callsFrom] using this
      · refine hor.imp (fun h => ?_) fun h => ⟨?_, Nat.succ_pos k⟩
        · simpa [r, callAll, hr, calls, callsFrom] using h
        · simpa [r, callAll, hr] using h.1

/-- Executing the closure at the head of the queue. -/
theorem Ev.run_spec (ev : Ev ε η α) (rest : List (Ev ε η α)) (d : EventDispatcher ε η α)
    (world : ω) (hd : d.eventCache = ev :: rest) :
    let r := ev.run body d world
    ∃ new, r.dispatcher.eventCache = ev :: (rest ++ new) ∧
      (r.ending = .returned ∧ made r.log = ev.calls ∧
          Lts.run EventQueue.step (d.abs d.pending) r.log =
            some (r.dispatcher.abs ((rest ++ new).flatMap Ev.calls)) ∨
        r.ending = .raised ∧ (∃ call ∈ ev.calls.head?, call ∈ made r.log) ∧
          ∃ due, Lts.run EventQueue.step (d.abs d.pending) r.log =
            some (r.dispatcher.abs due)) := by
  intro r
  obtain ⟨k, new, hcache, hmade, hrun, hor⟩ := callAll_spec body ev ev.t 0 d world
  have hpending : d.pending = ev.calls ++ rest.flatMap Ev.calls := by
    simp [EventDispatcher.pending, hd]
  refine ⟨new, by rw [← List.cons_append, ← hd]; exact hcache, ?_⟩
  rw [hpending]
  rcases hor with ⟨hend, hdrop⟩ | ⟨hend, hk⟩
  · refine .inl ⟨hend, ?_, ?_⟩
    · have := List.take_append_drop k ev.calls
      rw [show ev.calls.drop k = [] from hdrop, List.append_nil] at this
      exact hmade.trans this
    · have := hrun (rest.flatMap Ev.calls)
      rw [hdrop, List.nil_append, ← List.flatMap_append] at this
      exact this
  · refine .inr ⟨hend, ?_, _, hrun _⟩
    cases hcalls : ev.calls with
    | nil =>
      -- an empty chain raises nothing
      have ht : ev.t = [] := callsFrom_eq_nil_iff.1 hcalls
      rw [ht] at hend
      simp [callAll] at hend
    | cons call calls =>
      refine ⟨call, by simp, ?_⟩
      obtain ⟨k, rfl⟩ := Nat.exists_eq_succ_of_ne_zero hk.ne'
      have hmade' : made r.log = ev.calls.take (k + 1) := hmade
      simp [hmade', hcalls]

/-- `check` executes the closures of the queue one after another, up to its budget or to an error.
After an error the closure that was executed is still at the head of the queue. -/
theorem check_spec (n : ℕ) (d : EventDispatcher ε η α) (world : ω) :
    let r := d.check body n world
    (r.ending ≠ .raised → ∃ later, made r.log = (d.eventCache.take n).flatMap Ev.calls ++ later) ∧
      (r.ending = .returned → r.dispatcher.eventCache = []) ∧
      (r.ending ≠ .raised →
        run EventQueue.step (d.abs d.pending) r.log =
          some (r.dispatcher.abs r.dispatcher.pending)) ∧
      (r.ending = .raised → (∃ ev ∈ r.dispatcher.eventCache.head?, ∃ call ∈ ev.calls.head?,
          call ∈ made r.log) ∧
        ∃ due, run EventQueue.step (d.abs d.pending) r.log = some (r.dispatcher.abs due)) := by
  intro r
  induction n generalizing d world with
  | zero => simp [r, EventDispatcher.check, made]
  | succ n ih =>
    cases hd : d.eventCache with
    | nil => simp [r, EventDispatcher.check, hd, made]
    | cons now rest =>
      obtain ⟨new, hcache, ⟨hend, hmade, hrun⟩ | ⟨hend, hcall, due, hrun⟩⟩ :=
        now.run_spec body rest d world hd
      · set r₁ := now.run body d world
        set d' : EventDispatcher ε η α :=
          { r₁.dispatcher with eventCache := r₁.dispatcher.eventCache.tail } with hd'
        have hcache' : d'.eventCache = rest ++ new := by simp [hd', hcache]
        have habs (due : List (Call ε η α)) : r₁.dispatcher.abs due = d'.abs due := rfl
        have hr : r = { d'.check body n r₁.world with
            log := r₁.log ++ (d'.check body n r₁.world).log } := by
          simp only [r, EventDispatcher.check, hd]
          rw [hend]
        obtain ⟨h₁, h₂, h₃, h₄⟩ := ih d' r₁.world
        have hrun' : run EventQueue.step (d.abs d.pending) r₁.log = some (d'.abs d'.pending) := by
          rw [hrun, habs, EventDispatcher.pending, hcache']
        rw [hr]
        refine ⟨fun he => ?_, h₂, fun he => ?_, fun he => ?_⟩
        · obtain ⟨later, hlater⟩ := h₁ he
          refine ⟨(new.take (n - rest.length)).flatMap Ev.calls ++ later, ?_⟩
          simp [made_append, hmade, hlater, hcache', List.take_append]
        · rw [run_append, hrun', Option.bind_some]
          exact h₃ he
        · obtain ⟨⟨ev, hev, call, hcall, hmem⟩, due, hdue⟩ := h₄ he
          refine ⟨⟨ev, hev, call, hcall, ?_⟩, due, ?_⟩
          · rw [made_append]
            exact List.mem_append_right _ hmem
          · rw [run_append, hrun', Option.bind_some]
            exact hdue
      · have hr : r = now.run body d world := by
          simp only [r, EventDispatcher.check, hd]
          rw [hend]
        rw [hr, hend]
        refine ⟨by simp, by simp, by simp, fun _ => ⟨⟨now, by simp [hcache], hcall⟩, due, hrun⟩⟩

/-! ## Programs -/

namespace Program

variable {m m' : Program ε η α ω} {op : Op ε η α ω}

/-- The log is a run of the abstract dispatcher after which the given calls are due. -/
def Refines (m : Program ε η α ω) (due : List (Call ε η α)) : Prop :=
  run EventQueue.step EventQueue.start m.log = some (m.dispatcher.abs due)

theorem refines_start (world : ω) : (start world : Program ε η α ω).Refines [] := rfl

/-- What a call from outside does: `check` runs, or the dispatcher is extended. -/
theorem step_cases (hs : m.step body op = some m') :
    (∃ n, op = .check n ∧ m' =
      let r := m.dispatcher.check body (n + 1) m.world
      ⟨r.dispatcher, m.log ++ r.log, r.world, r.ending⟩) ∨
    ((∀ n, op ≠ .check n) ∧ m'.ending = m.ending ∧
      ∃ log new, m'.log = m.log ++ log ∧ m.dispatcher.Extends m'.dispatcher log new) := by
  unfold step at hs
  split_ifs at hs
  cases op with
  | addHandler event handler =>
    obtain rfl := Option.some.inj hs
    refine .inr ⟨by simp, rfl, [.added event handler], [], rfl, ?_⟩
    exact (EventDispatcher.Extends.refl _).cons [] rfl (by simp [EventDispatcher.addHandler])
      fun due => by simpa using m.dispatcher.abs_addHandler due event handler
  | removeHandler event handler =>
    rcases m.dispatcher.abs_removeHandler event handler with ⟨d', hd', he, hstep⟩ | ⟨hd', hstep⟩
    · simp only [hd'] at hs
      obtain rfl := Option.some.inj hs
      refine .inr ⟨by simp, rfl, [.removed event handler true], [], rfl, ?_⟩
      exact (EventDispatcher.Extends.refl _).cons [] rfl (by simp [he])
        fun due => by simpa using hstep due
    · simp only [hd'] at hs
      obtain rfl := Option.some.inj hs
      refine .inr ⟨by simp, rfl, [.removed event handler false], [], rfl, ?_⟩
      exact (EventDispatcher.Extends.refl _).cons [] rfl (by simp)
        fun due => by simpa using hstep due
  | dispatch event more =>
    obtain rfl := Option.some.inj hs
    obtain ⟨new, hcache, hstep⟩ := m.dispatcher.dispatch_spec event more
    refine .inr ⟨by simp, rfl, [.dispatched event more], new ++ [], rfl, ?_⟩
    exact (EventDispatcher.Extends.refl _).cons _ rfl hcache hstep
  | check n =>
    obtain rfl := Option.some.inj hs
    exact .inl ⟨n, rfl, rfl⟩
  | world w =>
    obtain rfl := Option.some.inj hs
    exact .inr ⟨by simp, rfl, [], [], by simp, .refl _⟩

/-- More of the run of the abstract dispatcher. -/
theorem Refines.append {due due' : List (Call ε η α)} {log : List (Action ε η α)}
    (h : m.Refines due) (hlog : m'.log = m.log ++ log)
    (hrun : run EventQueue.step (m.dispatcher.abs due) log = some (m'.dispatcher.abs due')) :
    m'.Refines due' := by
  rw [Refines, hlog]
  exact run_append_eq_some_iff.2 ⟨_, h, hrun⟩

theorem refines_step (h : m.Refines m.dispatcher.pending) (hs : m.step body op = some m')
    (hno : m'.ending ≠ .raised) : m'.Refines m'.dispatcher.pending := by
  rcases step_cases body hs with ⟨n, -, rfl⟩ | ⟨-, -, log, new, hlog, hext⟩
  · exact h.append rfl ((check_spec body (n + 1) m.dispatcher m.world).2.2.1 hno)
  · refine h.append hlog ((hext.refines _).trans ?_)
    rw [EventDispatcher.pending, EventDispatcher.pending, hext.eventCache, List.flatMap_append]

/-- No handler raises in a `check` of the run. -/
def NoError (m : Program ε η α ω) (op : Op ε η α ω) : Prop :=
  ∀ m' ∈ m.step body op, m'.ending ≠ .raised

instance (m : Program ε η α ω) : DecidablePred (NoError body m) :=
  fun op => inferInstanceAs (Decidable (∀ m' ∈ m.step body op, m'.ending ≠ .raised))

/-- **The dispatcher is an ordered registry and a queue.**  In every run without errors of handlers
the code does what the abstract dispatcher does: the calls made, and then those of the queue, are
the calls due, in order.  When `check` returns the queue is empty and all calls due are made; with a
budget of `n + 1` iterations it makes at least the calls of the first `n + 1` closures. -/
theorem dispatcher_refines {ops : List (Op ε η α ω)} (world : ω)
    (hrun : run (step body) (start world) ops = some m)
    (hno : AllSteps (step body) (NoError body) (start world) ops) :
    run EventQueue.step EventQueue.start m.log = some (m.dispatcher.abs m.dispatcher.pending) ∧
      made m.log ++ m.dispatcher.pending = EventQueue.start.allDue m.log ∧
      ∀ n m', m.step body (.check n) = some m' → m'.ending ≠ .raised →
        (m'.ending = .returned →
          m'.dispatcher.eventCache = [] ∧ made m'.log = EventQueue.start.allDue m'.log) ∧
        ∃ later, made m'.log =
          made m.log ++ (m.dispatcher.eventCache.take (n + 1)).flatMap Ev.calls ++ later := by
  have h : m.Refines m.dispatcher.pending := run_invariant_of (P := NoError body)
    (fun m op m' h hno hs => refines_step body h hs (hno m' hs)) hrun (refines_start world) hno
  refine ⟨h, EventQueue.made_append_due h, fun n m' hs hend => ?_⟩
  have h' := refines_step body h hs hend
  rcases step_cases body hs with ⟨n', hn, rfl⟩ | ⟨hne, -⟩
  · obtain rfl : n = n' := by simpa using hn
    obtain ⟨hlater, hreturned, -⟩ := check_spec body (n + 1) m.dispatcher m.world
    refine ⟨fun he => ⟨hreturned he, ?_⟩, ?_⟩
    · have hdue := EventQueue.made_append_due h'
      have hnil := hreturned he
      simpa [EventDispatcher.pending, hnil, EventQueue.start, EventDispatcher.abs] using hdue
    · obtain ⟨later, heq⟩ := hlater hend
      exact ⟨later, by rw [made_append, heq, List.append_assoc]⟩
  · exact absurd rfl (hne n)

end Program

end

/-- Two handlers of one event: the first removes itself and dispatches the event again, for the
second alone. -/
theorem Program.dispatcher_refines_self_removal :
    let body (h event : ℕ) (_ : List ℕ) (_ : Unit) : Prog ℕ ℕ ℕ Unit :=
      if h = 0 then .removeHandler event 0 fun _ => .dispatch event [8] (.done ()) else .done ()
    let ops := [Op.addHandler 7 0, .addHandler 7 1, .dispatch 7 [5]]
    ∃ m m', run (step body) (start ()) ops = some m ∧ m.step body (.check 2) = some m' ∧
      made m'.log = [⟨0, 0, 7, [5], 0⟩, ⟨0, 1, 7, [5], 1⟩, ⟨1, 0, 7, [8], 1⟩] ∧
      made m'.log = EventQueue.start.allDue m'.log := by
  intro body ops
  have h : ∃ m, run (step body) (start ()) ops = some m ∧ ∃ m', m.step body (.check 2) = some m' ∧
      m'.ending = .returned ∧
      made m'.log = [⟨0, 0, 7, [5], 0⟩, ⟨0, 1, 7, [5], 1⟩, ⟨1, 0, 7, [8], 1⟩] :=
    exists_run_of_any (by decide +kernel)
  obtain ⟨m, hrun, m', hs, hend, hmade⟩ := h
  have hno : AllSteps (step body) (NoError body) (start ()) ops := by decide +kernel
  exact ⟨m, m', hrun, hs, hmade, (((dispatcher_refines body () hrun hno).2.2 2 m' hs
    (by simp [hend])).1 hend).2⟩

end SockTestProgram
