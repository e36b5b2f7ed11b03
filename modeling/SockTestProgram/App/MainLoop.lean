import SockTestProgram.App.EventQueue
import SockTestProgram.Socket.SockSessionManager

/-!
# The main loop

`ConnFw::run` of `main.cpp`: each round of the loop calls `update_`, which is
`EventDispatcher.check`, then `io.poll()`, and ends the loop if no completion handler ran and the
current session has failed.  The handlers of events are a parameter, as in `App/Dispatcher.lean`,
and so is the state `ω` that they work on, of which the loop sees the sessions (`manager`).

Not modelled: the time that passes between two rounds, and what `frameUpdate` does after `check` (it
reads `clientState`, and nothing else).
-/

open Memory Lts

namespace SockTestProgram

namespace SockSessionManager

def current (m : SockSessionManager) : Option Connection := m.ptr.bind fun j => m.sessions[j]?

def hasCurrentSession (m : SockSessionManager) : Bool := m.ptr.isSome

/-- `currentSession()->isSocketFailed()` -/
def isSocketFailed (m : SockSessionManager) : Bool :=
  m.current.any fun c => c.session.isSocketFailed

end SockSessionManager

variable {ε η α ω : Type}

/-- What happens during a call of `io.poll()`. -/
inductive Activity (ε α ω : Type)
  /-- a completion handler runs and dispatches these events -/
  | handler (events : List (ε × List α)) (world : ω)
  /-- the operating system goes on with the outstanding operations -/
  | network (world : ω)

namespace Activity

def isHandler : Activity ε α ω → Bool
  | .handler _ _ => true
  | .network _ => false

/-- What is called of the dispatcher, and what becomes of the rest of the program. -/
def calls : Activity ε α ω → List (Op ε η α ω)
  | .handler events world => events.map (fun e => .dispatch e.1 e.2) ++ [.world world]
  | .network world => [.world world]

end Activity

/-- One round of the loop. -/
structure Round (ε α ω : Type) where
  /-- How many iterations the loop of `check` may take. -/
  budget : ℕ
  poll : List (Activity ε α ω)

namespace Round

/-- What `io.poll()` returns: the number of the handlers that it ran. -/
def rv (r : Round ε α ω) : ℕ := (r.poll.filter Activity.isHandler).length

def calls (r : Round ε α ω) : List (Op ε η α ω) := r.poll.flatMap Activity.calls

end Round

/-- The program in its main loop. -/
structure ConnFw (ε η α ω : Type) where
  program : Program ε η α ω
  /-- The loop has ended. -/
  broken : Bool

namespace ConnFw

/-- What comes before the loop: `app/init.lua` adds handlers, and `startUp` dispatches events. -/
def before (handlers : List (ε × η)) (events : List (ε × List α)) : List (Op ε η α ω) :=
  handlers.map (fun h => .addHandler h.1 h.2) ++ events.map fun e => .dispatch e.1 e.2

theorem before_ne_check {handlers : List (ε × η)} {events : List (ε × List α)} {op : Op ε η α ω}
    (h : op ∈ before handlers events) (n : ℕ) : op ≠ .check n := by
  rintro rfl
  simp [before] at h

theorem calls_ne_check {r : Round ε α ω} {op : Op ε η α ω} (h : op ∈ r.calls) (n : ℕ) :
    op ≠ .check n := by
  rintro rfl
  obtain ⟨a, -, ha⟩ := List.mem_flatMap.1 h
  cases a <;> simp [Activity.calls] at ha

/-- If no completion handler runs, nothing is dispatched. -/
theorem calls_of_rv_eq_zero {r : Round ε α ω} (hrv : r.rv = 0) {op : Op ε η α ω}
    (h : op ∈ r.calls) : ∃ world, op = .world world := by
  obtain ⟨a, ha, hop⟩ := List.mem_flatMap.1 h
  cases a with
  | handler events world =>
    have hnil : r.poll.filter Activity.isHandler = [] := List.length_eq_zero_iff.1 hrv
    exact absurd rfl (List.filter_eq_nil_iff.1 hnil _ ha)
  | network world => exact ⟨world, by simpa [Activity.calls] using hop⟩

variable [DecidableEq ε] [DecidableEq η] (body : η → ε → List α → ω → Prog ε η α ω)
  (manager : ω → SockSessionManager)

/-- One round, unless the loop has ended. -/
def step (fw : ConnFw ε η α ω) (r : Round ε α ω) : Option (ConnFw ε η α ω) :=
  if fw.broken then none
  else
    (run (Program.step body) fw.program (.check r.budget :: r.calls)).map fun m =>
      ⟨m, r.rv = 0 && ((manager m.world).hasCurrentSession && (manager m.world).isSocketFailed)⟩

/-- The `check` of the round returns: it ends, and no handler raises. -/
def CheckReturns (fw : ConnFw ε η α ω) (r : Round ε α ω) : Prop :=
  ∀ m ∈ fw.program.step body (.check r.budget), m.ending = .returned

instance (fw : ConnFw ε η α ω) : DecidablePred (CheckReturns body fw) :=
  fun r => inferInstanceAs (Decidable (∀ m ∈ fw.program.step body (.check r.budget), _))

/-! ## Calls other than `check` -/

variable {body} {manager}

theorem dispatcher_of_rv_eq_zero {m m' : Program ε η α ω} {r : Round ε α ω} (hrv : r.rv = 0)
    (hs : run (Program.step body) m r.calls = some m') : m'.dispatcher = m.dispatcher := by
  apply run_invariant_of (I := fun d : Program ε η α ω => d.dispatcher = m.dispatcher)
    (P := fun _ op => ∃ world, op = .world world) _ hs rfl
  · exact allSteps_of_forall (fun op hop _ => calls_of_rv_eq_zero hrv hop) m
  · rintro d op d' hd ⟨world, rfl⟩ hstep
    simp only [Program.step, Option.ite_none_left_eq_some, Option.some.injEq] at hstep
    rw [← hstep.2]
    exact hd

variable [DecidableEq α]

/-- All calls due are those of the closures in the queue, and no `check` has failed. -/
structure Sound (m : Program ε η α ω) : Prop where
  refines : m.Refines m.dispatcher.pending
  ending : m.ending = .returned

theorem Sound.step {m m' : Program ε η α ω} {op : Op ε η α ω} (h : Sound m)
    (hop : ∀ n, op ≠ .check n) (hs : m.step body op = some m') : Sound m' := by
  have hend : m'.ending = .returned := by
    obtain ⟨n, hn, -⟩ | ⟨-, hend, -⟩ := Program.step_cases body hs
    · exact absurd hn (hop n)
    · exact hend.trans h.ending
  exact ⟨Program.refines_step body h.refines hs (by simp [hend]), hend⟩

theorem Sound.run {m m' : Program ε η α ω} {ops : List (Op ε η α ω)} (h : Sound m)
    (hops : ∀ op ∈ ops, ∀ n, op ≠ .check n) (hs : run (Program.step body) m ops = some m') :
    Sound m' := by
  apply run_invariant_of (P := fun _ op => ∀ n, op ≠ .check n) _ hs h
  · exact allSteps_of_forall (fun op hop _ => hops op hop) m
  · exact fun _ _ _ hm hop hstep => hm.step hop hstep

theorem sound_start (world : ω) : Sound (Program.start world : Program ε η α ω) :=
  ⟨Program.refines_start world, rfl⟩

/-! ## The loop -/

/-- The queue is empty when the loop ends. -/
structure Delivers (fw : ConnFw ε η α ω) : Prop where
  sound : Sound fw.program
  empty : fw.broken = true → fw.program.dispatcher.eventCache = []

theorem delivers_step {fw fw' : ConnFw ε η α ω} {r : Round ε α ω} (h : fw.Delivers)
    (hret : fw.CheckReturns body r) (hs : fw.step body manager r = some fw') : fw'.Delivers := by
  simp only [step, Option.ite_none_left_eq_some, Option.map_eq_some_iff] at hs
  obtain ⟨-, m', hrun, rfl⟩ := hs
  obtain ⟨m, hm, hcalls⟩ := run_cons_eq_some_iff.1 hrun
  have hend : m.ending = .returned := hret m hm
  have hempty : m.dispatcher.eventCache = [] := by
    obtain ⟨n, -, rfl⟩ | ⟨hne, -⟩ := Program.step_cases body hm
    · exact (check_spec body (n + 1) fw.program.dispatcher fw.program.world).2.1 hend
    · exact absurd rfl (hne r.budget)
  have hsound : Sound m := ⟨Program.refines_step body h.sound.refines hm (by simp [hend]), hend⟩
  constructor
  · exact hsound.run (fun _ => calls_ne_check) hcalls
  · intro hbroken
    -- no completion handler ran after `check`
    have hrv : r.rv = 0 := by
      simp only [Bool.and_eq_true, decide_eq_true_eq] at hbroken
      exact hbroken.1
    rw [dispatcher_of_rv_eq_zero hrv hcalls]
    exact hempty

/-- **No event is lost at the end.**  When the loop ends the queue is empty: everything dispatched
before the loop, by the completion handlers or by the handlers of events was delivered, in order and
once. -/
theorem delivered_of_broken {m₀ : Program ε η α ω} {fw : ConnFw ε η α ω}
    {rounds : List (Round ε α ω)} (world : ω) (handlers : List (ε × η)) (events : List (ε × List α))
    (hbefore : run (Program.step body) (.start world) (before handlers events) = some m₀)
    (hrun : run (step body manager) ⟨m₀, false⟩ rounds = some fw)
    (hret : AllSteps (step body manager) (CheckReturns body) ⟨m₀, false⟩ rounds)
    (hbroken : fw.broken = true) :
    fw.program.dispatcher.eventCache = [] ∧
      run EventQueue.step EventQueue.start fw.program.log = some (fw.program.dispatcher.abs []) ∧
      made fw.program.log = EventQueue.start.allDue fw.program.log := by
  have hstart : (⟨m₀, false⟩ : ConnFw ε η α ω).Delivers :=
    ⟨(sound_start world).run (fun _ => before_ne_check) hbefore, by simp⟩
  have h : fw.Delivers := run_invariant_of (fun _ _ _ => delivers_step) hrun hstart hret
  have hempty := h.empty hbroken
  have hrefines : run EventQueue.step EventQueue.start fw.program.log =
      some (fw.program.dispatcher.abs []) := by
    have := h.sound.refines
    rwa [Program.Refines, EventDispatcher.pending, hempty] at this
  refine ⟨hempty, hrefines, ?_⟩
  simpa [EventQueue.start, EventDispatcher.abs] using EventQueue.made_append_due hrefines

/-- The session fails in the call of `io.poll()` that delivers its last message: the loop goes on
for one more round, which handles the message. -/
theorem delivered_of_broken_last_message :
    let body (_ _ : ℕ) (_ : List ℕ) (w : SockSessionManager) :
    Prog ℕ ℕ ℕ SockSessionManager := .done w
    let c := Connection.connecting ⟨Heap.const 0, .little, headerLengthFix⟩ "a" "1" "A" ""
    let failed : SockSessionManager := ⟨[{ c with session.socketFailed := true }], some 0⟩
    let rounds : List (Round ℕ ℕ SockSessionManager) := [⟨3, [.handler [(7, [5])] failed]⟩, ⟨3, []⟩]
    ∃ m₀ fw, run (Program.step body) (.start .start) (before [(7, 0)] [(7, [])]) = some m₀ ∧
      run (step body id) ⟨m₀, false⟩ rounds = some fw ∧ fw.broken = true ∧
      made fw.program.log = [⟨0, 0, 7, [], 0⟩, ⟨1, 0, 7, [5], 0⟩] ∧
      fw.program.dispatcher.eventCache = [] := by
  intro body c failed rounds
  have h : ∃ m₀, run (Program.step body) (.start .start) (before [(7, 0)] [(7, [])]) = some m₀ ∧
      AllSteps (step body id) (CheckReturns body) ⟨m₀, false⟩ rounds ∧
      ((run (step body id) ⟨m₀, false⟩ rounds).any fun fw => decide (fw.broken = true ∧
        made fw.program.log = [⟨0, 0, 7, [], 0⟩, ⟨1, 0, 7, [5], 0⟩])) = true :=
    exists_run_of_any (by decide +kernel)
  obtain ⟨m₀, hbefore, hret, hany⟩ := h
  obtain ⟨fw, hrun, hbroken, hmade⟩ := exists_run_of_any hany
  exact ⟨m₀, fw, hbefore, hrun, hbroken, hmade,
    (delivered_of_broken .start [(7, 0)] [(7, [])] hbefore hrun hret hbroken).1⟩

end ConnFw

end SockTestProgram
