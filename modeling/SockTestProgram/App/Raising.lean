import SockTestProgram.App.EventQueue

/-!
# Handlers that raise

`check` executes the closure at the head of the queue before it removes it.  An error of a handler
ends `check`, and the closure is still there: the next `check` executes it again.  So an error is
contained exactly as long as no `check` follows it (`contained_iff`).
-/

open Lts

namespace SockTestProgram

variable {ε η α ω : Type}

/-! ## Calls of the abstract dispatcher are distinct -/

theorem mem_callsFrom {serial place : ℕ} {event : ε} {more : List α} {fs : List η}
    {call : Call ε η α} (h : call ∈ callsFrom serial event more place fs) :
    call.serial = serial ∧ place ≤ call.place := by
  induction fs generalizing place with
  | nil => cases h
  | cons f fs ih =>
    rcases List.mem_cons.1 h with rfl | h
    · exact ⟨rfl, le_rfl⟩
    · obtain ⟨hserial, hplace⟩ := ih h
      exact ⟨hserial, by omega⟩

theorem nodup_callsFrom (serial place : ℕ) (event : ε) (more : List α) (fs : List η) :
    (callsFrom serial event more place fs).Nodup := by
  induction fs generalizing place with
  | nil => exact List.nodup_nil
  | cons f fs ih =>
    refine List.nodup_cons.2 ⟨fun h => ?_, ih (place + 1)⟩
    have hle : place + 1 ≤ place := (mem_callsFrom h).2
    omega

variable [DecidableEq ε] [DecidableEq η] [DecidableEq α]

namespace EventQueue

variable {s s' : EventQueue ε η α} {log : List (Action ε η α)}

theorem dispatched_le_of_mem_allDue {call : Call ε η α} (h : call ∈ s.allDue log) :
    s.dispatched ≤ call.serial := by
  induction log generalizing s with
  | nil => cases h
  | cons a log ih =>
    rcases List.mem_append.1 h with h | h
    · cases a with
      | dispatched event more => exact (mem_callsFrom h).1.ge
      | _ => cases h
    · cases hs : s.step a with
      | none => simp [hs] at h
      | some t =>
        simp only [hs, Option.elim_some] at h
        refine le_trans ?_ (ih h)
        cases a with
        | added event handler =>
          obtain rfl := Option.some.inj hs
          exact le_rfl
        | removed event handler ok =>
          simp only [step] at hs
          split_ifs at hs
          obtain rfl := Option.some.inj hs
          exact le_rfl
        | dispatched event more =>
          obtain rfl := Option.some.inj hs
          exact Nat.le_succ _
        | called c =>
          simp only [step] at hs
          split at hs
          · split_ifs at hs
            obtain rfl := Option.some.inj hs
            exact le_rfl
          · simp at hs

theorem nodup_allDue (s : EventQueue ε η α) (log : List (Action ε η α)) :
    (s.allDue log).Nodup := by
  induction log generalizing s with
  | nil => exact List.nodup_nil
  | cons a log ih =>
    have hrest : ((s.step a).elim [] fun s' => s'.allDue log).Nodup := by
      cases s.step a with
      | none => exact List.nodup_nil
      | some t => exact ih t
    cases a with
    | dispatched event more =>
      refine List.nodup_append.2 ⟨nodup_callsFrom _ _ _ _ _, hrest, ?_⟩
      -- the calls of later dispatches have larger serial numbers
      rintro call h₁ _ h₂ rfl
      have hserial : call.serial = s.dispatched := (mem_callsFrom h₁).1
      have hle : s.dispatched + 1 ≤ call.serial := dispatched_le_of_mem_allDue h₂
      omega
    | _ => simpa [allDue, makesDue] using hrest

/-- No call is made twice. -/
theorem nodup_made (h : run step start log = some s) : (made log).Nodup := by
  have hdue := made_append_due h
  have hnodup := nodup_allDue (start : EventQueue ε η α) log
  rw [show start.allDue log = made log ++ s.due from hdue.symm] at hnodup
  exact (List.nodup_append.1 hnodup).1

end EventQueue

/-! ## What an error leaves behind -/

section

variable (body : η → ε → List α → ω → Prog ε η α ω)

/-- `check` makes the first call of the closure at the head of the queue. -/
theorem made_check_head {n : ℕ} {d : EventDispatcher ε η α} (world : ω) {ev : Ev ε η α}
    (hev : ev ∈ d.eventCache.head?) {call : Call ε η α} (hcall : call ∈ ev.calls.head?) :
    call ∈ made (d.check body (n + 1) world).log := by
  obtain ⟨rest, hd⟩ : ∃ rest, d.eventCache = ev :: rest := List.head?_eq_some_iff.1 hev
  have hrun : call ∈ made (ev.run body d world).log := by
    obtain ⟨-, -, ⟨-, hmade, -⟩ | ⟨-, ⟨call', hcall', hmem⟩, -⟩⟩ := ev.run_spec body rest d world hd
    · rw [hmade]
      exact List.mem_of_mem_head? hcall
    · obtain rfl : call = call' := Option.some.inj (hcall.symm.trans hcall')
      exact hmem
  simp only [EventDispatcher.check, hd]
  split
  · rw [made_append]
    exact List.mem_append_left _ hrun
  · exact hrun

namespace Program

variable {m m' : Program ε η α ω} {op : Op ε η α ω}

/-- An error of a handler is contained: no call is made twice for one dispatch, and a `check` after
one that ended with an error gets to the closure behind the one that raised it. -/
def Contained (m : Program ε η α ω) (op : Op ε η α ω) : Prop :=
  ∀ m' ∈ m.step body op, (made m'.log).Nodup ∧
    (m.ending = .raised → (∃ n, op = .check n) →
      ∀ ev ∈ m.dispatcher.eventCache[1]?, ∀ call ∈ ev.calls.head?, call ∈ made m'.log)

/-- The event is not a `check` after one that ended with an error. -/
def NoCheckAfterError (m : Program ε η α ω) (op : Op ε η α ω) : Prop :=
  m.ending = .raised → ∀ n, op ≠ .check n

/-- As long as no `check` follows an error the log is a run of the abstract dispatcher; after an
error the closure at the head of the queue was executed already. -/
structure Errorfree (m : Program ε η α ω) : Prop where
  refines : ∃ due, m.Refines due ∧ (m.ending ≠ .raised → due = m.dispatcher.pending)
  executed : m.ending = .raised → ∃ ev ∈ m.dispatcher.eventCache.head?,
    ∃ call ∈ ev.calls.head?, call ∈ made m.log

theorem errorfree_step (h : m.Errorfree) (hno : m.NoCheckAfterError op)
    (hs : m.step body op = some m') : m'.Errorfree := by
  obtain ⟨due, hdue, hpending⟩ := h.refines
  rcases step_cases body hs with ⟨n, rfl, rfl⟩ | ⟨-, hend, log, new, hlog, hext⟩
  · obtain rfl := hpending fun he => hno he n rfl
    obtain ⟨-, -, hrun, hraised⟩ := check_spec body (n + 1) m.dispatcher m.world
    by_cases hend : (m.dispatcher.check body (n + 1) m.world).ending = .raised
    · obtain ⟨⟨ev, hev, call, hcall, hmem⟩, due, hdue'⟩ := hraised hend
      refine ⟨⟨due, hdue.append rfl hdue', fun hne => absurd hend hne⟩, fun _ => ?_⟩
      refine ⟨ev, hev, call, hcall, ?_⟩
      rw [made_append]
      exact List.mem_append_right _ hmem
    · exact ⟨⟨_, hdue.append rfl (hrun hend), fun _ => rfl⟩, fun he => absurd he hend⟩
  · refine ⟨⟨_, hdue.append hlog (hext.refines due), fun hne => ?_⟩, fun he => ?_⟩
    · rw [hpending (hend ▸ hne), EventDispatcher.pending, EventDispatcher.pending,
        hext.eventCache, List.flatMap_append]
    · obtain ⟨ev, hev, call, hcall, hmem⟩ := h.executed (hend ▸ he)
      obtain ⟨rest, hd⟩ := List.head?_eq_some_iff.1 hev
      refine ⟨ev, by simp [hext.eventCache, hd], call, hcall, ?_⟩
      rw [hlog, made_append]
      exact List.mem_append_left _ hmem

theorem contained_step_iff (h : m.Errorfree) : m.Contained body op ↔ m.NoCheckAfterError op := by
  constructor
  · rintro hcontained hraised n rfl
    -- the closure at the head is executed a second time
    obtain ⟨ev, hev, call, hcall, hmem⟩ := h.executed hraised
    have hs : m.step body (.check n) = some
        (let r := m.dispatcher.check body (n + 1) m.world
        ⟨r.dispatcher, m.log ++ r.log, r.world, r.ending⟩) := by
      simp [step, hraised]
    have hnodup := (hcontained _ hs).1
    rw [made_append] at hnodup
    exact (List.nodup_append.1 hnodup).2.2 call hmem call
      (made_check_head body m.world hev hcall) rfl
  · intro hno m' hs
    obtain ⟨due, hdue, -⟩ := (errorfree_step body h hno hs).refines
    exact ⟨EventQueue.nodup_made hdue, fun hraised ⟨n, hn⟩ => absurd hn (hno hraised n)⟩

theorem errorfree_start (world : ω) : (start world : Program ε η α ω).Errorfree :=
  ⟨⟨[], refines_start world, fun _ => rfl⟩, fun h => by cases h⟩

/-- **Errors of handlers.**  In a run every error is contained exactly if no `check` follows a
`check` that ended with an error. -/
theorem contained_iff (world : ω) (ops : List (Op ε η α ω)) :
    AllSteps (step body) (Contained body) (start world) ops ↔
      AllSteps (step body) NoCheckAfterError (start world) ops :=
  allSteps_congr (I := Errorfree) (fun _ _ _ h hno hs => errorfree_step body h hno hs)
    (fun _ _ h => contained_step_iff body h) (errorfree_start world)

instance (m : Program ε η α ω) (n : ℕ) : Decidable (m.Contained body (.check n)) :=
  decidable_of_iff (∀ m' ∈ m.step body (.check n), (made m'.log).Nodup ∧
    (m.ending = .raised → ∀ ev ∈ m.dispatcher.eventCache[1]?, ∀ call ∈ ev.calls.head?,
      call ∈ made m'.log)) (by simp [Contained])

end Program

end

/-- Handler 0 raises.  Its event has handler 1 before it, and another event is dispatched behind it:
two frames call handler 1 twice, and handler 2 never. -/
theorem Program.error_repeats_calls :
    let body (h _ : ℕ) (_ : List ℕ) (_ : Unit) : Prog ℕ ℕ ℕ Unit :=
      if h = 0 then .raise () else .done ()
    let ops := [Op.addHandler 7 1, .addHandler 7 0, .addHandler 8 2, .dispatch 7 [], .dispatch 8 [],
      .check 9]
    ¬ AllSteps (step body) (Contained body) (start ()) (ops ++ [.check 9]) ∧
      ∃ m, run (step body) (start ()) (ops ++ [.check 9, .check 9]) = some m ∧
        (made m.log).map Call.handler = [1, 0, 1, 0, 1, 0] := by
  intro body ops
  refine ⟨fun h => ?_, exists_run_of_any (by decide +kernel)⟩
  have hrun : ∃ m, run (step body) (start ()) ops = some m ∧ ¬ m.Contained body (.check 9) :=
    exists_run_of_any (by decide +kernel)
  obtain ⟨m, hm, hnot⟩ := hrun
  exact hnot (h.apply hm)

end SockTestProgram
