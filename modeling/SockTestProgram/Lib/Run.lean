import Mathlib.Data.List.Infix
import Mathlib.Data.Option.Basic

/-!
# Runs of a labelled transition system

A system is a partial step function `step : σ → ε → Option σ`: in state `s` the event `e` is
possible iff `step s e` is `some`.  This file defines runs (`run`), conditions on every step of a
run (`AllSteps`), and the rules that lift a fact about one step to a fact about a run: invariants
(`run_invariant`, `run_invariant_of`), bounds on the length of a run (`run_length_le`) and forward
simulations (`run_simulation`).
-/

namespace Lts

variable {σ τ ε : Type*} {step : σ → ε → Option σ}

/-- The state reached by performing the events in order, `none` if one of them is not possible. -/
def run (step : σ → ε → Option σ) : σ → List ε → Option σ
  | s, [] => some s
  | s, e :: es => (step s e).bind fun s' => run step s' es

@[simp] theorem run_nil (s : σ) : run step s [] = some s := rfl

theorem run_cons (s : σ) (e : ε) (es : List ε) :
    run step s (e :: es) = (step s e).bind fun s' => run step s' es := rfl

theorem run_cons_eq_some_iff {s s' : σ} {e : ε} {es : List ε} :
    run step s (e :: es) = some s' ↔ ∃ m, step s e = some m ∧ run step m es = some s' := by
  simp [run_cons, Option.bind_eq_some_iff]

theorem run_append (s : σ) (es fs : List ε) :
    run step s (es ++ fs) = (run step s es).bind fun s' => run step s' fs := by
  induction es generalizing s with
  | nil => rfl
  | cons e es ih =>
    simp only [List.cons_append, run_cons]
    cases step s e with
    | none => rfl
    | some m => exact ih m

theorem run_append_eq_some_iff {s s' : σ} {es fs : List ε} :
    run step s (es ++ fs) = some s' ↔ ∃ m, run step s es = some m ∧ run step m fs = some s' := by
  simp [run_append, Option.bind_eq_some_iff]

/-- A run is possible, and what can be decided of its last state can be computed. -/
theorem exists_run_of_any {p : σ → Prop} [DecidablePred p] {s : σ} {es : List ε}
    (h : (run step s es).any (fun s' => decide (p s')) = true) :
    ∃ s', run step s es = some s' ∧ p s' := by
  obtain ⟨s', hs', hp⟩ := (Option.any_eq_true _ _).1 h
  exact ⟨s', hs', of_decide_eq_true hp⟩

/-! ## Conditions on the steps of a run -/

/-- Every step that the run takes satisfies `P`. -/
def AllSteps (step : σ → ε → Option σ) (P : σ → ε → Prop) : σ → List ε → Prop
  | _, [] => True
  | s, e :: es => P s e ∧ ∀ s', step s e = some s' → AllSteps step P s' es

instance AllSteps.decidable {P : σ → ε → Prop} [∀ s e, Decidable (P s e)] :
    ∀ s es, Decidable (AllSteps step P s es)
  | _, [] => isTrue trivial
  | s, e :: es =>
    have : Decidable (∀ s', step s e = some s' → AllSteps step P s' es) :=
      match step s e with
      | none => isTrue (by simp)
      | some m =>
        have := AllSteps.decidable (P := P) m es
        decidable_of_iff (AllSteps step P m es) (by simp)
    inferInstanceAs (Decidable (_ ∧ _))

theorem AllSteps.mono {P Q : σ → ε → Prop} (hPQ : ∀ s e, P s e → Q s e) {s : σ} {es : List ε}
    (h : AllSteps step P s es) : AllSteps step Q s es := by
  induction es generalizing s with
  | nil => trivial
  | cons e es ih => exact ⟨hPQ _ _ h.1, fun s' hs => ih (h.2 s' hs)⟩

theorem allSteps_of_forall {P : σ → ε → Prop} {es : List ε} (h : ∀ e ∈ es, ∀ s, P s e) (s : σ) :
    AllSteps step P s es := by
  induction es generalizing s with
  | nil => trivial
  | cons e es ih =>
    exact ⟨h e (by simp) s, fun s' _ => ih (fun f hf => h f (by simp [hf])) s'⟩

/-- Where every event is possible in every state, a condition on the events is one on the list. -/
theorem allSteps_iff_forall {f : σ → ε → σ} {P : ε → Prop} {s : σ} {es : List ε} :
    AllSteps (fun s e => some (f s e)) (fun _ e => P e) s es ↔ ∀ e ∈ es, P e := by
  induction es generalizing s with
  | nil => simp [AllSteps]
  | cons e es ih => simp [AllSteps, ih]

theorem allSteps_and {P Q : σ → ε → Prop} {s : σ} {es : List ε} :
    AllSteps step (fun s e => P s e ∧ Q s e) s es ↔ AllSteps step P s es ∧
      AllSteps step Q s es := by
  refine ⟨fun h => ⟨h.mono fun _ _ => And.left, h.mono fun _ _ => And.right⟩, fun h => ?_⟩
  induction es generalizing s with
  | nil => trivial
  | cons e es ih => exact ⟨⟨h.1.1, h.2.1⟩, fun s' hs => ih ⟨h.1.2 s' hs, h.2.2 s' hs⟩⟩

theorem allSteps_append_iff {P : σ → ε → Prop} {s : σ} {es fs : List ε} :
    AllSteps step P s (es ++ fs) ↔
      AllSteps step P s es ∧ ∀ m, run step s es = some m → AllSteps step P m fs := by
  induction es generalizing s with
  | nil => simp [AllSteps]
  | cons e es ih =>
    simp only [List.cons_append, AllSteps, ih, run_cons_eq_some_iff]
    constructor
    · rintro ⟨hP, hrest⟩
      exact ⟨⟨hP, fun s' hs => (hrest s' hs).1⟩, fun m ⟨s', hs, hm⟩ => (hrest s' hs).2 m hm⟩
    · rintro ⟨⟨hP, h₁⟩, h₂⟩
      exact ⟨hP, fun s' hs => ⟨h₁ s' hs, fun m hm => h₂ m ⟨s', hs, hm⟩⟩⟩

/-- The steps of a run, one by one. -/
theorem AllSteps.apply {P : σ → ε → Prop} {s m : σ} {es fs : List ε} {e : ε}
    (h : AllSteps step P s (es ++ e :: fs)) (hm : run step s es = some m) : P m e :=
  ((allSteps_append_iff.1 h).2 m hm).1

/-! ## Invariants -/

/-- What holds at first and is kept by every step that satisfies `P` holds at the end of every run
whose steps all satisfy `P`. -/
theorem run_invariant_of {P : σ → ε → Prop} {I : σ → Prop}
    (hstep : ∀ s e s', I s → P s e → step s e = some s' → I s') {s s' : σ} {es : List ε}
    (h : run step s es = some s') (hs : I s) (hP : AllSteps step P s es) : I s' := by
  induction es generalizing s with
  | nil => exact Option.some.inj h ▸ hs
  | cons e es ih =>
    obtain ⟨m, hm, hrest⟩ := run_cons_eq_some_iff.1 h
    exact ih hrest (hstep s e m hs hP.1 hm) (hP.2 m hm)

/-- What holds at first and is kept by every step holds at the end of every run. -/
theorem run_invariant {I : σ → Prop} (hstep : ∀ s e s', I s → step s e = some s' → I s')
    {s s' : σ} {es : List ε} (h : run step s es = some s') (hs : I s) : I s' := by
  induction es generalizing s with
  | nil => exact Option.some.inj h ▸ hs
  | cons e es ih =>
    obtain ⟨m, hm, hrest⟩ := run_cons_eq_some_iff.1 h
    exact ih hrest (hstep s e m hs hm)

/-- If a step that satisfies `Q` satisfies `P` and keeps an invariant, so does every step of a
run whose steps satisfy `Q`. -/
theorem AllSteps.of_invariant {P Q : σ → ε → Prop} {I : σ → Prop}
    (hstep : ∀ s e, I s → Q s e → P s e ∧ ∀ s', step s e = some s' → I s') {s : σ} {es : List ε}
    (hs : I s) (hQ : AllSteps step Q s es) : AllSteps step P s es := by
  induction es generalizing s with
  | nil => trivial
  | cons e es ih =>
    obtain ⟨hP, hI⟩ := hstep s e hs hQ.1
    exact ⟨hP, fun s' hs' => ih (hI s' hs') (hQ.2 s' hs')⟩

/-- Two conditions that agree under an invariant, which steps satisfying one of them keep, hold of
the steps of the same runs. -/
theorem allSteps_congr {P Q : σ → ε → Prop} {I : σ → Prop}
    (hstep : ∀ s e s', I s → Q s e → step s e = some s' → I s')
    (hiff : ∀ s e, I s → (P s e ↔ Q s e)) {s : σ} {es : List ε} (hs : I s) :
    AllSteps step P s es ↔ AllSteps step Q s es := by
  induction es generalizing s with
  | nil => exact Iff.rfl
  | cons e es ih =>
    simp only [AllSteps, hiff s e hs]
    exact and_congr_right fun hQ => forall₂_congr fun s' hs' => ih (hstep s e s' hs hQ hs')

/-- If every step that satisfies `Q` is possible, a run whose steps satisfy `Q` is. -/
theorem exists_run {Q : σ → ε → Prop} {I : σ → Prop}
    (hstep : ∀ s e, I s → Q s e → ∃ s', step s e = some s' ∧ I s') {s : σ} {es : List ε} (hs : I s)
    (hQ : AllSteps step Q s es) : ∃ s', run step s es = some s' ∧ I s' := by
  induction es generalizing s with
  | nil => exact ⟨s, rfl, hs⟩
  | cons e es ih =>
    obtain ⟨m, hm, hI⟩ := hstep s e hs hQ.1
    obtain ⟨s', hs', hI'⟩ := ih hI (hQ.2 m hm)
    exact ⟨s', run_cons_eq_some_iff.2 ⟨m, hm, hs'⟩, hI'⟩

/-- If a step keeps `J` exactly when it satisfies `P`, then `J` holds all along a run exactly when
all its steps satisfy `P`. -/
theorem forall_states_iff_allSteps {P Q : σ → ε → Prop} {I J : σ → Prop}
    (hstep : ∀ s e, I s → J s → Q s e → ∃ s', step s e = some s' ∧ I s' ∧ (J s' ↔ P s e))
    {s : σ} {es : List ε} (hI : I s) (hJ : J s) (hQ : AllSteps step Q s es) :
    (∀ fs m, fs <+: es → run step s fs = some m → J m) ↔ AllSteps step P s es := by
  induction es generalizing s with
  | nil =>
    refine iff_of_true (fun fs m hfs hm => ?_) trivial
    obtain rfl := List.prefix_nil.1 hfs
    exact Option.some.inj hm ▸ hJ
  | cons e es ih =>
    obtain ⟨s', hs', hI', hiff⟩ := hstep s e hI hJ hQ.1
    constructor
    · intro h
      have hJ' : J s' := h [e] s' ⟨es, rfl⟩ (by simp [run_cons, hs'])
      refine ⟨hiff.1 hJ', fun m hm => ?_⟩
      obtain rfl := Option.some.inj (hs'.symm.trans hm)
      refine (ih hI' hJ' (hQ.2 s' hs')).1 fun fs m hfs hrun => ?_
      exact h (e :: fs) m (List.prefix_cons_inj e |>.2 hfs)
        (run_cons_eq_some_iff.2 ⟨s', hs', hrun⟩)
    · rintro ⟨hP, hrest⟩ fs m hfs hm
      have hJ' : J s' := hiff.2 hP
      cases fs with
      | nil => exact Option.some.inj hm ▸ hJ
      | cons f fs =>
        obtain ⟨rfl, hfs'⟩ := List.cons_prefix_cons.1 hfs
        obtain ⟨m', hm', hrun⟩ := run_cons_eq_some_iff.1 hm
        obtain rfl := Option.some.inj (hs'.symm.trans hm')
        exact (ih hI' hJ' (hQ.2 s' hs')).2 (hrest s' hs') fs m hfs' hrun

/-! ## Simulation -/

/-- If every step that satisfies `P` is matched by a run of another system whose steps satisfy `Q`,
so is every run whose steps satisfy `P`. -/
theorem run_simulation {δ : Type*} {step' : τ → δ → Option τ} {P : σ → ε → Prop} {Q : τ → δ → Prop}
    {R : σ → τ → Prop}
    (hstep : ∀ s t e s', R s t → P s e → step s e = some s' →
      ∃ fs t', run step' t fs = some t' ∧ AllSteps step' Q t fs ∧ R s' t')
    {s s' : σ} {t : τ} {es : List ε} (h : run step s es = some s') (hR : R s t)
    (hP : AllSteps step P s es) :
    ∃ fs t', run step' t fs = some t' ∧ AllSteps step' Q t fs ∧ R s' t' := by
  induction es generalizing s t with
  | nil =>
    obtain rfl := Option.some.inj h
    exact ⟨[], t, rfl, trivial, hR⟩
  | cons e es ih =>
    obtain ⟨m, hm, hrest⟩ := run_cons_eq_some_iff.1 h
    obtain ⟨fs, u, hfs, hQ, hRm⟩ := hstep s t e m hR hP.1 hm
    obtain ⟨gs, t', hgs, hQ', hR'⟩ := ih hrest hRm (hP.2 m hm)
    refine ⟨fs ++ gs, t', run_append_eq_some_iff.2 ⟨u, hfs, hgs⟩, ?_, hR'⟩
    refine allSteps_append_iff.2 ⟨hQ, fun v hv => ?_⟩
    obtain rfl := Option.some.inj (hfs.symm.trans hv)
    exact hQ'

/-- A property that goes back over every step holds of all states of a run that ends with it. -/
theorem run_back {J : σ → Prop} (hback : ∀ s e s', step s e = some s' → J s' → J s) {s s' : σ}
    {es : List ε} (h : run step s es = some s') (hJ : J s') : J s := by
  induction es generalizing s with
  | nil => exact Option.some.inj h ▸ hJ
  | cons e es ih =>
    obtain ⟨m, hm, hrest⟩ := run_cons_eq_some_iff.1 h
    exact hback s e m hm (ih hrest)

/-- A system takes the steps of another one, for events of a kind `A`, as long as that has a
property that goes back over its steps. -/
theorem run_refines {step' : τ → ε → Option τ} {R : σ → τ → Prop} {J : τ → Prop} {A : ε → Prop}
    (hback : ∀ t e t', step' t e = some t' → J t' → J t)
    (hstep : ∀ s t e t', A e → R s t → step' t e = some t' → J t' →
      ∃ s', step s e = some s' ∧ R s' t')
        {s : σ} {t t' : τ} {es : List ε} (hA : ∀ e ∈ es, A e) (h : run step' t es = some t')
          (hJ : J t') (hR : R s t) :
    ∃ s', run step s es = some s' ∧ R s' t' := by
  induction es generalizing s t with
  | nil => exact ⟨s, rfl, Option.some.inj h ▸ hR⟩
  | cons e es ih =>
    obtain ⟨m, hm, hrest⟩ := run_cons_eq_some_iff.1 h
    obtain ⟨s₁, hs₁, hR₁⟩ := hstep s t e m (hA e (by simp)) hR hm (run_back hback hrest hJ)
    obtain ⟨s', hs', hR'⟩ := ih (fun f hf => hA f (by simp [hf])) hrest hR₁
    exact ⟨s', run_cons_eq_some_iff.2 ⟨s₁, hs₁, hs'⟩, hR'⟩

/-! ## Length -/

/-- If every step of kind `A` lowers `μ`, a run of such steps is no longer than `μ` was at first. -/
theorem run_length_le {A : ε → Prop} {I : σ → Prop} (μ : σ → ℕ)
    (hstep : ∀ s e s', I s → A e → step s e = some s' → I s' ∧ μ s' < μ s)
    {s s' : σ} {es : List ε} (h : run step s es = some s') (hs : I s) (hA : ∀ e ∈ es, A e) :
    es.length + μ s' ≤ μ s := by
  induction es generalizing s with
  | nil =>
    obtain rfl := Option.some.inj h
    simp
  | cons e es ih =>
    obtain ⟨m, hm, hrest⟩ := run_cons_eq_some_iff.1 h
    obtain ⟨hI, hlt⟩ := hstep s e m hs (hA e (by simp)) hm
    have := ih hrest hI fun f hf => hA f (by simp [hf])
    simp only [List.length_cons]
    omega

/-- If every step of kind `A` lowers `μ`, steps of kind `A` lead to a state without any. -/
theorem exists_maximal_run {A : ε → Prop} {I : σ → Prop} (μ : σ → ℕ)
    (hstep : ∀ s e s', I s → A e → step s e = some s' → I s' ∧ μ s' < μ s) {s : σ} (hs : I s) :
    ∃ es s', (∀ e ∈ es, A e) ∧ run step s es = some s' ∧ ∀ e, A e → step s' e = none := by
  induction hn : μ s using Nat.strong_induction_on generalizing s with
  | _ n ih =>
    by_cases hmore : ∃ e s', A e ∧ step s e = some s'
    · obtain ⟨e, s', hA, hs'⟩ := hmore
      obtain ⟨hI, hlt⟩ := hstep s e s' hs hA hs'
      obtain ⟨es, t, hall, hrun, hmax⟩ := ih (μ s') (hn ▸ hlt) hI rfl
      refine ⟨e :: es, t, ?_, run_cons_eq_some_iff.2 ⟨s', hs', hrun⟩, hmax⟩
      simpa [hA] using hall
    · refine ⟨[], s, by simp, rfl, fun e hA => ?_⟩
      by_contra hne
      obtain ⟨s', hs'⟩ := Option.ne_none_iff_exists'.1 hne
      exact hmore ⟨e, s', hA, hs'⟩

end Lts
