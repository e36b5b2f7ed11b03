import SockTestProgram.App.ConnectHandler

/-!
# `ConnectorHandler:deinit`

`init` registers seven functions with the dispatcher, and `deinit` removes them in another order.
The first line of `deinit` reads a field of `sellf`, a global that no module defines: it raises an
error and removes nothing (`deinit_never_undoes_init`).  With `self` in its place `deinit` would
undo `init`, whatever other components did in between (`undoes_of_self`).
-/

namespace SockTestProgram

variable {η μ : Type} [DecidableEq η]

/-! ## Chains with functions of one component -/

/-- The chain of an event. -/
def EventDispatcher.chain (d : EventDispatcher String η μ) (event : String) : List η :=
  (d.handlers event).getD []

/-- A call of another component. -/
inductive RegistryCall (η : Type)
  | addHandler (event : String) (handler : η)
  | removeHandler (event : String) (handler : η)
  deriving DecidableEq, Repr

namespace RegistryCall

/-- The event and the function of the call. -/
def target : RegistryCall η → String × η
  | .addHandler event handler => (event, handler)
  | .removeHandler event handler => (event, handler)

/-- The registry after the call; a failed assertion leaves it as it was. -/
def perform (d : EventDispatcher String η μ) : RegistryCall η → EventDispatcher String η μ
  | .addHandler event handler => d.addHandler event handler
  | .removeHandler event handler => (d.removeHandler event handler).getD d

end RegistryCall

namespace EventDispatcher

variable {d d' : EventDispatcher String η μ}

def addAll (d : EventDispatcher String η μ) (own : List (String × η)) :
    EventDispatcher String η μ :=
  own.foldl (fun d p => d.addHandler p.1 p.2) d

/-- Remove one function after another; the flag tells whether all assertions hold. -/
def removeAll : List (String × η) → EventDispatcher String η μ → EventDispatcher String η μ × Bool
  | [], d => (d, true)
  | (event, handler) :: own, d =>
    match d.removeHandler event handler with
    | some d' => removeAll own d'
    | none => (d, false)

omit [DecidableEq η] in
theorem chain_addHandler (d : EventDispatcher String η μ) (event : String) (handler : η)
    (e : String) :
    (d.addHandler event handler).chain e =
      if e = event then d.chain e ++ [handler] else d.chain e := by
  unfold chain addHandler
  by_cases he : e = event
  · subst he
    simp
  · simp [he]

/-- A function that is in the chain is removed at its first place, and else the assertion fails. -/
theorem removeHandler_of_mem {event : String} {handler : η} (h : handler ∈ d.chain event) :
    ∃ d', d.removeHandler event handler = some d' ∧
      ∀ e, d'.chain e = if e = event then (d.chain e).erase handler else d.chain e := by
  unfold chain at h
  cases hchain : d.handlers event with
  | none => simp [hchain] at h
  | some l =>
    rw [hchain, Option.getD_some] at h
    cases hindex : l.idxOf? handler with
    | none => exact absurd h (List.idxOf?_eq_none_iff.1 hindex)
    | some index =>
      refine ⟨{ d with handlers := Function.update d.handlers event (some (l.eraseIdx index)) }, ?_,
        ?_⟩
      · simp [removeHandler, hchain, hindex]
      · intro e
        unfold chain
        by_cases he : e = event
        · subst he
          simp [hchain, List.erase_eq_eraseIdx, hindex]
        · simp [he]

theorem removeHandler_of_not_mem {event : String} {handler : η} (h : handler ∉ d.chain event) :
    d.removeHandler event handler = none := by
  unfold removeHandler
  cases hchain : d.handlers event with
  | none => rfl
  | some l =>
    have hnot : handler ∉ l := by simpa [chain, hchain] using h
    simp [List.idxOf?_eq_none_iff.2 hnot]

end EventDispatcher

/-- An element that occurs at most once is erased by filtering. -/
theorem erase_eq_filter_of_count_le_one {l : List η} {a : η} (h : l.count a ≤ 1) :
    l.erase a = l.filter (· ≠ a) := by
  induction l with
  | nil => rfl
  | cons x l ih =>
    by_cases hx : x = a
    · subst hx
      have hnot : x ∉ l := by
        rw [List.count_cons_self] at h
        exact List.count_eq_zero.1 (by omega)
      rw [List.erase_cons_head, List.filter_cons_of_neg (by simp)]
      refine (List.filter_eq_self.2 fun y hy => ?_).symm
      exact decide_eq_true (ne_of_mem_of_not_mem hy hnot)
    · rw [List.count_cons_of_ne hx] at h
      rw [List.erase_cons_tail (by simpa using hx),
        List.filter_cons_of_pos (by simpa using hx), ih h]

/-- The first dispatcher is the second with the functions `own` added, each once. -/
structure Extra (own : List (String × η)) (d₁ d₂ : EventDispatcher String η μ) : Prop where
  chain : ∀ e, d₂.chain e = (d₁.chain e).filter fun h => (e, h) ∉ own
  once : ∀ p ∈ own, (d₁.chain p.1).count p.2 = 1

namespace Extra

variable {own : List (String × η)} {d₁ d₂ : EventDispatcher String η μ}

theorem refl (d : EventDispatcher String η μ) : Extra [] d d :=
  ⟨fun e => by simp, fun p hp => by cases hp⟩

theorem addHandler (h : Extra own d₁ d₂) {event : String} {handler : η}
    (hown : (event, handler) ∉ own) (hnew : handler ∉ d₂.chain event) :
    Extra ((event, handler) :: own) (d₁.addHandler event handler) d₂ := by
  have hnew₁ : handler ∉ d₁.chain event := by
    intro hmem
    apply hnew
    rw [h.chain event]
    exact List.mem_filter.2 ⟨hmem, by simpa using hown⟩
  constructor
  · intro e
    rw [h.chain e, EventDispatcher.chain_addHandler]
    by_cases he : e = event
    · subst he
      rw [if_pos rfl, List.filter_append, List.filter_cons_of_neg (by simp), List.filter_nil,
        List.append_nil]
      refine List.filter_congr fun x hx => ?_
      have hne : x ≠ handler := ne_of_mem_of_not_mem hx hnew₁
      simp [hne]
    · rw [if_neg he]
      refine List.filter_congr fun x _ => ?_
      simp [he]
  · intro p hp
    rw [EventDispatcher.chain_addHandler]
    obtain rfl | hp := List.mem_cons.1 hp
    · simp [List.count_append, List.count_eq_zero.2 hnew₁]
    · have hne : p ≠ (event, handler) := ne_of_mem_of_not_mem hp hown
      split_ifs with he
      · have hne' : handler ≠ p.2 := fun heq => hne (Prod.ext he heq.symm)
        rw [List.count_append, h.once p hp, List.count_singleton]
        simp [hne']
      · exact h.once p hp

/-- Another component registers a function of its own. -/
theorem addHandler_other (h : Extra own d₁ d₂) {event : String} {handler : η}
    (hown : (event, handler) ∉ own) :
    Extra own (d₁.addHandler event handler) (d₂.addHandler event handler) := by
  constructor
  · intro e
    simp only [EventDispatcher.chain_addHandler]
    by_cases he : e = event
    · subst he
      rw [if_pos rfl, if_pos rfl, h.chain e, List.filter_append,
        List.filter_cons_of_pos (by simpa using hown), List.filter_nil]
    · rw [if_neg he, if_neg he, h.chain e]
  · intro p hp
    simp only [EventDispatcher.chain_addHandler]
    split_ifs with he
    · have hne : handler ≠ p.2 := fun heq => hown (heq ▸ he ▸ hp)
      rw [List.count_append, h.once p hp, List.count_singleton]
      simp [hne]
    · exact h.once p hp

/-- Another component removes a function of its own. -/
theorem removeHandler_other (h : Extra own d₁ d₂) {event : String} {handler : η}
    (hown : (event, handler) ∉ own) :
    Extra own ((d₁.removeHandler event handler).getD d₁)
      ((d₂.removeHandler event handler).getD d₂) := by
  have hmem : handler ∈ d₂.chain event ↔ handler ∈ d₁.chain event := by
    rw [h.chain event, List.mem_filter]
    simp [hown]
  by_cases hin : handler ∈ d₁.chain event
  · obtain ⟨d₁', h₁, hchain₁⟩ := EventDispatcher.removeHandler_of_mem hin
    obtain ⟨d₂', h₂, hchain₂⟩ := EventDispatcher.removeHandler_of_mem (hmem.2 hin)
    rw [h₁, h₂, Option.getD_some, Option.getD_some]
    constructor
    · intro e
      rw [hchain₁, hchain₂, h.chain e]
      split_ifs
      · exact List.erase_filter
      · rfl
    · intro p hp
      rw [hchain₁]
      split_ifs with he
      · have hne : p.2 ≠ handler := fun heq => hown (heq ▸ he ▸ hp)
        rw [List.count_erase_of_ne hne, h.once p hp]
      · exact h.once p hp
  · rw [EventDispatcher.removeHandler_of_not_mem hin,
      EventDispatcher.removeHandler_of_not_mem (mt hmem.1 hin), Option.getD_none, Option.getD_none]
    exact h

/-- Other components may do what they like with functions of their own. -/
theorem perform (h : Extra own d₁ d₂) {c : RegistryCall η} (hc : c.target ∉ own) :
    Extra own (c.perform d₁) (c.perform d₂) := by
  cases c with
  | addHandler event handler => exact h.addHandler_other hc
  | removeHandler event handler => exact h.removeHandler_other hc

theorem performAll (h : Extra own d₁ d₂) {calls : List (RegistryCall η)}
    (hcalls : ∀ c ∈ calls, c.target ∉ own) :
    Extra own (calls.foldl (fun d c => c.perform d) d₁)
      (calls.foldl (fun d c => c.perform d) d₂) := by
  induction calls generalizing d₁ d₂ with
  | nil => exact h
  | cons c calls ih =>
    apply ih
    · exact h.perform (hcalls c (by simp))
    · exact fun c' hc' => hcalls c' (by simp [hc'])

theorem congr {own' : List (String × η)} (h : Extra own d₁ d₂) (hmem : ∀ p, p ∈ own' ↔ p ∈ own) :
    Extra own' d₁ d₂ := by
  refine ⟨fun e => ?_, fun p hp => h.once p ((hmem p).1 hp)⟩
  rw [h.chain e]
  exact List.filter_congr fun x _ => by simp [hmem]

theorem addAll {more : List (String × η)} (h : Extra own d₁ d₂) (hnodup : (more ++ own).Nodup)
    (hnew : ∀ p ∈ more, p.2 ∉ d₂.chain p.1) :
    Extra (more.reverse ++ own) (d₁.addAll more) d₂ := by
  induction more generalizing own d₁ with
  | nil => exact h
  | cons p more ih =>
    obtain ⟨hp, hrest⟩ := List.nodup_cons.1 hnodup
    have hadd : Extra (p :: own) (d₁.addHandler p.1 p.2) d₂ :=
      h.addHandler (fun hown => hp (List.mem_append_right _ hown)) (hnew p (by simp))
    rw [List.reverse_cons, List.append_assoc]
    apply ih hadd
    · exact List.nodup_middle.2 (List.nodup_cons.2 ⟨hp, hrest⟩)
    · exact fun q hq => hnew q (by simp [hq])

/-- Removing a function that occurs once leaves what would be there without it. -/
theorem removeHandler {p : String × η} (h : Extra (p :: own) d₁ d₂) (hp : p ∉ own) :
    ∃ d', d₁.removeHandler p.1 p.2 = some d' ∧ Extra own d' d₂ := by
  have hone : (d₁.chain p.1).count p.2 = 1 := h.once p (by simp)
  have hmem : p.2 ∈ d₁.chain p.1 := List.count_pos_iff.1 (by omega)
  obtain ⟨d', hd', hchain⟩ := EventDispatcher.removeHandler_of_mem hmem
  refine ⟨d', hd', fun e => ?_, fun q hq => ?_⟩
  · rw [h.chain e, hchain e]
    split_ifs with he
    · subst he
      rw [erase_eq_filter_of_count_le_one hone.le, List.filter_filter]
      refine List.filter_congr fun x _ => ?_
      by_cases hx : x = p.2
      · subst hx
        simp
      · have hne : (p.1, x) ≠ p := fun heq => hx (congrArg Prod.snd heq)
        simp [hx, hne]
    · refine List.filter_congr fun x _ => ?_
      have hne : (e, x) ≠ p := fun heq => he (congrArg Prod.fst heq)
      simp [hne]
  · rw [hchain]
    have hone' := h.once q (List.mem_cons_of_mem _ hq)
    split_ifs with he
    · have hne : q.2 ≠ p.2 := fun heq => hp (Prod.ext he heq ▸ hq)
      rw [List.count_erase_of_ne hne, hone']
    · exact hone'

theorem removeAll (h : Extra own d₁ d₂) (hnodup : own.Nodup) :
    ∃ d', EventDispatcher.removeAll own d₁ = (d', true) ∧ ∀ e, d'.chain e = d₂.chain e := by
  induction own generalizing d₁ with
  | nil => exact ⟨d₁, rfl, fun e => by simp [h.chain e]⟩
  | cons p own ih =>
    obtain ⟨hp, hrest⟩ := List.nodup_cons.1 hnodup
    obtain ⟨d, hd, hextra⟩ := h.removeHandler hp
    obtain ⟨d', hd', hchain⟩ := ih hextra hrest
    exact ⟨d', by simp only [EventDispatcher.removeAll, hd, hd'], hchain⟩

end Extra

/-! ## The connector -/

/-- The functions that `init` stores in `self`. -/
structure Connector (η : Type) where
  onWorldListNotify : η
  onDisconnected : η
  onDirectoryConnected : η
  onWorldConnected : η
  onUserRegistered : η
  onLoginNotify : η
  onCreatePlayerNotify : η
  deriving DecidableEq, Repr

namespace Connector

/-- The handlers in the order in which `init` adds them. -/
def added (self : Connector η) : List (String × η) :=
  [(ModelEvent.disconnectedFromServer, self.onDisconnected),
    (ModelEvent.directoryConnected, self.onDirectoryConnected),
    (ModelEvent.worldConnected, self.onWorldConnected),
    (ModelEvent.directoryRegisterUserNotify, self.onUserRegistered),
    (ModelEvent.worldListNotify, self.onWorldListNotify),
    (ModelEvent.loginNotify, self.onLoginNotify),
    (ModelEvent.createPlayerNotify, self.onCreatePlayerNotify)]

/-- The handlers in the order in which `deinit` removes them; the first one comes from `sellf`. -/
def removed (sellf self : Connector η) : List (String × η) :=
  [(ModelEvent.worldListNotify, sellf.onWorldListNotify),
    (ModelEvent.disconnectedFromServer, self.onDisconnected),
    (ModelEvent.directoryConnected, self.onDirectoryConnected),
    (ModelEvent.worldConnected, self.onWorldConnected),
    (ModelEvent.directoryRegisterUserNotify, self.onUserRegistered),
    (ModelEvent.loginNotify, self.onLoginNotify),
    (ModelEvent.createPlayerNotify, self.onCreatePlayerNotify)]

def init (self : Connector η) (d : EventDispatcher String η μ) : EventDispatcher String η μ :=
  d.addAll self.added

/-- The handlers of the program are a connector of this kind. -/
theorem init_eq (d : EventDispatcher String Handler LuaMessage) :
    ConnectorHandler.init d = init ⟨.onWorldListNotify, .onDisconnected, .onDirectoryConnected,
      .onWorldConnected, .onUserRegistered, .onLoginNotify, .onCreatePlayerNotify⟩ d := rfl

/-- The global `sellf`: no module defines one of this name, so it is nil. -/
def globalSellf : Option (Connector η) := none

/-- `deinit`, where `sellf` is the value of the global of this name; indexing nil raises an
error. -/
def deinit (sellf : Option (Connector η)) (self : Connector η) (d : EventDispatcher String η μ) :
    EventDispatcher String η μ × Bool :=
  match sellf with
  | some sellf => EventDispatcher.removeAll (removed sellf self) d
  | none => (d, false)

/-- After `init` and the calls of other components `deinit` completes, and every chain is as it
would be without the connector. -/
def Undoes (sellf : Option (Connector η)) (self : Connector η) (d : EventDispatcher String η μ)
    (calls : List (RegistryCall η)) : Prop :=
  let r := deinit sellf self (calls.foldl (fun d c => c.perform d) (self.init d))
  r.2 = true ∧ ∀ event, r.1.chain event = (calls.foldl (fun d c => c.perform d) d).chain event

omit [DecidableEq η] in
theorem nodup_added (self : Connector η) : self.added.Nodup := by
  apply List.Nodup.of_map Prod.fst
  simp only [added, List.map_cons, List.map_nil]
  decide

omit [DecidableEq η] in
theorem nodup_removed (sellf self : Connector η) : (removed sellf self).Nodup := by
  apply List.Nodup.of_map Prod.fst
  simp only [removed, List.map_cons, List.map_nil]
  decide

/-- With `self` in place of `sellf` the functions that `init` has added are removed again, whatever
other components do with theirs. -/
theorem undoes_of_self (self : Connector η) {d : EventDispatcher String η μ}
    {calls : List (RegistryCall η)} (hnew : ∀ p ∈ self.added, p.2 ∉ d.chain p.1)
    (hcalls : ∀ c ∈ calls, c.target ∉ self.added) : Undoes (some self) self d calls := by
  have hmem (p : String × η) : p ∈ removed self self ↔ p ∈ self.added := by
    simp only [removed, added, List.mem_cons]
    tauto
  have hinit : Extra (removed self self) (self.init d) d := by
    have hadd := (Extra.refl d).addAll (by simpa using self.nodup_added) hnew
    exact hadd.congr fun p => by simp [hmem]
  have hothers : ∀ c ∈ calls, c.target ∉ removed self self :=
    fun c hc h => hcalls c hc ((hmem _).1 h)
  have hafter := hinit.performAll hothers
  obtain ⟨d', hd', hchain⟩ := hafter.removeAll (nodup_removed self self)
  refine ⟨?_, fun event => ?_⟩
  · simp only [deinit, hd']
  · simp only [deinit, hd']
    exact hchain event

/-- **`deinit` never undoes `init`.**  It raises an error whatever the registry is, and leaves every
handler of the connector in it. -/
theorem deinit_never_undoes_init (self : Connector η) (d : EventDispatcher String η μ)
    (calls : List (RegistryCall η)) :
    ¬ Undoes globalSellf self d calls ∧
      (deinit globalSellf self (calls.foldl (fun d c => c.perform d) (self.init d))).1 =
        calls.foldl (fun d c => c.perform d) (self.init d) := by
  refine ⟨fun h => ?_, rfl⟩
  exact absurd h.1 (by simp [deinit, globalSellf])

/-- An empty registry and no other components: the seven handlers stay. -/
theorem deinit_keeps_handlers :
    let self : Connector ℕ := ⟨0, 1, 2, 3, 4, 5, 6⟩
    let d : EventDispatcher String ℕ ℕ := .start
    ¬ Undoes globalSellf self d [] ∧
      ∀ p ∈ self.added, (deinit globalSellf self (self.init d)).1.chain p.1 = [p.2] := by
  intro self d
  refine ⟨fun h => ?_, by decide +kernel⟩
  exact absurd h.1 (by simp [deinit, globalSellf])

end Connector

end SockTestProgram
