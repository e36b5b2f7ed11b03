import Mathlib.Data.List.Basic
import Mathlib.Data.List.Perm.Basic
import Mathlib.Data.List.Nodup
import Mathlib.Data.Fintype.Card
import Mathlib.Logic.Function.Iterate

/-!
# Hash tables with chains inside the table

A table is a list of slots.  The entries of one home slot are on a chain of links through the table
itself: an entry whose home slot is taken goes to a free slot, which is linked in behind a slot of
the chain.  Chains of different home slots may run together.  What an entry needs to be found is
that it is on the chain of its home slot, and that chains end (`Threaded`); both ways to add an
entry keep it.
-/

namespace Chained

variable {κ ν : Type*}

structure Slot (κ ν : Type*) where
  entry : Option (κ × ν)
  /-- The next slot of the chain. -/
  next : Option ℕ
  deriving DecidableEq, Repr

abbrev Table (κ ν : Type*) : Type _ := List (Slot κ ν)

namespace Table

def empty (n : ℕ) : Table κ ν := List.replicate n ⟨none, none⟩

def entryAt (t : Table κ ν) (i : ℕ) : Option (κ × ν) := t[i]?.bind Slot.entry

def nextAt (t : Table κ ν) (i : ℕ) : Option ℕ := t[i]?.bind Slot.next

def entries (t : Table κ ν) : List (κ × ν) := t.filterMap Slot.entry

def isFree (t : Table κ ν) (i : ℕ) : Bool := t[i]?.any fun s => s.entry.isNone

/-- Put an entry in a slot. -/
def place (t : Table κ ν) (h : ℕ) (e : κ × ν) : Table κ ν :=
  t.modify h fun s => { s with entry := some e }

/-- Put an entry in the slot `i`, and link it in behind the slot `h`. -/
def link (t : Table κ ν) (h i : ℕ) (e : κ × ν) : Table κ ν :=
  (t.modify h fun s => { s with next := some i }).set i ⟨some e, t.nextAt h⟩

/-- Search for a free slot, along a walk. -/
def probe (t : Table κ ν) (walk : ℕ → ℕ) : ℕ → ℕ → ℕ
  | 0, i => i
  | n + 1, i => if t.isFree i then i else probe t walk n (walk i)

/-- Search for the slot of a key, along a chain. -/
def seek [DecidableEq κ] (t : Table κ ν) (k : κ) : ℕ → ℕ → Option ℕ
  | 0, _ => none
  | n + 1, i =>
    if (t.entryAt i).map Prod.fst = some k then some i else (t.nextAt i).bind (seek t k n)

/-- The last slot of the chain from a slot on. -/
def last (t : Table κ ν) : ℕ → ℕ → ℕ
  | 0, i => i
  | n + 1, i =>
    match t.nextAt i with
    | none => i
    | some j => last t n j

/-- Search for the value of a key. -/
def find [DecidableEq κ] (t : Table κ ν) (k : κ) (n i : ℕ) : Option ν :=
  (t.seek k n i).bind fun j => (t.entryAt j).map Prod.snd

variable {t : Table κ ν} {h i j : ℕ} {e : κ × ν} {l : List ℕ}

/-! ## Slots -/

theorem isFree_iff : t.isFree i = true ↔ i < t.length ∧ t.entryAt i = none := by
  unfold isFree entryAt
  by_cases hi : i < t.length
  · simp [hi]
  · simp [hi]

theorem lt_of_entryAt (he : t.entryAt i = some e) : i < t.length := by
  obtain ⟨s, hs, -⟩ := Option.bind_eq_some_iff.1 he
  exact (List.getElem?_eq_some_iff.1 hs).1

theorem mem_entries_iff : e ∈ t.entries ↔ ∃ i, t.entryAt i = some e := by
  unfold entries entryAt
  rw [List.mem_filterMap]
  constructor
  · rintro ⟨s, hs, he⟩
    obtain ⟨i, hi⟩ := List.mem_iff_getElem?.1 hs
    exact ⟨i, by rw [hi, Option.bind_some, he]⟩
  · rintro ⟨i, hi⟩
    obtain ⟨s, hs, he⟩ := Option.bind_eq_some_iff.1 hi
    exact ⟨s, List.mem_iff_getElem?.2 ⟨i, hs⟩, he⟩

@[simp] theorem length_empty (n : ℕ) : (empty n : Table κ ν).length = n := List.length_replicate

@[simp] theorem entries_empty (n : ℕ) : (empty n : Table κ ν).entries = [] := by
  unfold entries empty
  rw [List.filterMap_replicate_of_none rfl]

theorem nextAt_empty (n i : ℕ) : (empty n : Table κ ν).nextAt i = none := by
  unfold nextAt empty
  rw [List.getElem?_replicate]
  split_ifs <;> rfl

theorem entryAt_empty (n i : ℕ) : (empty n : Table κ ν).entryAt i = none := by
  unfold entryAt empty
  rw [List.getElem?_replicate]
  split_ifs <;> rfl

@[simp] theorem length_place : (t.place h e).length = t.length := List.length_modify ..

theorem entryAt_place (hh : h < t.length) (i : ℕ) :
    (t.place h e).entryAt i = if i = h then some e else t.entryAt i := by
  unfold entryAt place
  rw [List.getElem?_modify]
  split_ifs with h₁ h₂ h₂
  · subst h₁
    simp [List.getElem?_eq_getElem hh]
  · exact absurd h₁.symm h₂
  · exact absurd h₂.symm h₁
  · simp

theorem nextAt_place (h i : ℕ) : (t.place h e).nextAt i = t.nextAt i := by
  unfold nextAt place
  rw [List.getElem?_modify]
  split_ifs <;> cases t[i]? <;> rfl

@[simp] theorem length_link : (t.link h i e).length = t.length := by
  unfold link
  rw [List.length_set, List.length_modify]

theorem entryAt_link (hi : i < t.length) (j : ℕ) :
    (t.link h i e).entryAt j = if j = i then some e else t.entryAt j := by
  unfold entryAt link
  rw [List.getElem?_set, List.getElem?_modify, List.length_modify]
  by_cases hji : j = i
  · subst hji
    simp [hi]
  · rw [if_neg (Ne.symm hji), if_neg hji]
    cases t[j]? with
    | none => rfl
    | some s => split_ifs <;> rfl

theorem nextAt_link (hh : h < t.length) (hi : i < t.length) (hne : h ≠ i) (j : ℕ) :
    (t.link h i e).nextAt j =
      if j = i then t.nextAt h else if j = h then some i else t.nextAt j := by
  conv_lhs => unfold nextAt link
  rw [List.getElem?_set, List.getElem?_modify, List.length_modify]
  by_cases hji : j = i
  · subst hji
    simp [hi]
  · rw [if_neg (Ne.symm hji), if_neg hji]
    by_cases hjh : j = h
    · subst hjh
      simp [List.getElem?_eq_getElem hh]
    · simp only [if_neg (Ne.symm hjh), if_neg hjh]
      unfold nextAt
      cases t[j]? <;> rfl

/-! ## Entries -/

theorem entries_split (hi : i < t.length) :
    t.entries = entries (t.take i) ++ (t.entryAt i).toList ++ entries (t.drop (i + 1)) := by
  conv_lhs => rw [← List.take_append_drop i t, List.drop_eq_getElem_cons hi]
  unfold entries entryAt
  rw [List.filterMap_append, List.filterMap_cons, List.getElem?_eq_getElem hi, Option.bind_some]
  cases t[i].entry <;> simp

theorem entries_set {s : Slot κ ν} (hi : i < t.length) (hs : s.entry = some e) :
    entries (t.set i s) = entries (t.take i) ++ [e] ++ entries (t.drop (i + 1)) := by
  rw [List.set_eq_take_append_cons_drop, if_pos hi]
  unfold entries
  rw [List.filterMap_append, List.filterMap_cons_some hs]
  simp

theorem perm_entries_set {s : Slot κ ν} (hi : i < t.length) (hfree : t.entryAt i = none)
    (hs : s.entry = some e) : (entries (t.set i s)).Perm (e :: t.entries) := by
  rw [entries_set hi hs, entries_split hi, hfree]
  simp only [Option.toList_none, List.append_nil, List.append_assoc, List.singleton_append]
  exact List.perm_middle

theorem place_eq_set (hi : i < t.length) (e : κ × ν) :
    t.place i e = t.set i { t[i] with entry := some e } := by
  unfold place
  rw [List.modify_eq_set_getElem?, List.getElem?_eq_getElem hi]
  rfl

theorem perm_entries_place (hi : i < t.length) (hfree : t.entryAt i = none) :
    (t.place i e).entries.Perm (e :: t.entries) := by
  rw [place_eq_set hi]
  exact perm_entries_set hi hfree rfl

theorem length_entries_overwrite (he : (t.entryAt i).isSome = true) :
    (t.place i e).entries.length = t.entries.length := by
  obtain ⟨e₀, he₀⟩ := Option.isSome_iff_exists.1 he
  have hi := lt_of_entryAt he₀
  rw [place_eq_set hi, entries_split hi, he₀]
  unfold Table.entries
  rw [show List.filterMap Slot.entry (t.set i _) = _ from entries_set (e := e) hi rfl]
  simp [entries]

theorem entries_modify_next (t : Table κ ν) (h : ℕ) (n : Option ℕ) :
    entries (t.modify h fun s => { s with next := n }) = t.entries := by
  induction t generalizing h with
  | nil => cases h <;> rfl
  | cons s t ih =>
    cases h with
    | zero => rfl
    | succ h =>
      rw [List.modify_succ_cons]
      unfold entries at ih ⊢
      simp only [List.filterMap_cons, ih]

theorem perm_entries_link (hi : i < t.length) (hfree : t.entryAt i = none) :
    (t.link h i e).entries.Perm (e :: t.entries) := by
  have hfree' : entryAt (t.modify h fun s => { s with next := some i }) i = none := by
    unfold entryAt at hfree ⊢
    rw [List.getElem?_modify]
    split_ifs <;> cases ht : t[i]? <;> simp_all
  unfold link
  rw [← entries_modify_next t h (some i)]
  exact perm_entries_set (by simpa using hi) hfree' rfl

/-- As long as there are fewer entries than slots, a slot is free. -/
theorem exists_free (h : t.entries.length < t.length) : ∃ i, i < t.length ∧ t.entryAt i = none := by
  by_contra hno
  push Not at hno
  refine absurd h (Nat.not_lt.2 ?_)
  unfold entries
  rw [List.length_filterMap_eq_countP, List.countP_eq_length.2]
  intro s hs
  obtain ⟨i, hi, rfl⟩ := List.mem_iff_getElem.1 hs
  have := hno i hi
  rw [entryAt, List.getElem?_eq_getElem hi, Option.bind_some] at this
  exact Option.isSome_iff_ne_none.2 this

/-- A walk that comes to a free slot finds one. -/
theorem isFree_probe {walk : ℕ → ℕ} {n m : ℕ} (hm : m ≤ n) (hfree : t.isFree (walk^[m] i) = true) :
    t.isFree (t.probe walk n i) = true := by
  induction n generalizing i m with
  | zero =>
    obtain rfl := Nat.le_zero.1 hm
    exact hfree
  | succ n ih =>
    rw [probe]
    split_ifs with hi
    · exact hi
    · cases m with
      | zero => exact absurd hfree hi
      | succ m => exact ih (Nat.le_of_succ_le_succ hm) hfree

/-! ## Chains -/

/-- The slots that are visited from a slot on. -/
inductive Chain (t : Table κ ν) : ℕ → List ℕ → Prop
  | last {i : ℕ} : i < t.length → t.nextAt i = none → Chain t i [i]
  | cons {i j : ℕ} {l : List ℕ} : t.nextAt i = some j → Chain t j l → Chain t i (i :: l)

theorem lt_of_nextAt (hj : t.nextAt i = some j) : i < t.length := by
  obtain ⟨s, hs, -⟩ := Option.bind_eq_some_iff.1 hj
  exact (List.getElem?_eq_some_iff.1 hs).1

namespace Chain

theorem lt (hc : Chain t i l) : ∀ j ∈ l, j < t.length := by
  induction hc with
  | last hi _ => simpa using hi
  | cons hj _ ih => simpa using ⟨lt_of_nextAt hj, ih⟩

theorem head_mem (hc : Chain t i l) : i ∈ l := by
  cases hc with
  | last _ _ => simp
  | cons _ _ => simp

theorem unique {l' : List ℕ} (hc : Chain t i l) (hc' : Chain t i l') : l = l' := by
  induction hc generalizing l' with
  | last _ hnone =>
    cases hc' with
    | last _ _ => rfl
    | cons hj _ => simp [hnone] at hj
  | cons hj _ ih =>
    cases hc' with
    | last _ hnone => simp [hnone] at hj
    | cons hj' hl' =>
      obtain rfl := Option.some.inj (hj.symm.trans hj')
      rw [ih hl']

/-- From every slot of a chain on there is the rest of it. -/
theorem suffix (hc : Chain t i l) {j : ℕ} (hj : j ∈ l) : ∃ l', Chain t j l' ∧ l' <:+ l := by
  induction hc with
  | last hi hnone =>
    obtain rfl := List.mem_singleton.1 hj
    exact ⟨_, .last hi hnone, List.suffix_refl _⟩
  | cons hn hl ih =>
    rcases List.mem_cons.1 hj with rfl | hj
    · exact ⟨_, .cons hn hl, List.suffix_refl _⟩
    · obtain ⟨l', hl', hsuffix⟩ := ih hj
      exact ⟨l', hl', hsuffix.trans (List.suffix_cons _ _)⟩

/-- No slot is visited twice. -/
theorem nodup (hc : Chain t i l) : l.Nodup := by
  induction hc with
  | last _ _ => simp
  | @cons i j l hn hl ih =>
    refine List.nodup_cons.2 ⟨fun hmem => ?_, ih⟩
    -- a chain that comes back to its first slot is a part of itself
    obtain ⟨l', hl', hsuffix⟩ := hl.suffix hmem
    obtain rfl := hl'.unique (.cons hn hl)
    exact absurd hsuffix.length_le (by simp)

theorem length_le (hc : Chain t i l) : l.length ≤ t.length := by
  have hsub : l ⊆ List.range t.length := fun j hj => List.mem_range.2 (hc.lt j hj)
  simpa using (hc.nodup.subperm hsub).length_le

end Chain

theorem seek_of_chain [DecidableEq κ] {k : κ} {n : ℕ} (hc : Chain t i l) (hn : l.length ≤ n) :
    t.seek k n i = l.find? fun j => (t.entryAt j).map Prod.fst = some k := by
  induction hc generalizing n with
  | @last i _ hnone =>
    obtain ⟨n, rfl⟩ : ∃ m, n = m + 1 := ⟨n - 1, by simp at hn; omega⟩
    rw [seek, hnone]
    by_cases hk : (t.entryAt i).map Prod.fst = some k <;> simp [hk]
  | @cons i j l hj _ ih =>
    obtain ⟨n, rfl⟩ : ∃ m, n = m + 1 := ⟨n - 1, by simp at hn; omega⟩
    rw [seek, hj, Option.bind_some, ih (by simpa using hn)]
    by_cases hk : (t.entryAt i).map Prod.fst = some k <;> simp [hk]

theorem last_mem_of_chain {n : ℕ} (hc : Chain t i l) (hn : l.length ≤ n) : t.last n i ∈ l := by
  induction hc generalizing n with
  | @last i _ hnone =>
    cases n with
    | zero => exact List.mem_singleton.2 rfl
    | succ n =>
      rw [last, hnone]
      exact List.mem_singleton.2 rfl
  | @cons i j l hj _ ih =>
    obtain ⟨n, rfl⟩ : ∃ m, n = m + 1 := ⟨n - 1, by simp at hn; omega⟩
    rw [last, hj]
    exact List.mem_cons_of_mem i (ih (by simpa using hn))

/-! ## Threaded tables -/

/-- Chains end, they run through entries only, and every entry is on the chain of its home slot. -/
structure Threaded (home : κ → ℕ) (t : Table κ ν) : Prop where
  chain : ∀ i < t.length, ∃ l, Chain t i l
  linked : ∀ i j, t.nextAt i = some j → (t.entryAt i).isSome = true ∧ (t.entryAt j).isSome = true
  reach : ∀ i k v, t.entryAt i = some (k, v) → ∃ l, Chain t (home k) l ∧ i ∈ l

variable {home : κ → ℕ}

theorem threaded_empty (home : κ → ℕ) (n : ℕ) : Threaded home (empty n : Table κ ν) where
  chain i hi := ⟨[i], .last hi (nextAt_empty n i)⟩
  linked i j hj := by simp [nextAt_empty] at hj
  reach i k v he := by simp [entryAt_empty] at he

theorem Chain.place (hc : Chain t i l) (h : ℕ) (e : κ × ν) : Chain (t.place h e) i l := by
  induction hc with
  | last hi hnone => exact .last (by simpa using hi) (by rw [nextAt_place, hnone])
  | cons hj _ ih => exact .cons (by rw [nextAt_place, hj]) ih

theorem Threaded.place (ht : Threaded home t) (hlt : home e.1 < t.length)
    (hfree : t.entryAt (home e.1) = none) : Threaded home (t.place (home e.1) e) where
  chain i hi := by
    obtain ⟨l, hl⟩ := ht.chain i (by simpa using hi)
    exact ⟨l, hl.place _ _⟩
  linked i j hj := by
    rw [nextAt_place] at hj
    obtain ⟨hsource, htarget⟩ := ht.linked i j hj
    rw [entryAt_place hlt, entryAt_place hlt]
    constructor <;> split_ifs <;> simp [hsource, htarget]
  reach i k v he := by
    rw [entryAt_place hlt] at he
    split_ifs at he with hi
    · obtain rfl := Option.some.inj he
      obtain ⟨l, hl⟩ := ht.chain _ hlt
      exact ⟨l, hl.place _ _, hi ▸ hl.head_mem⟩
    · obtain ⟨l, hl, hmem⟩ := ht.reach i k v he
      exact ⟨l, hl.place _ _, hmem⟩

/-- A chain after the slot `i` was linked in behind the slot `h`. -/
def splice (h i : ℕ) (l : List ℕ) : List ℕ := l.flatMap fun j => if j = h then [h, i] else [j]

theorem mem_splice {h i j : ℕ} {l : List ℕ} (hj : j ∈ l) : j ∈ splice h i l := by
  refine List.mem_flatMap.2 ⟨j, hj, ?_⟩
  split_ifs with hjh <;> simp [hjh]

theorem mem_splice_of_mem {h i : ℕ} {l : List ℕ} (hh : h ∈ l) : i ∈ splice h i l :=
  List.mem_flatMap.2 ⟨h, hh, by simp⟩

/-- A chain that avoids a slot takes it in behind `h`. -/
theorem Chain.link (hc : Chain t j l) (hh : h < t.length) (hi : i < t.length) (hne : h ≠ i)
    (havoid : i ∉ l) (e : κ × ν) : Chain (t.link h i e) j (splice h i l) := by
  have hnext (m : ℕ) := nextAt_link (e := e) hh hi hne m
  have hi' : i < (t.link h i e).length := by simpa using hi
  have hbehind : (t.link h i e).nextAt h = some i := by
    rw [hnext, if_neg hne, if_pos rfl]
  have hlast : (t.link h i e).nextAt i = t.nextAt h := by rw [hnext, if_pos rfl]
  induction hc with
  | @last m hm hnone =>
    by_cases hmh : m = h
    · subst hmh
      have : splice m i [m] = [m, i] := by simp [splice]
      rw [this]
      exact .cons hbehind (.last hi' (by rw [hlast, hnone]))
    · have : splice h i [m] = [m] := by simp [splice, hmh]
      rw [this]
      have hmi : m ≠ i := fun heq => havoid (by simp [heq])
      exact .last (by simpa using hm) (by rw [hnext, if_neg hmi, if_neg hmh, hnone])
  | @cons m j l hj _ ih =>
    have hrest := ih fun hmem => havoid (by simp [hmem])
    by_cases hmh : m = h
    · subst hmh
      have : splice m i (m :: l) = m :: i :: splice m i l := by simp [splice]
      rw [this]
      exact .cons hbehind (.cons (by rw [hlast, hj]) hrest)
    · have : splice h i (m :: l) = m :: splice h i l := by simp [splice, hmh]
      rw [this]
      have hmi : m ≠ i := fun heq => havoid (by simp [heq])
      exact .cons (by rw [hnext, if_neg hmi, if_neg hmh, hj]) hrest

/-- Behind its first slot a chain comes to entries only. -/
theorem Threaded.avoids (ht : Threaded home t) (hc : Chain t j l) (hi : t.entryAt i = none)
    (hne : j ≠ i) : i ∉ l := by
  induction hc with
  | last _ _ => simpa using Ne.symm hne
  | @cons m j l hj _ ih =>
    have hji : j ≠ i := by
      rintro rfl
      simpa [hi] using (ht.linked m j hj).2
    simpa [Ne.symm hne] using ih hji

/-- The chain of a slot that is taken comes to taken slots only. -/
theorem Threaded.occupied (ht : Threaded home t) (hc : Chain t j l)
    (hj : (t.entryAt j).isSome = true) :
    ∀ m ∈ l, (t.entryAt m).isSome = true := by
  induction hc with
  | last _ _ => simpa using hj
  | cons hn _ ih => simpa using ⟨hj, ih (ht.linked _ _ hn).2⟩

/-- An entry goes to a free slot, behind a slot of its chain. -/
theorem Threaded.link (ht : Threaded home t) {l₀ : List ℕ} (hl₀ : Chain t (home e.1) l₀)
    (hh : h ∈ l₀) (hoccupied : (t.entryAt h).isSome = true) (hi : i < t.length)
    (hfree : t.entryAt i = none) :
    Threaded home (t.link h i e) := by
  have hlt := hl₀.lt h hh
  have hne : h ≠ i := by
    rintro rfl
    simp [hfree] at hoccupied
  have hhome : home e.1 ≠ i := by
    intro heq
    -- an empty slot is on no chain but its own
    rw [heq] at hl₀
    cases hl₀ with
    | last _ _ => exact hne (List.mem_singleton.1 hh)
    | cons hn _ => simpa [hfree] using (ht.linked _ _ hn).1
  have hnext (m : ℕ) := nextAt_link (e := e) hlt hi hne m
  have hchain {j : ℕ} {l : List ℕ} (hl : Chain t j l) (hji : j ≠ i) :
      Chain (t.link h i e) j (splice h i l) :=
    hl.link hlt hi hne (ht.avoids hl hfree hji) e
  refine ⟨fun j hj => ?_, fun m j hj => ?_, fun j k v he => ?_⟩
  · by_cases hji : j = i
    · -- the new slot is on the chain of its home slot
      subst hji
      obtain ⟨l, hl, -⟩ := (hchain hl₀ hhome).suffix (mem_splice_of_mem hh)
      exact ⟨l, hl⟩
    · obtain ⟨l, hl⟩ := ht.chain j (by simpa using hj)
      exact ⟨_, hchain hl hji⟩
  · rw [hnext] at hj
    rw [entryAt_link hi, entryAt_link hi]
    split_ifs at hj with hmi hmh
    · obtain ⟨-, htarget⟩ := ht.linked _ _ hj
      refine ⟨by simp [hmi], ?_⟩
      split_ifs <;> simp [htarget]
    · obtain rfl := Option.some.inj hj
      simp [hmh, hne, hoccupied]
    · obtain ⟨hsource, htarget⟩ := ht.linked _ _ hj
      refine ⟨by simp [hmi, hsource], ?_⟩
      split_ifs <;> simp [htarget]
  · rw [entryAt_link hi] at he
    split_ifs at he with hji
    · obtain rfl := Option.some.inj he
      exact ⟨_, hchain hl₀ hhome, hji ▸ mem_splice_of_mem hh⟩
    · obtain ⟨l, hl, hmem⟩ := ht.reach j k v he
      have hhome' : home k ≠ i := by
        rintro heq
        -- from an empty slot no entry is reached
        rw [heq] at hl
        cases hl with
        | last _ _ => exact hji (List.mem_singleton.1 hmem)
        | cons hn _ => simpa [hfree] using (ht.linked _ _ hn).1
      exact ⟨_, hchain hl hhome', mem_splice hmem⟩

/-- Another value for a key. -/
theorem Threaded.overwrite (ht : Threaded home t) (he : (t.entryAt i).map Prod.fst = some e.1) :
    Threaded home (t.place i e) where
  chain j hj := by
    obtain ⟨l, hl⟩ := ht.chain j (by simpa using hj)
    exact ⟨l, hl.place _ _⟩
  linked m j hj := by
    obtain ⟨e', he', -⟩ := Option.map_eq_some_iff.1 he
    rw [nextAt_place] at hj
    obtain ⟨hsource, htarget⟩ := ht.linked m j hj
    rw [entryAt_place (lt_of_entryAt he'), entryAt_place (lt_of_entryAt he')]
    constructor <;> split_ifs <;> simp [hsource, htarget]
  reach j k v hj := by
    obtain ⟨⟨k', v'⟩, he', hk : k' = e.1⟩ := Option.map_eq_some_iff.1 he
    rw [entryAt_place (lt_of_entryAt he')] at hj
    split_ifs at hj with hji
    · obtain rfl := Option.some.inj hj
      obtain rfl : k' = k := hk
      obtain ⟨l, hl, hmem⟩ := ht.reach i k' v' he'
      exact ⟨l, hl.place _ _, hji ▸ hmem⟩
    · obtain ⟨l, hl, hmem⟩ := ht.reach j k v hj
      exact ⟨l, hl.place _ _, hmem⟩

/-! ## The map that a table holds -/

/-- The table holds the values of `f`, each key in one slot. -/
structure Represents (home : κ → ℕ) (t : Table κ ν) (f : κ → Option ν) : Prop where
  threaded : Threaded home t
  one : ∀ i j k v w, t.entryAt i = some (k, v) → t.entryAt j = some (k, w) → i = j
  holds : ∀ k v, (∃ i, t.entryAt i = some (k, v)) ↔ f k = some v

variable {f : κ → Option ν}

theorem represents_empty (home : κ → ℕ) (n : ℕ) :
    Represents home (empty n : Table κ ν) fun _ => none where
  threaded := threaded_empty home n
  one i j k v w he := by simp [entryAt_empty] at he
  holds k v := by simp [entryAt_empty]

/-- A key without a slot has no value. -/
theorem Represents.fresh (hr : Represents home t f) (hk : f e.1 = none) (j : ℕ) (v : ν) :
    t.entryAt j ≠ some (e.1, v) := fun hj => by simpa [hk] using (hr.holds e.1 v).1 ⟨j, hj⟩

/-- The slot `i`, which was free, got the entry of a new key. -/
theorem Represents.add [DecidableEq κ] {t' : Table κ ν} (hr : Represents home t f)
    (hk : f e.1 = none) (ht : Threaded home t')
    (hentry : ∀ j, t'.entryAt j = if j = i then some e else t.entryAt j)
    (hfree : t.entryAt i = none) : Represents home t' (Function.update f e.1 (some e.2)) where
  threaded := ht
  one j m k v w hj hm := by
    rw [hentry] at hj hm
    split_ifs at hj hm with hji hmi hmi
    · rw [hji, hmi]
    · obtain rfl := Option.some.inj hj
      exact absurd hm (hr.fresh hk m w)
    · obtain rfl := Option.some.inj hm
      exact absurd hj (hr.fresh hk j v)
    · exact hr.one j m k v w hj hm
  holds k v := by
    constructor
    · rintro ⟨j, hj⟩
      rw [hentry] at hj
      split_ifs at hj with hji
      · obtain rfl := Option.some.inj hj
        exact Function.update_self ..
      · have hne : k ≠ e.1 := by
          rintro rfl
          exact hr.fresh hk j v hj
        rw [Function.update_of_ne hne]
        exact (hr.holds k v).1 ⟨j, hj⟩
    · intro hv
      by_cases hke : k = e.1
      · subst hke
        rw [Function.update_self, Option.some.injEq] at hv
        exact ⟨i, by rw [hentry, if_pos rfl, ← hv]⟩
      · rw [Function.update_of_ne hke] at hv
        obtain ⟨j, hj⟩ := (hr.holds k v).2 hv
        have hji : j ≠ i := by
          rintro rfl
          simp [hfree] at hj
        exact ⟨j, by rw [hentry, if_neg hji, hj]⟩

theorem Represents.place [DecidableEq κ] (hr : Represents home t f) (hk : f e.1 = none)
    (hfree : t.isFree (home e.1) = true) :
    Represents home (t.place (home e.1) e) (Function.update f e.1 (some e.2)) := by
  obtain ⟨hlt, hnone⟩ := isFree_iff.1 hfree
  exact hr.add hk (hr.threaded.place hlt hnone) (entryAt_place hlt) hnone

theorem Represents.link [DecidableEq κ] (hr : Represents home t f) (hk : f e.1 = none) {l₀ : List ℕ}
    (hl₀ : Chain t (home e.1) l₀) (hh : h ∈ l₀) (hoccupied : t.isFree (home e.1) = false)
    (hfree : t.isFree i = true) :
    Represents home (t.link h i e) (Function.update f e.1 (some e.2)) := by
  obtain ⟨hi, hnone⟩ := isFree_iff.1 hfree
  have hsome : (t.entryAt (home e.1)).isSome = true := by
    rw [Option.isSome_iff_ne_none]
    intro hnone
    rw [isFree_iff.2 ⟨hl₀.lt _ hl₀.head_mem, hnone⟩] at hoccupied
    cases hoccupied
  exact hr.add hk (hr.threaded.link hl₀ hh (hr.threaded.occupied hl₀ hsome h hh) hi hnone)
    (entryAt_link hi) hnone

/-- Another value for a key. -/
theorem Represents.overwrite [DecidableEq κ] (hr : Represents home t f)
    (he : (t.entryAt i).map Prod.fst = some e.1) :
    Represents home (t.place i e) (Function.update f e.1 (some e.2)) := by
  obtain ⟨⟨k₀, v₀⟩, he₀, hk₀ : k₀ = e.1⟩ := Option.map_eq_some_iff.1 he
  subst hk₀
  have hentry := entryAt_place (e := e) (lt_of_entryAt he₀)
  refine ⟨hr.threaded.overwrite he, fun j m k v w hj hm => ?_, fun k v => ?_⟩
  · rw [hentry] at hj hm
    split_ifs at hj hm with hji hmi hmi
    · rw [hji, hmi]
    · obtain rfl := Option.some.inj hj
      exact hji.trans (hr.one _ _ _ _ _ he₀ hm)
    · obtain rfl := Option.some.inj hm
      exact (hr.one _ _ _ _ _ hj he₀).trans hmi.symm
    · exact hr.one _ _ _ _ _ hj hm
  · constructor
    · rintro ⟨j, hj⟩
      rw [hentry] at hj
      split_ifs at hj with hji
      · obtain rfl := Option.some.inj hj
        exact Function.update_self ..
      · have hne : k ≠ e.1 := by
          rintro rfl
          exact hji (hr.one _ _ _ _ _ hj he₀)
        rw [Function.update_of_ne hne]
        exact (hr.holds k v).1 ⟨j, hj⟩
    · intro hv
      by_cases hke : k = e.1
      · subst hke
        rw [Function.update_self, Option.some.injEq] at hv
        exact ⟨i, by rw [hentry, if_pos rfl, ← hv]⟩
      · rw [Function.update_of_ne hke] at hv
        obtain ⟨j, hj⟩ := (hr.holds k v).2 hv
        have hji : j ≠ i := by
          rintro rfl
          rw [he₀] at hj
          exact hke (congrArg Prod.fst (Option.some.inj hj)).symm
        exact ⟨j, by rw [hentry, if_neg hji, hj]⟩

/-- A search ends at the slot of the key, if it has one. -/
theorem Represents.seek_eq_some_iff [DecidableEq κ] (hr : Represents home t f) {k : κ}
    (hlt : home k < t.length) :
    t.seek k t.length (home k) = some i ↔ (t.entryAt i).map Prod.fst = some k := by
  obtain ⟨l, hl⟩ := hr.threaded.chain _ hlt
  rw [seek_of_chain hl hl.length_le]
  constructor
  · exact fun hfind => by simpa using List.find?_some hfind
  · intro hi
    obtain ⟨⟨k', v⟩, he, hk' : k' = k⟩ := Option.map_eq_some_iff.1 hi
    subst hk'
    obtain ⟨l', hl', hil⟩ := hr.threaded.reach i k' v he
    obtain rfl := hl'.unique hl
    cases hfind : l'.find? fun j => (t.entryAt j).map Prod.fst = some k' with
    | none => simpa [hi] using List.find?_eq_none.1 hfind i hil
    | some j =>
      have hj : (t.entryAt j).map Prod.fst = some k' := by simpa using List.find?_some hfind
      obtain ⟨⟨k'', w⟩, he', hk'' : k'' = k'⟩ := Option.map_eq_some_iff.1 hj
      subst hk''
      rw [hr.one _ _ _ _ _ he' he]

theorem Represents.seek_eq_none_iff [DecidableEq κ] (hr : Represents home t f) {k : κ}
    (hlt : home k < t.length) : t.seek k t.length (home k) = none ↔ f k = none := by
  constructor
  · intro hseek
    cases hk : f k with
    | none => rfl
    | some v =>
      obtain ⟨i, hi⟩ := (hr.holds k v).2 hk
      have := (hr.seek_eq_some_iff hlt (i := i)).2 (by rw [hi]; rfl)
      simp [hseek] at this
  · intro hk
    cases hseek : t.seek k t.length (home k) with
    | none => rfl
    | some i =>
      obtain ⟨⟨k', v⟩, he, hk' : k' = k⟩ :=
        Option.map_eq_some_iff.1 ((hr.seek_eq_some_iff hlt).1 hseek)
      subst hk'
      simpa [hk] using (hr.holds k' v).1 ⟨i, he⟩

/-- A search finds what the map holds. -/
theorem Represents.find_eq [DecidableEq κ] (hr : Represents home t f) {k : κ}
    (hlt : home k < t.length) : t.find k t.length (home k) = f k := by
  unfold find
  cases hseek : t.seek k t.length (home k) with
  | none => exact ((hr.seek_eq_none_iff hlt).1 hseek).symm
  | some i =>
    obtain ⟨⟨k', v⟩, he, hk' : k' = k⟩ :=
      Option.map_eq_some_iff.1 ((hr.seek_eq_some_iff hlt).1 hseek)
    subst hk'
    rw [Option.bind_some, he]
    exact ((hr.holds k' v).1 ⟨i, he⟩).symm

/-- No key has two entries. -/
theorem Represents.nodup_keys (hr : Represents home t f) : (t.entries.map Prod.fst).Nodup := by
  have hpair : t.Pairwise fun s s' => ∀ e ∈ s.entry, ∀ e' ∈ s'.entry, e.1 ≠ e'.1 := by
    rw [List.pairwise_iff_getElem]
    intro i j hi hj hij e he e' he' heq
    have hat {m : ℕ} (hm : m < t.length) : t.entryAt m = t[m].entry := by
      rw [entryAt, List.getElem?_eq_getElem hm, Option.bind_some]
    have := hr.one i j e.1 e.2 e'.2 (by rw [hat hi]; exact he) (by rw [hat hj, heq]; exact he')
    omega
  unfold entries
  rw [List.nodup_iff_pairwise_ne, List.pairwise_map, List.pairwise_filterMap]
  exact hpair

/-! ## Lists of entries -/

/-- The values of a list of entries. -/
def values [DecidableEq κ] (es : List (κ × ν)) (k : κ) : Option ν :=
  (es.find? (·.1 = k)).map Prod.snd

theorem values_eq_some_iff [DecidableEq κ] {es : List (κ × ν)} (hes : (es.map Prod.fst).Nodup)
    {k : κ} {v : ν} : values es k = some v ↔ (k, v) ∈ es := by
  unfold values
  constructor
  · intro h
    obtain ⟨⟨k', v'⟩, hfind, hv : v' = v⟩ := Option.map_eq_some_iff.1 h
    have hk : k' = k := by simpa using List.find?_some hfind
    rw [← hk, ← hv]
    exact List.mem_of_find?_eq_some hfind
  · intro hmem
    cases hfind : es.find? (·.1 = k) with
    | none => simpa using List.find?_eq_none.1 hfind _ hmem
    | some e =>
      have hk : e.1 = k := by simpa using List.find?_some hfind
      obtain rfl := List.inj_on_of_nodup_map hes (List.mem_of_find?_eq_some hfind) hmem hk
      rfl

/-- Entries with different keys are added one by one, as long as there is room. -/
theorem foldl_add [DecidableEq κ] {σ : Type*} {add : σ → κ × ν → σ}
    {I : σ → (κ → Option ν) → ℕ → Prop} {P : κ × ν → Prop} {n : ℕ}
    (hadd : ∀ st f c e, I st f c → c < n → P e → f e.1 = none →
      I (add st e) (Function.update f e.1 (some e.2)) (c + 1))
    {es : List (κ × ν)} {st : σ} {c : ℕ} (hP : ∀ e ∈ es, P e) (hes : (es.map Prod.fst).Nodup)
    (hroom : c + es.length ≤ n) (hI : I st f c) (hnew : ∀ e ∈ es, f e.1 = none) :
    I (es.foldl add st) (fun k => (values es k).or (f k)) (c + es.length) := by
  induction es generalizing st f c with
  | nil => simpa [values] using hI
  | cons e es ih =>
    rw [List.map_cons, List.nodup_cons] at hes
    rw [List.length_cons] at hroom
    have hI' := hadd st f c e hI (by omega) (hP e (by simp)) (hnew e (by simp))
    have hne (e' : κ × ν) (he' : e' ∈ es) : e'.1 ≠ e.1 := fun heq =>
      hes.1 (heq ▸ List.mem_map_of_mem he')
    have hmap : (fun k => (values (e :: es) k).or (f k)) =
        fun k => (values es k).or (Function.update f e.1 (some e.2) k) := by
      funext k
      by_cases hk : k = e.1
      · subst hk
        have hnone : values es e.1 = none := by
          unfold values
          rw [List.find?_eq_none.2 fun e' he' => by simpa using hne e' he']
          rfl
        rw [hnone, Function.update_self]
        simp [values]
      · rw [Function.update_of_ne hk]
        simp [values, Ne.symm hk]
    rw [List.foldl_cons, hmap, List.length_cons,
      show c + (es.length + 1) = c + 1 + es.length by omega]
    refine ih (fun e' he' => hP e' (by simp [he'])) hes.2 (by omega) hI' fun e' he' => ?_
    rw [Function.update_of_ne (hne e' he')]
    exact hnew e' (by simp [he'])

/-! ## Filling a table -/

/-- Add an entry to a table.  The search for a free slot goes on where the last one stopped. -/
def fillStep (home : κ → ℕ) (st : Table κ ν × ℕ) (e : κ × ν) : Table κ ν × ℕ :=
  if st.1.isFree (home e.1) then (st.1.place (home e.1) e, st.2)
  else
    let i := st.1.probe (· + 1) st.1.length st.2
    (st.1.link (home e.1) i e, i)

/-- A table of the given entries, with as many slots. -/
def fill (home : κ → ℕ) (es : List (κ × ν)) : Table κ ν :=
  (es.foldl (fillStep home) (empty es.length, 0)).1

/-- No slot is free before the place where the search goes on. -/
structure Filling (n : ℕ) (st : Table κ ν × ℕ) : Prop where
  length : st.1.length = n
  passed : ∀ i < st.2, st.1.isFree i = false

theorem iterate_succ (m i : ℕ) : (· + 1)^[m] i = i + m := by
  induction m generalizing i with
  | zero => rfl
  | succ m ih =>
    rw [Function.iterate_succ_apply, ih]
    omega

/-- As long as a slot is free, the search finds it. -/
theorem Filling.isFree_probe {n : ℕ} {st : Table κ ν × ℕ} (hf : Filling n st)
    (hroom : st.1.entries.length < n) :
    st.1.isFree (st.1.probe (· + 1) st.1.length st.2) = true := by
  obtain ⟨i, hi, hnone⟩ := exists_free (hf.length ▸ hroom)
  have hfree : st.1.isFree i = true := isFree_iff.2 ⟨hi, hnone⟩
  have hle : st.2 ≤ i := by
    by_contra hlt
    rw [hf.passed i (by omega)] at hfree
    cases hfree
  refine Table.isFree_probe (m := i - st.2) (by omega) ?_
  rw [iterate_succ, Nat.add_sub_cancel' hle, hfree]

/-- The slots that the search passes are not free. -/
theorem isFree_of_lt_probe {n : ℕ} (hij : i ≤ j) (hj : j < t.probe (· + 1) n i) :
    t.isFree j = false := by
  induction n generalizing i with
  | zero =>
    rw [probe] at hj
    omega
  | succ n ih =>
    rw [probe] at hj
    split_ifs at hj with hi
    · omega
    · by_cases hji : j = i
      · subst hji
        simpa using hi
      · exact ih (by omega) hj

/-- What `fillStep` does when there is room. -/
theorem fillStep_spec [DecidableEq κ] {n : ℕ} {st : Table κ ν × ℕ} (hf : Filling n st)
    (hr : Represents home st.1 f) (hroom : st.1.entries.length < n) (hlt : home e.1 < n)
    (hk : f e.1 = none) :
    Represents home (fillStep home st e).1 (Function.update f e.1 (some e.2)) ∧
      (fillStep home st e).1.entries.Perm (e :: st.1.entries) ∧ Filling n (fillStep home st e) := by
  have hlt' : home e.1 < st.1.length := hf.length ▸ hlt
  unfold fillStep
  cases hhome : st.1.isFree (home e.1) with
  | true =>
    obtain ⟨-, hnone⟩ := isFree_iff.1 hhome
    refine ⟨hr.place hk hhome, perm_entries_place hlt' hnone, by simpa using hf.length, ?_⟩
    intro i hi
    have hold := hf.passed i hi
    rw [Bool.eq_false_iff, ne_eq, isFree_iff] at hold ⊢
    simp only [if_true, length_place, entryAt_place hlt']
    rintro ⟨hilt, hnone'⟩
    split_ifs at hnone' with hih
    exact hold ⟨hilt, hnone'⟩
  | false =>
    have hfree := hf.isFree_probe hroom
    obtain ⟨hi, hnone⟩ := isFree_iff.1 hfree
    obtain ⟨l₀, hl₀⟩ := hr.threaded.chain _ hlt'
    refine ⟨hr.link hk hl₀ hl₀.head_mem hhome hfree, perm_entries_link hi hnone,
      by simpa using hf.length, ?_⟩
    intro j (hj : j < st.1.probe (· + 1) st.1.length st.2)
    have hold : st.1.isFree j = false := by
      by_cases hpassed : j < st.2
      · exact hf.passed j hpassed
      · exact isFree_of_lt_probe (by omega) hj
    rw [Bool.eq_false_iff, ne_eq, isFree_iff] at hold ⊢
    simp only [Bool.false_eq_true, if_false, length_link, entryAt_link hi, if_neg hj.ne]
    exact hold

/-- A filled table holds the entries it was filled with. -/
theorem represents_fill [DecidableEq κ] {es : List (κ × ν)} (hhome : ∀ e ∈ es, home e.1 < es.length)
    (hes : (es.map Prod.fst).Nodup) :
    (fill home es).length = es.length ∧ Represents home (fill home es) (values es) := by
  let I (st : Table κ ν × ℕ) (f : κ → Option ν) (c : ℕ) : Prop :=
    Filling es.length st ∧ st.1.entries.length = c ∧ Represents home st.1 f
  have hadd (st : Table κ ν × ℕ) (f : κ → Option ν) (c : ℕ) (e : κ × ν) (hI : I st f c)
      (hc : c < es.length) (he : home e.1 < es.length) (hk : f e.1 = none) :
      I (fillStep home st e) (Function.update f e.1 (some e.2)) (c + 1) := by
    obtain ⟨hf, rfl, hr⟩ := hI
    obtain ⟨hr', hperm, hf'⟩ := fillStep_spec hf hr hc he hk
    exact ⟨hf', by simpa using hperm.length_eq, hr'⟩
  have hstart : I (empty es.length, 0) (fun _ => none) 0 :=
    ⟨⟨length_empty _, by simp⟩, by simp, represents_empty home es.length⟩
  obtain ⟨hf, -, hr⟩ := foldl_add hadd hhome hes (by omega) hstart fun _ _ => rfl
  simp only [Option.or_none] at hr
  exact ⟨hf.length, hr⟩

end Table

end Chained
