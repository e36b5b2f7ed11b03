import Mathlib.Logic.Function.Basic
import Mathlib.Data.Option.Basic

/-!
# Memo tables

A memo table answers for a function that may change while the table is in use.  `lookup` returns the
entry of a key, or computes it and enters it.  The function is given by what it ought to answer (`f
: κ → Option ν`, `none` where there is no answer) and by what is computed (`c : κ → ν`).  As long as
the answers of `f` only grow, and no key without an answer is looked up, every entry is an answer of
`f` (`Valid`).
-/

namespace Memo

variable {κ ν : Type*}

/-- Every entry of the table is an answer of `f`. -/
def Valid (f t : κ → Option ν) : Prop := ∀ k v, t k = some v → f k = some v

/-- What `f` answers, `g` answers too. -/
def Extends (f g : κ → Option ν) : Prop := ∀ k v, f k = some v → g k = some v

theorem Extends.refl (f : κ → Option ν) : Extends f f := fun _ _ h => h

theorem Extends.trans {f g h : κ → Option ν} (hfg : Extends f g) (hgh : Extends g h) :
    Extends f h :=
  fun k v hk => hgh k v (hfg k v hk)

theorem valid_empty (f : κ → Option ν) : Valid f fun _ => none := fun _ _ h => by simp at h

theorem Valid.extends {f g t : κ → Option ν} (h : Valid f t) (hfg : Extends f g) : Valid g t :=
  fun k v hk => hfg k v (h k v hk)

variable [DecidableEq κ]

/-- The entry of a key, entered if it is missing. -/
def lookup (c : κ → ν) (t : κ → Option ν) (k : κ) : (κ → Option ν) × ν :=
  match t k with
  | some v => (t, v)
  | none => (Function.update t k (some (c k)), c k)

variable {f t : κ → Option ν} {c : κ → ν} {k : κ}

/-- A key with an answer gets it, and the table stays valid. -/
theorem Valid.lookup_of_some {v : ν} (h : Valid f t) (hk : f k = some v) (hc : c k = v) :
    (lookup c t k).2 = v ∧ Valid f (lookup c t k).1 := by
  unfold lookup
  cases ht : t k with
  | some w => exact ⟨Option.some.inj ((h k w ht).symm.trans hk), h⟩
  | none =>
    refine ⟨hc, fun j w hj => ?_⟩
    change Function.update t k (some (c k)) j = some w at hj
    by_cases hjk : j = k
    · subst hjk
      rw [Function.update_self, hc] at hj
      exact hk.trans hj
    · rw [Function.update_of_ne hjk] at hj
      exact h j w hj

/-- A key without an answer gets what is computed. -/
theorem Valid.lookup_of_none (h : Valid f t) (hk : f k = none) : (lookup c t k).2 = c k := by
  unfold lookup
  cases ht : t k with
  | some w => exact absurd (h k w ht) (by simp [hk])
  | none => rfl

end Memo
