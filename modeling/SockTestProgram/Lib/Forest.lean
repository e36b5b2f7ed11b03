import Mathlib.Logic.Relation
import Mathlib.Order.Basic

/-!
# Forests

Things inside others, each inside one other thing at most, and made after it.  What is under two
things that are inside the same one is under one of them only.
-/

variable {α : Type*} [Preorder α]

/-- `Inside i j`: `j` is directly inside `i`. -/
structure Forest (Inside : α → α → Prop) : Prop where
  lt : ∀ i j, Inside i j → i < j
  unique : ∀ i i' j, Inside i j → Inside i' j → i = i'

namespace Forest

variable {Inside : α → α → Prop} {i j j' k : α}

/-- `k` is inside `i` at some depth, or is `i`. -/
abbrev Under (Inside : α → α → Prop) (i k : α) : Prop := Relation.ReflTransGen Inside i k

theorem le_of_under (h : Forest Inside) (hk : Under Inside i k) : i ≤ k := by
  induction hk with
  | refl => exact le_rfl
  | tail _ hstep ih => exact ih.trans (h.lt _ _ hstep).le

theorem not_under (h : Forest Inside) (hj : Inside i j) : ¬ Under Inside j i :=
  fun hi => (h.lt i j hj).not_ge (h.le_of_under hi)

/-- What is under two things inside the same one is under one of them. -/
theorem eq_of_under (h : Forest Inside) (hj : Inside i j) (hj' : Inside i j')
    (hk : Under Inside j k) (hk' : Under Inside j' k) : j = j' := by
  -- by induction on the way from `j`; the way from `j'` ends with the same step
  induction hk with
  | refl =>
    obtain rfl | ⟨i', hi', hstep⟩ := hk'.cases_tail
    · rfl
    · obtain rfl := h.unique _ _ _ hj hstep
      exact absurd hi' (h.not_under hj')
  | tail hk hstep ih =>
    obtain rfl | ⟨k', hk', hstep'⟩ := hk'.cases_tail
    · obtain rfl := h.unique _ _ _ hj' hstep
      exact absurd hk (h.not_under hj)
    · obtain rfl := h.unique _ _ _ hstep hstep'
      exact ih hk'

end Forest
