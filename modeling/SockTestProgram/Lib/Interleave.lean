import Mathlib.Data.List.Infix
import Mathlib.Data.List.Basic
import Mathlib.Logic.Function.Basic

/-!
# Interleavings

A list is an interleaving of a family of lists if its elements can be assigned to the members of
the family so that each member gets its own elements in its own order (`Interleaving`).  A family
that is put on a stream member by member, each only after the ones before it are complete
(`InOrder`), makes the stream a beginning of the concatenation (`flatMap_range_isPrefix`).
-/

namespace Interleave

variable {ι α : Type*} [DecidableEq ι]

/-- The elements of the list, each given to a member of the family, make up the family. -/
def Interleaving (l : List α) (parts : ι → List α) : Prop :=
  ∃ given : List (ι × α), given.map Prod.snd = l ∧
    ∀ i, (given.filter (·.1 = i)).map Prod.snd = parts i

theorem interleaving_nil : Interleaving [] (fun _ : ι => ([] : List α)) := ⟨[], rfl, fun _ => rfl⟩

/-- Elements of one member are put on the stream. -/
theorem Interleaving.append {l : List α} {parts : ι → List α} (h : Interleaving l parts) (i : ι)
    (xs : List α) : Interleaving (l ++ xs) (Function.update parts i (parts i ++ xs)) := by
  obtain ⟨given, rfl, hparts⟩ := h
  refine ⟨given ++ xs.map (i, ·), by simp [Function.comp_def], fun j => ?_⟩
  rw [List.filter_append, List.map_append, hparts j]
  by_cases hij : i = j
  · subst hij
    rw [Function.update_self, List.filter_eq_self.2 (by simp)]
    simp [Function.comp_def]
  · rw [Function.update_of_ne (Ne.symm hij), List.filter_eq_nil_iff.2 (by simp [hij])]
    simp

/-- A member has elements on the stream only after the ones before it are complete. -/
def InOrder (parts whole : ℕ → List α) : Prop := ∀ a b, a < b → parts b ≠ [] → parts a = whole a

/-- If the members after `n` have no elements yet, more of member `n` goes to the end. -/
theorem flatMap_range_update {parts : ℕ → List α} {n N : ℕ} (hn : n < N)
    (hlater : ∀ b, n < b → parts b = []) (xs : List α) :
    (List.range N).flatMap (Function.update parts n (parts n ++ xs)) =
      (List.range N).flatMap parts ++ xs := by
  induction N with
  | zero => omega
  | succ N ih =>
    rw [List.range_succ, List.flatMap_append, List.flatMap_append, List.flatMap_singleton,
      List.flatMap_singleton]
    rcases Nat.lt_succ_iff_lt_or_eq.1 hn with hlt | rfl
    · rw [ih hlt, Function.update_of_ne (by omega), hlater N hlt, List.append_nil, List.append_nil]
    · have hbefore : (List.range n).flatMap (Function.update parts n (parts n ++ xs)) =
          (List.range n).flatMap parts := by
        refine List.flatMap_congr fun m hm => Function.update_of_ne ?_ _ _
        exact (List.mem_range.1 hm).ne
      rw [hbefore, Function.update_self, List.append_assoc]

/-- Parts that are in order are together the beginning of the whole. -/
theorem InOrder.flatMap_isPrefix {parts whole : ℕ → List α} (h : InOrder parts whole)
    (hpart : ∀ n, parts n <+: whole n) (N : ℕ) :
    (List.range N).flatMap parts <+: (List.range N).flatMap whole := by
  induction N with
  | zero => exact List.prefix_rfl
  | succ N ih =>
    rw [List.range_succ, List.flatMap_append, List.flatMap_append, List.flatMap_singleton,
      List.flatMap_singleton]
    by_cases hnil : parts N = []
    · rw [hnil, List.append_nil]
      exact ih.trans (List.prefix_append _ _)
    · have hcomplete : (List.range N).flatMap parts = (List.range N).flatMap whole :=
        List.flatMap_congr fun m hm => h m N (List.mem_range.1 hm) hnil
      rw [hcomplete]
      exact (List.prefix_append_right_inj _).2 (hpart N)

end Interleave
