import Mathlib.Algebra.BigOperators.Group.Finset.Piecewise
import Mathlib.Algebra.BigOperators.Fin
import Mathlib.Algebra.BigOperators.Pi
import Mathlib.Data.Fintype.BigOperators
import Mathlib.Algebra.Order.BigOperators.Group.Finset

/-! # Tallies over tables

Sums and counts over the cells of a table, and what the update of one cell does to them. -/

namespace NeverMind.Tally

open Finset Function

variable {ι α : Type*} [Fintype ι] [DecidableEq ι]

/-- An updated cell trades its old contribution for the new one. -/
theorem sum_update_add (f : α → ℕ) (g : ι → α) (i : ι) (b : α) :
    ∑ x, f (update g i b x) + f (g i) = ∑ x, f (g x) + f b := by
  have hupdate : ∀ x, f (update g i b x) = update (f ∘ g) i (f b) x := by
    intro x
    by_cases hx : x = i
    · subst hx
      simp
    · simp [hx]
  simp only [hupdate]
  have hsplit := add_sum_erase univ (f ∘ g) (mem_univ i)
  rw [sum_update_of_mem (mem_univ i), sdiff_singleton_eq_erase]
  simp only [comp_apply] at hsplit ⊢
  omega

theorem card_filter_update_add (P : α → Prop) [DecidablePred P] (g : ι → α) (i : ι) (b : α) :
    (univ.filter fun x => P (update g i b x)).card + (if P (g i) then 1 else 0) =
      (univ.filter fun x => P (g x)).card + (if P b then 1 else 0) := by
  simp only [card_filter]
  exact sum_update_add (fun a => if P a then 1 else 0) g i b

/-- A cell counts for at most one of distinct values. -/
theorem sum_card_filter_le {κ : Type*} [Fintype κ] [DecidableEq α] {e : κ → α}
    (he : Injective e) (g : ι → α) :
    ∑ j, (univ.filter fun x => g x = e j).card ≤ Fintype.card ι := by
  classical
  have hdisjoint : ∀ j ∈ (univ : Finset κ), ∀ j' ∈ (univ : Finset κ), j ≠ j' →
      Disjoint (univ.filter fun x => g x = e j) (univ.filter fun x => g x = e j') := by
    intro j _ j' _ hne
    rw [disjoint_filter]
    intro x _ hx hx'
    exact hne (he (hx.symm.trans hx'))
  rw [← card_biUnion hdisjoint]
  exact card_le_univ _

end NeverMind.Tally
