import Mathlib.Data.Finset.Basic

/-! Service of the least: when only a member with the least value is ever raised, the
values over a finite set stay within one raise of each other. -/

namespace NeverMind

variable {ι : Type*} {S : Finset ι} {v v' : ι → ℕ} {c : ι} {d : ℕ}

/-- Any two values over `S` differ by at most `d`. -/
def Spread (S : Finset ι) (v : ι → ℕ) (d : ℕ) : Prop := ∀ i ∈ S, ∀ j ∈ S, v i ≤ v j + d

/-- No value over `S` is below the value at `c`. -/
def LeastIn (S : Finset ι) (v : ι → ℕ) (c : ι) : Prop := ∀ j ∈ S, v c ≤ v j

theorem spread_of_equal (h : ∀ i ∈ S, ∀ j ∈ S, v i = v j) (d : ℕ) : Spread S v d := by
  intro i hi j hj
  rw [h i hi j hj]
  exact Nat.le_add_right _ _

/-- Raising the least member by at most the bound keeps the bound. -/
theorem Spread.raise (h : Spread S v d) (hothers : ∀ j, j ≠ c → v' j = v j)
    (hup : v c ≤ v' c) (hraise : c ∈ S → LeastIn S v c ∧ v' c ≤ v c + d) : Spread S v' d := by
  intro i hi j hj
  by_cases hic : i = c
  · subst hic
    obtain ⟨hleast, hbound⟩ := hraise hi
    by_cases hji : j = i
    · subst hji
      exact Nat.le_add_right _ _
    · rw [hothers j hji]
      exact hbound.trans (Nat.add_le_add_right (hleast j hj) d)
  · rw [hothers i hic]
    by_cases hjc : j = c
    · subst hjc
      exact (h i hi j hj).trans (Nat.add_le_add_right hup d)
    · rw [hothers j hjc]
      exact h i hi j hj

end NeverMind
