import NeverMind.Library.Overwrite

/-! Lists of which only some positions were written: two of them agree where they were written,
and are related by `R` elsewhere. -/

namespace NeverMind

open List

variable {α : Type*} {R : α → α → Prop} {written : ℕ → Bool} {z l : List α}

/-- The lists have equal entries at the written positions, and related ones elsewhere. -/
structure Agree (R : α → α → Prop) (written : ℕ → Bool) (z l : List α) : Prop where
  length : l.length = z.length
  inside : ∀ p, written p = true → p < z.length
  same : ∀ p, written p = true → l[p]? = z[p]?
  other : ∀ p x y, written p = false → z[p]? = some x → l[p]? = some y → R x y

namespace Agree

theorem nil (R : α → α → Prop) : Agree R (fun _ => false) ([] : List α) [] :=
  ⟨rfl, nofun, nofun, fun p x y _ hx _ => by simp at hx⟩

/-- Filling up with related entries keeps the agreement. -/
theorem padTo (h : Agree R written z l) {n : ℕ} {fill fill' : ℕ → α}
    (hfill : ∀ p, z.length ≤ p → p < n → R (fill p) (fill' p)) :
    Agree R written (padTo n fill z) (padTo n fill' l) := by
  have hlength := h.length
  refine ⟨?_, ?_, ?_, ?_⟩
  · rw [length_padTo, length_padTo, hlength]
  · intro p hp
    rw [length_padTo]
    exact Nat.lt_of_lt_of_le (h.inside p hp) (Nat.le_max_left _ _)
  · intro p hp
    have hlt := h.inside p hp
    rw [getElem?_padTo, getElem?_padTo, hlength, if_pos hlt, if_pos hlt, h.same p hp]
  · intro p x y hp hx hy
    rw [getElem?_padTo] at hx hy
    rw [hlength] at hy
    by_cases hlt : p < z.length
    · rw [if_pos hlt] at hx hy
      exact h.other p x y hp hx hy
    · rw [if_neg hlt] at hx hy
      by_cases hn : p < n
      · rw [if_pos hn] at hx hy
        obtain rfl := Option.some.inj hx
        obtain rfl := Option.some.inj hy
        exact hfill p (by omega) hn
      · rw [if_neg hn] at hx
        cases hx

/-- The same data at the same place makes the place written. -/
theorem overwrite (h : Agree R written z l) {at_ : ℕ} (data : List α) (hat : at_ ≤ z.length) :
    Agree R (fun p => written p || (decide (at_ ≤ p) && decide (p < at_ + data.length)))
      (overwrite at_ data z) (overwrite at_ data l) := by
  have hlength := h.length
  have hat' : at_ ≤ l.length := hlength ▸ hat
  refine ⟨?_, ?_, ?_, ?_⟩
  · rw [length_overwrite hat, length_overwrite hat', hlength]
  · intro p hp
    rw [length_overwrite hat]
    rcases Bool.or_eq_true_iff.mp hp with hold | hnew
    · exact Nat.lt_of_lt_of_le (h.inside p hold) (Nat.le_max_left _ _)
    · simp only [Bool.and_eq_true, decide_eq_true_eq] at hnew
      omega
  · intro p hp
    rw [getElem?_overwrite data hat, getElem?_overwrite data hat']
    by_cases hin : at_ ≤ p ∧ p < at_ + data.length
    · have hback : ¬ p < at_ := by omega
      rw [if_neg hback, if_neg hback, if_pos hin.2, if_pos hin.2]
    · have hold : written p = true := by
        rcases Bool.or_eq_true_iff.mp hp with hold | hnew
        · exact hold
        · simp only [Bool.and_eq_true, decide_eq_true_eq] at hnew
          exact absurd hnew hin
      rw [h.same p hold]
  · intro p x y hp hx hy
    simp only [Bool.or_eq_false_iff, Bool.and_eq_false_iff, decide_eq_false_iff_not] at hp
    rw [getElem?_overwrite data hat] at hx
    rw [getElem?_overwrite data hat'] at hy
    by_cases hfront : p < at_
    · rw [if_pos hfront] at hx hy
      exact h.other p x y hp.1 hx hy
    · have hback : ¬ p < at_ + data.length := by omega
      rw [if_neg hfront, if_neg hback] at hx hy
      exact h.other p x y hp.1 hx hy

/-- A slice agrees at the positions of the slice that were written. -/
theorem slice (h : Agree R written z l) (from_ len : ℕ) :
    Agree R (fun j => decide (j < ((z.drop from_).take len).length) && written (from_ + j))
      ((z.drop from_).take len) ((l.drop from_).take len) := by
  have hlength := h.length
  have hslice : ∀ (m : List α) (j : ℕ), j < len →
      ((m.drop from_).take len)[j]? = m[from_ + j]? := by
    intro m j hj
    rw [List.getElem?_take_of_lt hj, List.getElem?_drop]
  refine ⟨?_, ?_, ?_, ?_⟩
  · rw [length_take, length_take, length_drop, length_drop, hlength]
  · intro j hj
    simp only [Bool.and_eq_true, decide_eq_true_eq] at hj
    exact hj.1
  · intro j hj
    simp only [Bool.and_eq_true, decide_eq_true_eq] at hj
    have hlt : j < len := Nat.lt_of_lt_of_le hj.1 (length_take_le _ _)
    rw [hslice l j hlt, hslice z j hlt, h.same _ hj.2]
  · intro j x y hj hx hy
    obtain ⟨hin, -⟩ := List.getElem?_eq_some_iff.mp hx
    have hlt : j < len := Nat.lt_of_lt_of_le hin (length_take_le _ _)
    rw [hslice _ j hlt] at hx hy
    rw [decide_eq_true hin, Bool.true_and] at hj
    exact h.other _ x y hj hx hy

/-- Lists that were written everywhere are equal. -/
theorem eq (h : Agree R written z l) (hall : ∀ p < z.length, written p = true) : l = z := by
  apply ext_getElem?
  intro p
  by_cases hp : p < z.length
  · exact h.same p (hall p hp)
  · have hp' : ¬ p < l.length := by rwa [h.length]
    rw [List.getElem?_eq_none (by omega), List.getElem?_eq_none (by omega)]

end Agree

end NeverMind
