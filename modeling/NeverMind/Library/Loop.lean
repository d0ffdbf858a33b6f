import Mathlib.Data.List.Basic

/-! Counted loops over an explicit state, with the rule that carries a loop
invariant from the lower bound to the upper one. -/

namespace NeverMind

variable {σ : Type*}

/-- Run `body lo`, `body (lo + 1)`, ..., `body (hi - 1)` in this order. -/
def forRange (lo hi : ℕ) (body : ℕ → σ → σ) (s : σ) : σ :=
  (List.range' lo (hi - lo)).foldl (fun s i => body i s) s

theorem forRange_of_le {lo hi : ℕ} (h : hi ≤ lo) (body : ℕ → σ → σ) (s : σ) :
    forRange lo hi body s = s := by
  simp [forRange, Nat.sub_eq_zero_of_le h]

theorem forRange_step {lo hi : ℕ} (h : lo < hi) (body : ℕ → σ → σ) (s : σ) :
    forRange lo hi body s = forRange (lo + 1) hi body (body lo s) := by
  have hlen : hi - lo = (hi - (lo + 1)) + 1 := by omega
  rw [forRange, hlen, List.range'_succ, List.foldl_cons]
  rfl

/-- An invariant that holds at the lower bound and is kept by every iteration
holds at the upper bound. -/
theorem forRange_rule {lo hi : ℕ} {body : ℕ → σ → σ} (I : ℕ → σ → Prop) {s : σ} (hle : lo ≤ hi)
    (hinit : I lo s) (hstep : ∀ i s, lo ≤ i → i < hi → I i s → I (i + 1) (body i s)) :
    I hi (forRange lo hi body s) := by
  induction hn : hi - lo generalizing lo s with
  | zero =>
    have heq : lo = hi := by omega
    subst heq
    rwa [forRange_of_le (Nat.le_refl lo)]
  | succ n ih =>
    have hlt : lo < hi := by omega
    rw [forRange_step hlt]
    apply ih (by omega) (hstep lo s (Nat.le_refl lo) hlt hinit) _ (by omega)
    intro i s hi' hlt'
    exact hstep i s (by omega) hlt'

end NeverMind
