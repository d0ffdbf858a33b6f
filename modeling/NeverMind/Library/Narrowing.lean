import Mathlib.Algebra.Order.Ring.Nat
import Mathlib.Order.MinMax

/-! Calls that take a long length and pass it on in 16 bits. What they do depends on the length up
to a limit, such as the room or the data that there is, and a length that is reduced modulo
`2 ^ 16` makes a difference exactly if it falls below the limit. -/

namespace NeverMind

/-- A function of a length looks at it up to a limit, and its results tell how far. -/
structure UsesUpTo {ρ : Type*} (limit : ℕ) (ret : ρ → ℤ) (f : ℕ → ρ) : Prop where
  same : ∀ {a b}, min a limit = min b limit → f a = f b
  told : ∀ {a b}, ret (f a) = ret (f b) → min a limit = min b limit

/-- A call passes on a length other than 0 narrowed to 16 bits, and looks at it up to a limit
then. -/
def Narrows {ρ : Type*} (limit : ℕ) (ret : ρ → ℤ) (call : ℕ → ρ) : Prop :=
  ∃ f, UsesUpTo limit ret f ∧ ∀ len, len ≠ 0 → call len = f (len % 2 ^ 16)

section Narrows

variable {ρ σ : Type*} {limit : ℕ} {f : ℕ → ρ} {ret : ρ → ℤ} {call : ℕ → σ} {ret' : σ → ℤ}

theorem usesUpTo_const (ret : ρ → ℤ) (c : ρ) : UsesUpTo 0 ret fun _ => c where
  same := fun _ => rfl
  told := fun _ => by simp

theorem narrows_const (ret' : σ → ℤ) (c : σ) (h : ∀ len, len ≠ 0 → call len = c) :
    Narrows 0 ret' call :=
  ⟨_, usesUpTo_const ret' c, h⟩

/-- A call that stores what another one returned. -/
theorem UsesUpTo.narrows (h : UsesUpTo limit ret f) {w : ρ → σ} (hw : ∀ r, ret' (w r) = ret r)
    (hcall : ∀ len, len ≠ 0 → call len = w (f (len % 2 ^ 16))) : Narrows limit ret' call := by
  refine ⟨fun a => w (f a), ⟨fun hmin => congrArg w (h.same hmin), fun hret => ?_⟩, hcall⟩
  rw [hw, hw] at hret
  exact h.told hret

/-- Narrowing a length, in place of cutting it, makes a difference exactly if the narrowed length
is below the limit. -/
theorem Narrows.eq_iff (h : Narrows limit ret' call) (len : ℕ) :
    call len = call (min len 65535) ↔ len ≤ 65535 ∨ min limit 65535 ≤ len % 2 ^ 16 := by
  by_cases hlen : len ≤ 65535
  · rw [Nat.min_eq_left hlen]
    simp [hlen]
  · obtain ⟨f, huses, hcall⟩ := h
    have hcut : min len 65535 = 65535 := by omega
    have hnarrow : 65535 % 2 ^ 16 = 65535 := by decide
    have hlt : len % 2 ^ 16 < 2 ^ 16 := Nat.mod_lt _ (by decide)
    rw [hcut, hcall len (by omega), hcall 65535 (by decide), hnarrow]
    constructor
    · intro heq
      have hmin := huses.told (congrArg ret' heq)
      omega
    · intro hle
      exact huses.same (by omega)

end Narrows

end NeverMind
