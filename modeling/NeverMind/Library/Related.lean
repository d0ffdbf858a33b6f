import Mathlib.Data.Option.Basic

/-! # Related partial computations

`Option.Rel r x y`: both computations fail, or both give a result and `r` relates the results. -/

namespace NeverMind

open Option

variable {α β γ δ : Type*} {r : α → β → Prop} {q : γ → δ → Prop} {x : Option α} {y : Option β}

theorem rel_bind {f : α → Option γ} {g : β → Option δ} (h : Rel r x y)
    (hnext : ∀ a b, r a b → Rel q (f a) (g b)) : Rel q (x.bind f) (y.bind g) := by
  cases h with
  | none => exact .none
  | some hab => exact hnext _ _ hab

theorem rel_map {f : α → γ} {g : β → δ} (h : Rel r x y)
    (hnext : ∀ a b, r a b → q (f a) (g b)) : Rel q (x.map f) (y.map g) := by
  cases h with
  | none => exact .none
  | some hab => exact .some (hnext _ _ hab)

theorem rel_map_left {q : γ → β → Prop} {f : α → γ} (h : Rel r x y)
    (hnext : ∀ a b, r a b → q (f a) b) : Rel q (x.map f) y := by
  simpa using rel_map (g := id) h hnext

theorem rel_map_right {q : α → δ → Prop} {g : β → δ} (h : Rel r x y)
    (hnext : ∀ a b, r a b → q a (g b)) : Rel q x (y.map g) := by
  simpa using rel_map (f := id) h hnext

/-- Results that the two sides can be read as are equal. -/
theorem map_eq_of_rel {f : α → γ} {g : β → γ} (h : Rel r x y)
    (hsame : ∀ a b, r a b → f a = g b) : x.map f = y.map g := by
  cases h with
  | none => rfl
  | some hab => exact congrArg some (hsame _ _ hab)

end NeverMind
