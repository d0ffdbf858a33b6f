import Mathlib.Data.List.Basic
import Mathlib.Data.List.TakeDrop
import Mathlib.Data.List.Range

/-! Lists held in the front of an unbounded buffer, and overwriting a part of them. -/

namespace NeverMind

open List

variable {α : Type*}

/-- The first `n` cells of a buffer. -/
def frontOf (n : ℕ) (buf : ℕ → α) : List α := (range n).map buf

/-- The list with `data` in place of what stands from position `at_` on; it grows if `data` goes
past its end. -/
def overwrite (at_ : ℕ) (data l : List α) : List α :=
  l.take at_ ++ data ++ l.drop (at_ + data.length)

/-- The list, filled up to length `n` with what `fill` holds at the missing positions. -/
def padTo (n : ℕ) (fill : ℕ → α) (l : List α) : List α := l ++ (frontOf n fill).drop l.length

@[simp] theorem length_frontOf (n : ℕ) (buf : ℕ → α) : (frontOf n buf).length = n := by
  simp [frontOf]

@[simp] theorem getElem_frontOf {n i : ℕ} (buf : ℕ → α) (h : i < (frontOf n buf).length) :
    (frontOf n buf)[i] = buf i := by
  simp [frontOf]

variable {at_ : ℕ}

theorem length_overwrite {data l : List α} (h : at_ ≤ l.length) :
    (overwrite at_ data l).length = max l.length (at_ + data.length) := by
  simp only [overwrite, length_append, length_take, length_drop]
  omega

theorem length_padTo (n : ℕ) (fill : ℕ → α) (l : List α) :
    (padTo n fill l).length = max l.length n := by
  simp only [padTo, length_append, length_drop, length_frontOf]
  omega

theorem padTo_of_le {n : ℕ} {l : List α} (fill : ℕ → α) (h : n ≤ l.length) :
    padTo n fill l = l := by
  rw [padTo, drop_of_length_le (by simpa using h), append_nil]

theorem getElem?_frontOf (n : ℕ) (buf : ℕ → α) (i : ℕ) :
    (frontOf n buf)[i]? = if i < n then some (buf i) else none := by
  by_cases hi : i < n
  · simp [frontOf, hi]
  · simp [frontOf, hi]

theorem getElem?_padTo (n : ℕ) (fill : ℕ → α) (l : List α) (i : ℕ) :
    (padTo n fill l)[i]? =
      if i < l.length then l[i]? else if i < n then some (fill i) else none := by
  unfold padTo
  by_cases hi : i < l.length
  · rw [if_pos hi, getElem?_append_left hi]
  · rw [if_neg hi, getElem?_append_right (by omega), getElem?_drop,
      show l.length + (i - l.length) = i by omega, getElem?_frontOf]

/-- The front of a buffer, filled up from the buffer itself, is a longer front. -/
theorem padTo_frontOf (n m : ℕ) (buf : ℕ → α) :
    padTo n buf (frontOf m buf) = frontOf (max m n) buf := by
  apply ext_getElem?
  intro i
  rw [getElem?_padTo, length_frontOf, getElem?_frontOf, getElem?_frontOf]
  by_cases hm : i < m
  · rw [if_pos hm, if_pos hm, if_pos (by omega)]
  · rw [if_neg hm]
    by_cases hn : i < n
    · rw [if_pos hn, if_pos (by omega)]
    · rw [if_neg hn, if_neg (by omega)]

theorem getElem?_overwrite {l : List α} (data : List α) (h : at_ ≤ l.length) (i : ℕ) :
    (overwrite at_ data l)[i]? =
      if i < at_ then l[i]? else if i < at_ + data.length then data[i - at_]? else l[i]? := by
  have hlen : (l.take at_).length = at_ := by
    rw [length_take, Nat.min_eq_left h]
  unfold overwrite
  by_cases hfront : i < at_
  · rw [if_pos hfront, append_assoc, getElem?_append_left (by omega), getElem?_take_of_lt hfront]
  · rw [if_neg hfront]
    by_cases hmid : i < at_ + data.length
    · rw [if_pos hmid, getElem?_append_left (by simp; omega),
        getElem?_append_right (by omega), hlen]
    · rw [if_neg hmid, getElem?_append_right (by simp; omega), getElem?_drop,
        length_append, hlen, show at_ + data.length + (i - (at_ + data.length)) = i by omega]

/-- A part of the front of a buffer. -/
theorem take_drop_frontOf {n len : ℕ} (buf : ℕ → α) (h : at_ + len ≤ n) :
    ((frontOf n buf).drop at_).take len = frontOf len fun k => buf (at_ + k) := by
  apply ext_getElem
  · simp only [length_take, length_drop, length_frontOf]
    omega
  · intro i hi hi'
    simp [frontOf]

/-- The same, cut at the end of the front. -/
theorem take_drop_frontOf_of_lt {n : ℕ} (len : ℕ) (buf : ℕ → α) (h : at_ < n) :
    ((frontOf n buf).drop at_).take len =
      frontOf (if len < n - at_ then len else n - at_) fun k => buf (at_ + k) := by
  by_cases hlen : len < n - at_
  · rw [if_pos hlen, take_drop_frontOf buf (by omega)]
  · have hdrop : ((frontOf n buf).drop at_).length = n - at_ := by
      rw [length_drop, length_frontOf]
    have hall := take_drop_frontOf buf (show at_ + (n - at_) ≤ n by omega)
    rw [take_of_length_le (by omega)] at hall
    rw [if_neg hlen, take_of_length_le (by omega), hall]

/-- Storing into a buffer overwrites the list in its front. -/
theorem frontOf_store {n : ℕ} {buf : ℕ → α} {data : List α} {stored : ℕ → α} (hat : at_ ≤ n)
    (hin : ∀ k (hk : k < data.length), stored (at_ + k) = data[k])
    (hout : ∀ k < n, k < at_ ∨ at_ + data.length ≤ k → stored k = buf k) :
    frontOf (max n (at_ + data.length)) stored = overwrite at_ data (frontOf n buf) := by
  apply ext_getElem
  · rw [length_frontOf, length_overwrite (by simpa using hat), length_frontOf]
  · intro i hi hi'
    rw [getElem_frontOf]
    have hlen : (take at_ (frontOf n buf)).length = at_ := by
      rw [length_take, length_frontOf, Nat.min_eq_left hat]
    simp only [overwrite]
    by_cases hfront : i < at_
    · rw [getElem_append_left (by simp; omega), getElem_append_left (by simp; omega)]
      simp [hout i (by omega) (.inl hfront)]
    · by_cases hmid : i < at_ + data.length
      · rw [getElem_append_left (by simp; omega), getElem_append_right (by omega)]
        have hk := hin (i - at_) (by omega)
        rw [show at_ + (i - at_) = i by omega] at hk
        simp only [hlen]
        exact hk
      · have hlt : i < n := by
          rw [length_frontOf] at hi
          omega
        rw [getElem_append_right (by simp; omega), hout i hlt (.inr (by omega))]
        simp only [getElem_drop, getElem_frontOf, length_append, hlen]
        congr 1
        omega

end NeverMind
