import Mathlib.Data.Fintype.Basic
import Mathlib.Data.Multiset.Filter
import Mathlib.Data.Finset.Card
import Mathlib.Data.Fintype.Card
import Mathlib.Data.List.FinRange

/-! Tables of slots that are empty or hold one element, seen as the multiset of what they
hold, and as the list of it in the order of the slots. -/

namespace NeverMind.Slots

open List Function

variable {ι α : Type*} [Fintype ι] {f g : ι → Option α} {i : ι} {x : α}

/-- The elements that a table holds. -/
def held (f : ι → Option α) : Multiset α := Finset.univ.val.filterMap f

theorem held_eq_zero (h : ∀ i, f i = none) : held f = 0 := by
  rw [held, Multiset.eq_zero_iff_forall_notMem]
  intro x hx
  obtain ⟨i, -, hi⟩ := (Multiset.mem_filterMap _ _).mp hx
  rw [h i] at hi
  cases hi

section Order

variable {α : Type*} {n : ℕ} {f : Fin n → Option α} {k : Fin n} {x : α}

/-- The elements of a table in the order of its slots. -/
def inOrder (f : Fin n → Option α) : List α := (finRange n).filterMap f

/-- The elements in front of a slot. -/
def before (f : Fin n → Option α) (k : Fin n) : List α :=
  ((finRange n).filter fun j => decide (j < k)).filterMap f

/-- The elements behind a slot. -/
def behind (f : Fin n → Option α) (k : Fin n) : List α :=
  ((finRange n).filter fun j => decide (k < j)).filterMap f

theorem coe_inOrder (f : Fin n → Option α) : (inOrder f : Multiset α) = held f := rfl

theorem finRange_split (k : Fin n) :
    finRange n = ((finRange n).filter fun j => decide (j < k)) ++
      k :: (finRange n).filter fun j => decide (k < j) := by
  obtain ⟨a, b, hsplit⟩ := append_of_mem (mem_finRange k)
  have hsorted := pairwise_lt_finRange n
  rw [hsplit, pairwise_append, pairwise_cons] at hsorted
  obtain ⟨-, ⟨hb, -⟩, ha⟩ := hsorted
  have hlt : ∀ j ∈ a, j < k := fun j hj => ha j hj k mem_cons_self
  rw [hsplit]
  simp only [filter_append, filter_cons, lt_self_iff_false, decide_false,
    Bool.false_eq_true, if_false]
  rw [filter_eq_self.mpr (fun j hj => decide_eq_true (hlt j hj)),
    filter_eq_self.mpr (fun j hj => decide_eq_true (hb j hj)),
    filter_eq_nil_iff.mpr (fun j hj => by simpa using (hb j hj).le),
    filter_eq_nil_iff.mpr (fun j hj => by simpa using (hlt j hj).le)]
  simp

/-- The order of a table after one slot is written. -/
theorem inOrder_update (f : Fin n → Option α) (k : Fin n) (v : Option α) :
    inOrder (update f k v) = before f k ++ (v.toList ++ behind f k) := by
  have hkeep : ∀ l : List (Fin n), k ∉ l → l.filterMap (update f k v) = l.filterMap f := by
    intro l hl
    apply filterMap_congr
    intro j hj
    rw [update_of_ne]
    rintro rfl
    exact hl hj
  rw [inOrder, finRange_split k, filterMap_append, filterMap_cons, update_self,
    hkeep _ (by simp), hkeep _ (by simp)]
  cases v <;> rfl

theorem inOrder_eq (f : Fin n → Option α) (k : Fin n) :
    inOrder f = before f k ++ ((f k).toList ++ behind f k) := by
  rw [← inOrder_update, update_eq_self]

theorem before_eq_nil (h : ∀ j < k, f j = none) : before f k = [] := by
  rw [before, filterMap_eq_nil_iff]
  intro j hj
  exact h j (by simpa using hj)

/-- A search from the front finds the first slot. -/
theorem eq_false_of_lt_find? {p : Fin n → Bool} (h : (finRange n).find? p = some k) :
    ∀ j < k, p j = false := by
  intro j hj
  obtain ⟨-, i, hi, hk, hbefore⟩ := find?_eq_some_iff_getElem.mp h
  have hik : i = k.val := by simpa using congrArg Fin.val hk
  simpa using hbefore j.val (by rw [hik]; exact hj)

/-- An element can go to the front of a list as well as to its end if it is the only one. -/
theorem concat_eq_cons {l : List α} : l ++ [x] = x :: l ↔ ∀ y ∈ l, y = x := by
  induction l with
  | nil => simp
  | cons y l ih =>
    rw [cons_append, cons.injEq, forall_mem_cons]
    constructor
    · rintro ⟨rfl, htail⟩
      exact ⟨rfl, ih.mp htail⟩
    · rintro ⟨rfl, htail⟩
      exact ⟨rfl, ih.mpr htail⟩

theorem mem_behind : x ∈ behind f k ↔ ∃ j, k < j ∧ f j = some x := by
  simp [behind]

end Order

end NeverMind.Slots
