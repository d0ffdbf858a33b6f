import Mathlib.Data.List.Nodup

/-! Singly linked lists: the cells that following a link visits, up to its end. -/

namespace NeverMind

variable {α : Type*} {next next' : α → Option α} {start : Option α} {l : List α}

/-- Following `next` from `start` visits exactly the cells of the list. -/
inductive Chain (next : α → Option α) : Option α → List α → Prop where
  | nil : Chain next none []
  | cons {a : α} {l : List α} (h : Chain next (next a) l) : Chain next (some a) (a :: l)

/-- A loop that follows the links until a cell satisfies `p`. -/
def searchLinks (p : α → Bool) (next : α → Option α) : ℕ → Option α → Option (Option α)
  | 0, _ => none
  | _ + 1, none => some none
  | fuel + 1, some a => if p a then some (some a) else searchLinks p next fuel (next a)

namespace Chain

@[simp] theorem nil_iff : Chain next start [] ↔ start = none := by
  constructor
  · intro h
    cases h
    rfl
  · rintro rfl
    exact .nil

@[simp] theorem cons_iff {b : α} :
    Chain next start (b :: l) ↔ start = some b ∧ Chain next (next b) l := by
  constructor
  · intro h
    cases h with
    | cons h => exact ⟨rfl, h⟩
  · rintro ⟨rfl, h⟩
    exact .cons h

/-- Only the links of the cells on the list matter. -/
theorem congr (h : Chain next start l) (hsame : ∀ a ∈ l, next' a = next a) :
    Chain next' start l := by
  induction l generalizing start with
  | nil => simpa using h
  | cons b l ih =>
    obtain ⟨hstart, hrest⟩ := cons_iff.mp h
    refine cons_iff.mpr ⟨hstart, ?_⟩
    rw [hsame b (by simp)]
    exact ih hrest fun a ha => hsame a (List.mem_cons_of_mem b ha)

/-- The links determine the list. -/
theorem unique {l' : List α} (h : Chain next start l) (h' : Chain next start l') : l = l' := by
  induction h generalizing l' with
  | nil =>
    cases h' with
    | nil => rfl
  | cons _ ih =>
    cases h' with
    | cons hrest => rw [ih hrest]

/-- The loop returns the first cell of the list that satisfies `p`. -/
theorem searchLinks (p : α → Bool) (h : Chain next start l) {fuel : ℕ} (hfuel : l.length < fuel) :
    searchLinks p next fuel start = some (l.find? p) := by
  induction h generalizing fuel with
  | nil =>
    obtain ⟨fuel, rfl⟩ : ∃ m, fuel = m + 1 := ⟨fuel - 1, by simp at hfuel; omega⟩
    rfl
  | @cons a l _ ih =>
    rw [List.length_cons] at hfuel
    obtain ⟨fuel, rfl⟩ : ∃ m, fuel = m + 1 := ⟨fuel - 1, by omega⟩
    rw [NeverMind.searchLinks, List.find?_cons]
    cases p a with
    | true => rfl
    | false => exact ih (by omega)

/-- The first cell is taken out. -/
theorem unlink_head {b : α} (h : Chain next start (b :: l)) : Chain next (next b) l :=
  (cons_iff.mp h).2

/-- A cell is taken out when the link of the cell before it is redirected past it. -/
theorem unlink_after {front back : List α} {a b : α}
    (h : Chain next start (front ++ a :: b :: back)) (hlink : next' a = next b)
    (hsame : ∀ c ∈ front ++ back, next' c = next c) : Chain next' start (front ++ a :: back) := by
  induction front generalizing start with
  | nil =>
    obtain ⟨hstart, hrest⟩ := cons_iff.mp h
    refine cons_iff.mpr ⟨hstart, ?_⟩
    rw [hlink]
    exact hrest.unlink_head.congr fun c hc => hsame c (by simpa using hc)
  | cons d front ih =>
    obtain ⟨hstart, hrest⟩ := cons_iff.mp h
    refine cons_iff.mpr ⟨hstart, ?_⟩
    rw [hsame d (by simp)]
    exact ih hrest fun c hc => hsame c (List.mem_cons_of_mem d hc)

end Chain

end NeverMind
