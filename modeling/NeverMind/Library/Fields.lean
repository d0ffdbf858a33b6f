import Mathlib.Data.List.Forall2
import Mathlib.Data.List.TakeWhile

/-! # Strings in buffers and their fields

A buffer is the list of its cells, and a pointer into it is what lies in the buffer from there
on. Reading past the end of a buffer and storing outside it are `none`. A string ends at the
cell with the terminator. -/

namespace NeverMind

open List

variable {α : Type*}

/-! ## Fields -/

/-- The maximal runs of elements that are no separators. -/
def fields (sep : α → Bool) (l : List α) : List (List α) :=
  (l.splitOnP sep).filter fun f => !f.isEmpty

variable {sep : α → Bool} {b : α}

@[simp] theorem fields_nil : fields sep [] = [] := by
  simp [fields]

theorem fields_append (front : List α) (hb : sep b = true) (back : List α) :
    fields sep (front ++ b :: back) = fields sep front ++ fields sep back := by
  rw [fields, splitOnP_append_cons front back hb, filter_append]
  rfl

theorem fields_sep (hb : sep b = true) (l : List α) : fields sep (b :: l) = fields sep l := by
  simpa using fields_append [] hb l

theorem fields_of_none {f : List α} (hne : f ≠ []) (h : ∀ x ∈ f, sep x = false) :
    fields sep f = [f] := by
  rw [fields, splitOnP_eq_singleton h]
  simp [hne]

theorem fields_dropWhile (l : List α) : fields sep (l.dropWhile sep) = fields sep l := by
  induction l with
  | nil => rfl
  | cons b l ih =>
    cases hb : sep b with
    | true => rw [dropWhile_cons_of_pos hb, ih, fields_sep hb]
    | false => rw [dropWhile_cons_of_neg (by simp [hb])]

theorem fields_cons (hb : sep b = false) (l : List α) :
    fields sep (b :: l) =
      (b :: l).takeWhile (fun x => !sep x) :: fields sep ((b :: l).dropWhile fun x => !sep x) := by
  obtain ⟨f, hf⟩ : ∃ f, f = (b :: l).takeWhile (fun x => !sep x) := ⟨_, rfl⟩
  have hsplit := takeWhile_append_dropWhile (p := fun x => !sep x) (l := b :: l)
  have hnot : ∀ x ∈ f, sep x = false := by
    intro x hx
    rw [hf] at hx
    simpa using mem_takeWhile_imp hx
  have hne : f ≠ [] := by
    rw [hf, takeWhile_cons_of_pos (by simp [hb])]
    exact cons_ne_nil _ _
  rw [← hf] at hsplit ⊢
  cases hrest : (b :: l).dropWhile fun x => !sep x with
  | nil =>
    rw [hrest, append_nil] at hsplit
    rw [← hsplit, fields_of_none hne hnot, fields_nil]
  | cons c tail =>
    have hc : sep c = true := by
      have hhead := head?_dropWhile_not (fun x => !sep x) (b :: l)
      rw [hrest] at hhead
      simpa using hhead
    rw [hrest] at hsplit
    rw [← hsplit, fields_append f hc, fields_of_none hne hnot, fields_sep hc]
    rfl

theorem fields_front {front : List α} (hne : front ≠ []) (h : ∀ x ∈ front, sep x = false)
    (l : List α) : ∃ more, front ++ more ∈ fields sep (front ++ l) := by
  obtain ⟨b, front, rfl⟩ := exists_cons_of_ne_nil hne
  refine ⟨l.takeWhile fun x => !sep x, ?_⟩
  rw [cons_append, fields_cons (h b mem_cons_self), ← cons_append,
    takeWhile_append_of_pos fun x hx => by simp [h x hx]]
  exact mem_cons_self

theorem mem_fields {l f : List α} (h : f ∈ fields sep l) :
    f ≠ [] ∧ f.Sublist l ∧ ∀ x ∈ f, sep x = false := by
  -- induction on the length: a list loses a separator or its first field
  induction hn : l.length using Nat.strong_induction_on generalizing l with
  | h n ih =>
    cases l with
    | nil =>
      rw [fields_nil] at h
      exact absurd h not_mem_nil
    | cons b l =>
      cases hb : sep b with
      | true =>
        rw [fields_sep hb] at h
        obtain ⟨hne, hsub, hnot⟩ := ih l.length (by simp at hn; omega) h rfl
        exact ⟨hne, hsub.cons b, hnot⟩
      | false =>
        rw [fields_cons hb] at h
        rcases mem_cons.mp h with rfl | h
        · refine ⟨?_, takeWhile_sublist _, fun x hx => by simpa using mem_takeWhile_imp hx⟩
          rw [takeWhile_cons_of_pos (by simp [hb])]
          exact cons_ne_nil _ _
        · obtain ⟨hne, hsub, hnot⟩ := ih _ (by
            have hdrop := length_dropWhile_le (fun x => !sep x) l
            rw [dropWhile_cons_of_pos (by simp [hb])]
            simp at hn
            omega) h rfl
          exact ⟨hne, hsub.trans (dropWhile_sublist _), hnot⟩

/-- Runs without separators, a separator before each. -/
theorem fields_flatMap {fs : List (List α)} (hb : sep b = true)
    (hfs : ∀ f ∈ fs, f ≠ [] ∧ ∀ x ∈ f, sep x = false) : fields sep (fs.flatMap (b :: ·)) = fs := by
  induction fs with
  | nil => exact fields_nil
  | cons f fs ih =>
    obtain ⟨hne, hnot⟩ := hfs f mem_cons_self
    have hrest := ih fun g hg => hfs g (mem_cons_of_mem f hg)
    rw [flatMap_cons, cons_append, fields_sep hb]
    cases fs with
    | nil => simpa using fields_of_none hne hnot
    | cons g fs =>
      rw [flatMap_cons, cons_append, fields_sep hb] at hrest
      rw [flatMap_cons, cons_append, fields_append f hb, fields_of_none hne hnot, hrest]
      rfl

/-! ## Buffers -/

/-- `buf[i] = x`. -/
def store (buf : List α) (i : ℕ) (x : α) : Option (List α) :=
  if i < buf.length then some (buf.set i x) else none

@[simp] theorem store_append (l rest : List α) (x y : α) :
    store (l ++ y :: rest) l.length x = some (l ++ x :: rest) := by
  simp [store]

/-- `while (p(*s)) s++`. -/
def skipWhile (p : α → Bool) : List α → Option (List α)
  | [] => none
  | b :: s => if p b then skipWhile p s else some (b :: s)

theorem skipWhile_append {p : α → Bool} {c : α} (hc : p c = false) (l rest : List α) :
    skipWhile p (l ++ c :: rest) = some (l.dropWhile p ++ c :: rest) := by
  induction l with
  | nil => simp [skipWhile, hc]
  | cons b l ih =>
    cases hb : p b with
    | true => rw [cons_append, skipWhile, if_pos hb, ih, dropWhile_cons_of_pos hb]
    | false => simp [skipWhile, hb]

variable [DecidableEq α] (sep) (nul : α)

/-- A cell that belongs to a field. -/
def inField (b : α) : Bool := b != nul && !sep b

/-- Copy a field to `row[j]` and on, as long as a cell is left for the terminator. -/
def copyField (width : ℕ) : List α → ℕ → List α → Option (List α × ℕ × List α)
  | [], _, _ => none
  | b :: s, j, row =>
    if inField sep nul b ∧ j + 1 < width then do
      let row ← store row j b
      copyField width s (j + 1) row
    else some (b :: s, j, row)

/-- Split a string into the rows of a table, each cut to `width - 1` cells. The number of the
fields is returned, or none if there are more than `maxFields`. A round consumes a cell. -/
def splitFields (width maxFields : ℕ) :
    ℕ → List α → ℕ → List (List α) → Option (Option ℕ × List (List α))
  | rounds, s, count, table =>
    match skipWhile sep s with
    | none | some [] => none
    | some (b :: s) =>
      if b = nul then some (some count, table)
      else if maxFields ≤ count then some (none, table)
      else
        match rounds with
        | 0 => none
        | rounds + 1 => do
            let row ← table[count]?
            let (s, j, row) ← copyField sep nul width (b :: s) 0 row
            let row ← store row j nul
            let s ← skipWhile (inField sep nul) s
            splitFields width maxFields rounds s (count + 1) (table.set count row)

variable {sep} {nul : α} {width : ℕ}

theorem copyField_append {f : List α} (hf : ∀ x ∈ f, inField sep nul x = true) {c : α}
    (hc : inField sep nul c = false) (rest front row : List α)
    (hrow : front.length + row.length = width) (hpos : row ≠ []) :
    copyField sep nul width (f ++ c :: rest) front.length (front ++ row) =
      some (f.drop (row.length - 1) ++ c :: rest, (front ++ f.take (row.length - 1)).length,
        front ++ f.take (row.length - 1) ++ row.drop (f.take (row.length - 1)).length) := by
  induction f generalizing front row with
  | nil => simp [copyField, hc]
  | cons x f ih =>
    have hx := hf x mem_cons_self
    obtain ⟨y, row, rfl⟩ := exists_cons_of_ne_nil hpos
    rw [length_cons] at hrow
    rw [cons_append, copyField]
    cases row with
    | nil =>
      -- the row has a cell for the terminator only
      rw [if_neg (by simp at hrow; omega)]
      simp
    | cons z row =>
      rw [length_cons] at hrow
      have hnext := ih (fun x hx => hf x (mem_cons_of_mem _ hx)) (front ++ [x])
        (z :: row) (by simp; omega) (cons_ne_nil _ _)
      rw [if_pos ⟨hx, by omega⟩, store_append]
      simp only [length_append, length_singleton, append_assoc, singleton_append] at hnext
      simpa [Nat.add_assoc] using hnext

/-- The row starts with a field, cut to fit, and a terminator. -/
def RowHolds (nul : α) (width : ℕ) (f row : List α) : Prop := f.take (width - 1) ++ [nul] <+: row

/-- One field: it is copied to its row, terminated there, and passed over in the string. -/
theorem copyField_row {f : List α} (hf : ∀ x ∈ f, inField sep nul x = true) {c : α}
    (hc : inField sep nul c = false) (rest : List α) (hwidth : 0 < width) {row : List α}
    (hrow : row.length = width) :
    ∃ s j row₁ row₂, copyField sep nul width (f ++ c :: rest) 0 row = some (s, j, row₁) ∧
      store row₁ j nul = some row₂ ∧ skipWhile (inField sep nul) s = some (c :: rest) ∧
      row₂.length = width ∧ RowHolds nul width f row₂ := by
  obtain ⟨y, row, rfl⟩ := exists_cons_of_length_pos (hrow ▸ hwidth)
  have hcopy := copyField_append hf hc rest [] (y :: row) (by simpa using hrow)
    (cons_ne_nil _ _)
  simp only [length_cons, Nat.add_sub_cancel, nil_append, length_nil] at hcopy hrow
  obtain ⟨g, hg⟩ : ∃ g, g = f.take row.length := ⟨_, rfl⟩
  have hgl : g.length ≤ row.length := hg ▸ length_take_le _ _
  rw [← hg] at hcopy
  obtain ⟨z, more, hmore⟩ : ∃ z more, (y :: row).drop g.length = z :: more := by
    refine exists_cons_of_length_pos ?_
    rw [length_drop, length_cons]
    omega
  have hmorel := congrArg length hmore
  rw [length_drop, length_cons, length_cons] at hmorel
  rw [hmore] at hcopy
  refine ⟨_, _, _, g ++ nul :: more, hcopy, store_append _ _ _ _, ?_, ?_, ?_⟩
  · rw [skipWhile_append hc, dropWhile_eq_nil_iff.mpr, nil_append]
    intro x hx
    exact hf x (mem_of_mem_drop hx)
  · rw [length_append, length_cons]
    omega
  · rw [RowHolds, ← hrow, Nat.add_sub_cancel, ← hg]
    exact ⟨more, by simp⟩

/-- The rows of a table that a split fills. -/
theorem splitFields_spec (sep : α → Bool) (nul : α) {maxFields rounds : ℕ}
    (hnul : sep nul = false) (hwidth : 0 < width) {l : List α} (hl : nul ∉ l)
    (hrounds : l.length ≤ rounds) (rest : List α)
    (done todo : List (List α)) (hrows : done.length + todo.length = maxFields)
    (htodo : ∀ row ∈ todo, row.length = width) :
    ∃ new left, (∀ row ∈ new ++ left, row.length = width) ∧ new.length + left.length = todo.length ∧
      splitFields sep nul width maxFields rounds (l ++ nul :: rest) done.length (done ++ todo) =
        some (if (fields sep l).length ≤ todo.length then
          some (done.length + (fields sep l).length) else none, done ++ new ++ left) ∧
      ((fields sep l).length ≤ todo.length → Forall₂ (RowHolds nul width) (fields sep l) new) := by
  induction rounds generalizing l done todo with
  | zero =>
    have hnil : l = [] := length_eq_zero_iff.mp (by omega)
    subst hnil
    exact ⟨[], todo, by simpa using htodo, by simp, by simp [splitFields, skipWhile, hnul], by simp⟩
  | succ rounds ih =>
    rw [splitFields, skipWhile_append hnul, ← fields_dropWhile l]
    have hdrop : ∀ x ∈ l.dropWhile sep, x ∈ l := (dropWhile_sublist _).subset
    have hhead := head?_dropWhile_not sep l
    have hshort := length_dropWhile_le sep l
    cases hskip : l.dropWhile sep with
    | nil => exact ⟨[], todo, by simpa using htodo, by simp, by simp, by simp⟩
    | cons b s =>
      rw [hskip] at hdrop hhead hshort
      have hb : sep b = false := by simpa using hhead
      have hne : b ≠ nul := fun heq => hl (heq ▸ hdrop b mem_cons_self)
      simp only [cons_append, hne, if_false, fields_cons hb]
      cases todo with
      | nil =>
        refine ⟨[], [], by simp, rfl, ?_, by simp⟩
        simp at hrows
        simp [hrows]
      | cons row todo =>
        have hroom : ¬ maxFields ≤ done.length := by
          rw [length_cons] at hrows
          omega
        obtain ⟨f, hf⟩ : ∃ f, f = (b :: s).takeWhile (fun x => !sep x) := ⟨_, rfl⟩
        obtain ⟨l', hl'⟩ : ∃ l', l' = (b :: s).dropWhile (fun x => !sep x) := ⟨_, rfl⟩
        have hsplit := takeWhile_append_dropWhile (p := fun x => !sep x) (l := b :: s)
        rw [← hf, ← hl'] at hsplit ⊢
        have hfield : ∀ x ∈ f, inField sep nul x = true := by
          intro x hx
          have hne : x ≠ nul := by
            rintro rfl
            exact hl (hdrop x (hsplit ▸ mem_append_left l' hx))
          rw [hf] at hx
          simpa [inField, hne] using mem_takeWhile_imp hx
        obtain ⟨c, tail, hc, htail⟩ : ∃ c tail, inField sep nul c = false ∧
            l' ++ nul :: rest = c :: tail := by
          cases htail : l' with
          | nil => exact ⟨nul, rest, by simp [inField], rfl⟩
          | cons c tail =>
            have hhead := head?_dropWhile_not (fun x => !sep x) (b :: s)
            rw [← hl', htail] at hhead
            have hsep : sep c = true := by simpa using hhead
            exact ⟨c, tail ++ nul :: rest, by simp [inField, hsep], rfl⟩
        obtain ⟨s', j, row₁, row₂, hcopy, hstore, hpass, hlen, hholds⟩ :=
          copyField_row hfield hc tail hwidth (htodo row mem_cons_self)
        rw [← htail, ← append_assoc, hsplit, cons_append] at hcopy
        rw [← htail] at hpass
        have hshorter : l'.length ≤ rounds := by
          have hdrop' := length_dropWhile_le (fun x => !sep x) s
          rw [hl', dropWhile_cons_of_pos (by simp [hb])]
          rw [length_cons] at hshort
          omega
        have hl'' : nul ∉ l' := fun hmem =>
          hl (hdrop nul (hsplit ▸ mem_append_right f hmem))
        obtain ⟨new, left, hrows', hlens, hrun, hnew⟩ := ih hl'' hshorter (done ++ [row₂])
          todo (by simp at hrows ⊢; omega)
          (fun row hrow => htodo row (mem_cons_of_mem _ hrow))
        refine ⟨row₂ :: new, left, ?_, by simp; omega, ?_, ?_⟩
        · intro row hrow
          rcases mem_cons.mp hrow with rfl | hrow
          · exact hlen
          · exact hrows' row hrow
        · have hget : (done ++ row :: todo)[done.length]? = some row := by simp
          have hset : (done ++ row :: todo).set done.length row₂ = done ++ [row₂] ++ todo := by
            simp
          simp only [length_append, length_singleton] at hrun
          simp only [hroom, if_false, hget, hcopy, hstore, hpass, hset, Option.bind_eq_bind,
            Option.bind_some]
          rw [hrun]
          simp [Nat.add_assoc, Nat.add_comm 1]
        · intro hfit
          simp only [length_cons] at hfit
          exact .cons hholds (hnew (by omega))

end NeverMind
