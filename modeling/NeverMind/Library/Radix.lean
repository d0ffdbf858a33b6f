import Mathlib.Data.List.Basic

/-! A radix tree stored in memory. A table is named by its address and holds one entry
for each index; `child d` says which table, if any, an entry of a table at depth `d`
leads to. A path lists the indices from a table up to the root, the last step first.

The memory is seen as a function from tables and indices to entries. One write into a
table of the tree either keeps the tables, or attaches an empty table, or detaches one. -/

namespace NeverMind.Radix

open Option

variable {ι ε : Type*} (child : ℕ → ε → Option ℕ)

/-- The table reached along a path. -/
def tableAt (v : ℕ → ι → ε) (root : ℕ) : List ι → Option ℕ
  | [] => some root
  | i :: path => (tableAt v root path).bind fun t => child path.length (v t i)

/-- The entry reached along a nonempty path. -/
def entryAt (v : ℕ → ι → ε) (root : ℕ) : List ι → Option ε
  | [] => none
  | i :: path => (tableAt child v root path).map fun t => v t i

/-- Every table of the tree is reached along one path only. -/
def Separate (v : ℕ → ι → ε) (root : ℕ) : Prop :=
  ∀ path path' t, tableAt child v root path = some t → tableAt child v root path' = some t →
    path = path'

variable {child} {v v' : ℕ → ι → ε} {root : ℕ}

theorem tableAt_cons {path : List ι} {t : ℕ} (h : tableAt child v root path = some t) (i : ι) :
    tableAt child v root (i :: path) = child path.length (v t i) := by
  rw [tableAt, h, bind_some]

theorem entryAt_cons {path : List ι} {t : ℕ} (h : tableAt child v root path = some t) (i : ι) :
    entryAt child v root (i :: path) = some (v t i) := by
  rw [entryAt, h, map_some]

theorem tableAt_of_cons {i : ι} {path : List ι} {t : ℕ}
    (h : tableAt child v root (i :: path) = some t) :
    ∃ t', tableAt child v root path = some t' ∧ child path.length (v t' i) = some t :=
  bind_eq_some_iff.mp h

theorem entryAt_of_cons {i : ι} {path : List ι} {e : ε}
    (h : entryAt child v root (i :: path) = some e) :
    ∃ t, tableAt child v root path = some t ∧ v t i = e :=
  map_eq_some_iff.mp h

/-- Memory outside the tables of the tree does not matter. -/
theorem tableAt_congr (h : ∀ path t, tableAt child v root path = some t → ∀ j, v' t j = v t j)
    (path : List ι) : tableAt child v' root path = tableAt child v root path := by
  induction path with
  | nil => rfl
  | cons j path ih =>
    rw [tableAt, tableAt, ih]
    cases hpath : tableAt child v root path with
    | none => rfl
    | some t => simp only [bind_some, h path t hpath j]

theorem entryAt_congr (h : ∀ path t, tableAt child v root path = some t → ∀ j, v' t j = v t j)
    (path : List ι) : entryAt child v' root path = entryAt child v root path := by
  cases path with
  | nil => rfl
  | cons j path =>
    rw [entryAt, entryAt, tableAt_congr h]
    cases hpath : tableAt child v root path with
    | none => rfl
    | some t => simp only [map_some, h path t hpath j]

/-! ## One write -/

variable (child) in
/-- `v'` is `v` after `x` was written at index `i` of the table `t` at `path`. Memory
outside the tree may have changed as well. -/
structure Wrote (v v' : ℕ → ι → ε) (root : ℕ) (path : List ι) (t : ℕ) (i : ι) (x : ε) : Prop where
  table : tableAt child v root path = some t
  new : v' t i = x
  same : ∀ j path' t', tableAt child v root path' = some t' → j :: path' ≠ i :: path →
    v' t' j = v t' j

variable [DecidableEq ι] {path : List ι} {t n : ℕ} {i : ι} {x : ε}

/-- A path of tables that the write leaves alone is followed as before. -/
theorem Wrote.child_eq (h : Wrote child v v' root path t i x) {j : ι} {path' : List ι} {t' : ℕ}
    (hpath : tableAt child v root path' = some t') :
    child path'.length (v' t' j) =
      if j :: path' = i :: path then child path.length x else child path'.length (v t' j) := by
  split
  · rename_i heq
    obtain ⟨rfl, rfl⟩ := List.cons.inj heq
    obtain rfl : t = t' := some.inj (h.table.symm.trans hpath)
    rw [h.new]
  · rename_i hne
    rw [h.same j path' t' hpath hne]

/-- A write that leads where the old entry led keeps every table. -/
theorem Wrote.tableAt_keep (h : Wrote child v v' root path t i x)
    (hchild : child path.length x = child path.length (v t i)) (path' : List ι) :
    tableAt child v' root path' = tableAt child v root path' := by
  induction path' with
  | nil => rfl
  | cons j path' ih =>
    rw [tableAt, tableAt, ih]
    cases hpath : tableAt child v root path' with
    | none => rfl
    | some t' =>
      rw [bind_some, bind_some, h.child_eq hpath]
      split
      · rename_i heq
        obtain ⟨rfl, rfl⟩ := List.cons.inj heq
        obtain rfl : t = t' := some.inj (h.table.symm.trans hpath)
        exact hchild
      · rfl

theorem Wrote.entryAt_keep (h : Wrote child v v' root path t i x)
    (hchild : child path.length x = child path.length (v t i)) (path' : List ι) :
    entryAt child v' root path' =
      if path' = i :: path then some x else entryAt child v root path' := by
  cases path' with
  | nil => rfl
  | cons j path' =>
    rw [entryAt, entryAt, h.tableAt_keep hchild]
    split
    · rename_i heq
      obtain ⟨rfl, rfl⟩ := List.cons.inj heq
      rw [h.table, map_some, h.new]
    · rename_i hne
      cases hpath : tableAt child v root path' with
      | none => rfl
      | some t' => rw [map_some, map_some, h.same j path' t' hpath hne]

/-- A write detaches the table that the old entry led to and attaches the one that the new entry
leads to, if their own entries lead nowhere. -/
theorem Wrote.tableAt_relink (h : Wrote child v v' root path t i x) {old new : Option ℕ}
    (hold : child path.length (v t i) = old) (hnew : child path.length x = new)
    (hbelow : ∀ n, old = some n → ∀ j, child (path.length + 1) (v n j) = none)
    (hbelow' : ∀ n, new = some n → ∀ j, child (path.length + 1) (v' n j) = none) (path' : List ι) :
    tableAt child v' root path' =
      if path' = i :: path then new else tableAt child v root path' := by
  have hlink : tableAt child v root (i :: path) = old := by rw [tableAt_cons h.table, hold]
  induction path' with
  | nil => rfl
  | cons j path' ih =>
    rw [tableAt, ih]
    by_cases hsub : path' = i :: path
    · subst hsub
      have hne : j :: i :: path ≠ i :: path := fun heq => by simpa using congrArg List.length heq
      have hrest : tableAt child v root (j :: i :: path) = none := by
        rw [tableAt, hlink, bind_eq_none_iff]
        exact fun n hn => hbelow n hn j
      rw [if_pos rfl, if_neg hne, hrest, bind_eq_none_iff]
      exact fun n hn => hbelow' n hn j
    · rw [if_neg hsub]
      cases hpath : tableAt child v root path' with
      | none =>
        have hne : j :: path' ≠ i :: path := by
          intro heq
          obtain ⟨-, rfl⟩ := List.cons.inj heq
          simp [h.table] at hpath
        rw [if_neg hne, bind_none, tableAt, hpath, bind_none]
      | some t' => rw [bind_some, h.child_eq hpath, hnew, tableAt_cons hpath]

theorem Wrote.entryAt_relink (h : Wrote child v v' root path t i x) {old new : Option ℕ}
    (hold : child path.length (v t i) = old) (hnew : child path.length x = new)
    (hbelow : ∀ n, old = some n → ∀ j, child (path.length + 1) (v n j) = none)
    (hbelow' : ∀ n, new = some n → ∀ j, child (path.length + 1) (v' n j) = none)
    (j : ι) (path' : List ι) :
    entryAt child v' root (j :: path') = if j :: path' = i :: path then some x
      else if path' = i :: path then new.map (v' · j) else entryAt child v root (j :: path') := by
  rw [entryAt, entryAt, h.tableAt_relink hold hnew hbelow hbelow']
  split_ifs with hsub heq heq
  · subst hsub
    simpa using congrArg List.length heq
  · rfl
  · obtain ⟨rfl, rfl⟩ := List.cons.inj heq
    rw [h.table, map_some, h.new]
  · cases hpath : tableAt child v root path' with
    | none => rfl
    | some t' => rw [map_some, map_some, h.same j path' t' hpath heq]

end NeverMind.Radix
