import NeverMind.Verification.Vmm.Hierarchy

/-! # Empty tables

A table below the root is there for its entries. On the way down a mapping call leaves at
most the table it stands on empty, and on the way up an unmap call at most the table it
has just cleared an entry of. -/

namespace NeverMind.Vmm

open Radix

variable {α : Type*} {A : PageAllocator α} {F : FrameSource A} {root t : ℕ} {spare : List ℕ}
  {path q : List (Fin 512)} {i : Fin 512} {x : BitVec 64} {s s₀ : Vmm α}

/-- Every table below the root has a present entry, except possibly the one at `q`. The
root itself is at `[]`, so `NoEmptyBut root []` makes no exception. -/
def NoEmptyBut (root : ℕ) (q : List (Fin 512)) (s : Vmm α) : Prop :=
  ∀ p t, p ≠ [] → p ≠ q → s.tableAt root p = some t → ∃ i, present (s.entry t i) = true

/-- A write into the table at `path` does not reach the other tables. -/
theorem Hierarchy.entry_elsewhere (h : Hierarchy F root spare s)
    (hpath : s.tableAt root path = some t) {p : List (Fin 512)} {u : ℕ}
    (hp : s.tableAt root p = some u) (hne : p ≠ path) (j : Fin 512) :
    (s.setEntry t i x).entry u j = s.entry u j := by
  apply entry_setEntry_of_ne (h.page path t hpath).2.1 (h.page p u hp).2.1
  rintro ⟨rfl, -⟩
  exact hne (h.separate p path u hp hpath)

/-- A present entry fills the table at `path`; the table it may link at `q` is new. -/
theorem NoEmptyBut.fill (h : NoEmptyBut root path s) (hier : Hierarchy F root spare s)
    (hpath : s.tableAt root path = some t) (hx : present x = true)
    (htable : ∀ p, p ≠ q → (s.setEntry t i x).tableAt root p = s.tableAt root p) :
    NoEmptyBut root q (s.setEntry t i x) := by
  intro p u hroot hq hu
  rw [htable p hq] at hu
  by_cases hp : p = path
  · subst hp
    rw [hpath] at hu
    obtain rfl := Option.some.inj hu
    exact ⟨i, by rwa [entry_setEntry_self]⟩
  · obtain ⟨j, hj⟩ := h p u hroot hp hu
    exact ⟨j, by rwa [hier.entry_elsewhere hpath hu hp]⟩

/-- Clearing an entry of the table at `path`, after which the table at `q` is gone. -/
theorem NoEmptyBut.clear (h : NoEmptyBut root q s) (hier : Hierarchy F root spare s)
    (hpath : s.tableAt root path = some t)
    (htable : ∀ p u, p ≠ [] → (s.setEntry t i x).tableAt root p = some u →
      p ≠ q ∧ s.tableAt root p = some u) : NoEmptyBut root path (s.setEntry t i x) := by
  intro p u hroot hp hu
  obtain ⟨hq, hu⟩ := htable p u hroot hu
  obtain ⟨j, hj⟩ := h p u hroot hq hu
  exact ⟨j, by rwa [hier.entry_elsewhere hpath hu hp]⟩

theorem NoEmptyBut.close (h : NoEmptyBut root path s) (hpath : s.tableAt root path = some t)
    (hi : present (s.entry t i) = true) : NoEmptyBut root [] s := by
  intro p u hroot _ hu
  by_cases hp : p = path
  · subst hp
    rw [hpath] at hu
    obtain rfl := Option.some.inj hu
    exact ⟨i, hi⟩
  · exact h p u hroot hp hu

/-! ## Growth -/

/-- On the way from `s` to `s'` entries only became present, no frame was taken or
returned, and at most the table at `path` is empty. -/
structure Grown (root : ℕ) (s : Vmm α) (path : List (Fin 512)) (s' : Vmm α) : Prop where
  pmm_eq : s'.pmm = s.pmm
  tables_eq : s'.tables = s.tables
  writes : ∀ t i, s'.entry t i = s.entry t i ∨ present (s'.entry t i) = true
  noEmpty : NoEmptyBut root [] s → NoEmptyBut root path s'

theorem Grown.refl (root : ℕ) (s : Vmm α) : Grown root s [] s :=
  ⟨rfl, rfl, fun _ _ => Or.inl rfl, id⟩

theorem entry_setEntry (t u : ℕ) (i j : Fin 512) (x : BitVec 64) (s : Vmm α) :
    (s.setEntry t i x).entry u j = s.entry u j ∨ (s.setEntry t i x).entry u j = x := by
  simp only [setEntry, entry, Function.update_apply]
  split
  · exact Or.inr rfl
  · exact Or.inl rfl

theorem Grown.fill (h : Grown root s₀ path s) (hier : Hierarchy F root spare s)
    (hpath : s.tableAt root path = some t) (hx : present x = true)
    (htable : ∀ p, p ≠ q → (s.setEntry t i x).tableAt root p = s.tableAt root p) :
    Grown root s₀ q (s.setEntry t i x) := by
  refine ⟨h.pmm_eq, h.tables_eq, fun u j => ?_, fun h₀ => (h.noEmpty h₀).fill hier hpath hx htable⟩
  rcases entry_setEntry t u i j x s with heq | heq
  · rw [heq]
    exact h.writes u j
  · rw [heq]
    exact Or.inr hx

end NeverMind.Vmm
