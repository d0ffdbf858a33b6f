import NeverMind.Verification.Vmm.Translation

/-! # Where the frames are

A frame that is free or a table stays one of the two through every call, so what the
allocator loses is what the tree gains. No call leaves an empty table in the tree. -/

namespace NeverMind.Vmm

open Radix

variable {α : Type*} {A : PageAllocator α} {F : FrameSource A} {root : ℕ} {s s' s'' : Vmm α}

def Linked (s : Vmm α) (root t : ℕ) : Prop := ∃ path, s.tableAt root path = some t

theorem Hierarchy.linked_iff (h : Hierarchy F root [] s) (t : ℕ) :
    s.Linked root t ↔ t ∈ s.tables := by
  rw [h.mem_tables]
  simp [Linked]

/-- The frames that are free or tables are the same in `s` and `s'`. -/
def Conserves (F : FrameSource A) (s s' : Vmm α) : Prop :=
  ∀ a, F.Free s'.pmm a ∨ a ∈ s'.tables ↔ F.Free s.pmm a ∨ a ∈ s.tables

theorem Conserves.trans (h : Conserves F s s') (h' : Conserves F s' s'') : Conserves F s s'' :=
  fun a => (h' a).trans (h a)

theorem Unchanged.conserves (h : Unchanged F s s') : Conserves F s s' := by
  intro a
  rw [h.free, h.tables]

theorem Reserved.conserves {pool : List ℕ} (h : Reserved F root s pool s') : Conserves F s s' := by
  intro a
  rw [h.free, h.tables]
  tauto

theorem conserves_of_same (hpmm : s'.pmm = s.pmm) (htables : s'.tables = s.tables) :
    Conserves F s s' := by
  intro a
  rw [hpmm, htables]

variable {spare : List ℕ}

theorem Hierarchy.conserves_freeTables (h : Hierarchy F root spare s) :
    Conserves F s (Vmm.freeTables A spare s) := by
  intro a
  rw [h.freeTables.2, mem_tables_freeTables]
  have hmem : a ∈ spare → a ∈ s.tables := h.spare_mem
  tauto

/-! ## Tables and entries -/

theorem Hierarchy.noEmpty_same (h : Hierarchy F root spare s) (hsame : SameEntries s s')
    (hfull : NoEmptyBut root [] s) : NoEmptyBut root [] s' := by
  intro p t hne hroot hp
  rw [h.tableAt_same hsame] at hp
  obtain ⟨i, hi⟩ := hfull p t hne hroot hp
  exact ⟨i, by rwa [hsame t (h.linked_mem hp)]⟩

theorem NoEmptyBut.freeTables (h : NoEmptyBut root [] s) (ts : List ℕ) :
    NoEmptyBut root [] (freeTables A ts s) := by
  intro p t hne hroot hp
  rw [freeTables_tableAt] at hp
  obtain ⟨i, hi⟩ := h p t hne hroot hp
  exact ⟨i, by rwa [freeTables_entry]⟩

theorem ZeroedRoot.noEmpty (h : ZeroedRoot F root s) : NoEmptyBut root [] s :=
  fun _ _ hne _ hp => absurd (h.tableAt_eq hp).1 hne

/-- What every call keeps: the frames are accounted for, no table of the tree is empty, and
an entry of the root that is written becomes present or zero. -/
structure Tended (F : FrameSource A) (root : ℕ) (s s' : Vmm α) : Prop where
  conserves : Conserves F s s'
  noEmpty : NoEmptyBut root [] s → NoEmptyBut root [] s'
  writes : ∀ i, s'.entry root i = s.entry root i ∨ present (s'.entry root i) = true ∨
    s'.entry root i = 0#64

theorem Hierarchy.root_mem (h : Hierarchy F root spare s) : root ∈ s.tables :=
  h.linked_mem (tableAt_nil s root)

theorem Unchanged.tended (h : Hierarchy F root [] s) (hsame : Unchanged F s s') :
    Tended F root s s' :=
  ⟨hsame.conserves, h.noEmpty_same hsame.entries, fun i => Or.inl (hsame.entries root h.root_mem i)⟩

theorem Placed.tended {path : List (Fin 512)} {leaf : BitVec 64} {pool pool' : List ℕ} {r : Vmm α}
    (hp : Placed F root s path leaf pool r pool' s') (h : Hierarchy F root [] s)
    (hres : Reserved F root s pool r) : Tended F root s (s'.freeTablePool A pool') := by
  rw [freeTablePool_eq fun t ht => (hp.hier.spare_page ht).2.2]
  refine ⟨?_, fun hfull => ?_, fun i => ?_⟩
  · exact hres.conserves.trans
      ((conserves_of_same hp.grown.pmm_eq hp.grown.tables_eq).trans hp.hier.conserves_freeTables)
  · exact (hp.grown.noEmpty (h.noEmpty_same hres.entries hfull)).freeTables _
  · rw [freeTables_entry, ← hres.entries root h.root_mem i]
    rcases hp.grown.writes root i with heq | hpres
    · exact Or.inl heq
    · exact Or.inr (Or.inl hpres)

theorem Unlinking.tended {virtAddr : ℕ} {gone : List ℕ}
    (hu : Unlinking F root s virtAddr [] gone s') : Tended F root s (freeTables A gone s') := by
  refine ⟨?_, fun hfull => (hu.noEmpty hfull).freeTables _, fun i => ?_⟩
  · exact (conserves_of_same hu.pmm_eq hu.tables_eq).trans hu.hier.conserves_freeTables
  · rw [freeTables_entry]
    rcases hu.writes root i with heq | hzero
    · exact Or.inl heq
    · exact Or.inr (Or.inr hzero)

theorem MapOutcome.tended {n : ℕ} {path : List (Fin 512)} {leaf : BitVec 64} {x : Bool × Vmm α}
    (hx : MapOutcome F root n s path leaf x) (h : Hierarchy F root [] s) : Tended F root s x.2 := by
  cases hx with
  | fails _ _ same => exact same.tended h
  | succeeds _ _ reserved placed => exact placed.tended h reserved

theorem Hierarchy.run_tended (h : Hierarchy F root [] s) {c : VmmCall} (hfits : c.Fits root s) :
    Tended F root s (c.run A root s).2 := by
  cases c with
  | mapPage v p f => exact (vmmMapPageIn_outcome h v p f hfits).tended h
  | map2m v p f => exact (vmmMap2mIn_outcome h v p f hfits).tended h
  | unmapPage v =>
    rw [VmmCall.run]
    rcases vmmUnmapPageIn_cases h v with heq | ⟨-, gone, s', heq, hun⟩
    · rw [heq]
      exact (Unchanged.refl F s).tended h
    · rw [heq]
      exact hun.tended

end NeverMind.Vmm
