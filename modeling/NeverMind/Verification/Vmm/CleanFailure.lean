import NeverMind.Verification.Vmm.Frames

/-! # Mapping calls that fail

A mapping call takes every table it may need before it looks at the tree. It fails exactly
when they cannot be had, and then nothing has changed; otherwise the frames it keeps are
those of the tables it has linked. -/

namespace NeverMind.Vmm

open Radix Pmm Finset

/-- The contract of a mapping call that asks for `need` tables in advance. -/
structure MapsCleanly (root need : ℕ) (s : Vmm Pmm) (r : Bool × Vmm Pmm) : Prop where
  fails_iff : r.1 = false ↔ s.pmm.free.card < need
  unchanged : r.1 = false → r.2.pmm.free = s.pmm.free ∧ ∀ t, (r.2.Linked root t ↔ s.Linked root t) ∧
      (s.Linked root t → ∀ i, r.2.entry t i = s.entry t i)
  kept : r.1 = true → ∃ new ⊆ s.pmm.free, r.2.pmm.free = s.pmm.free \ new ∧
    ∀ t, r.2.Linked root t ↔ s.Linked root t ∨ ∃ f ∈ new, t = f * pageSize
  returned : ∀ pool s', allocTablePool pages need s = (some pool, s') →
    ∀ t ∈ pool, r.2.Linked root t ∨ r.2.pmm.PageFree t

section

variable {α : Type*} {A : PageAllocator α} {F : FrameSource A} {root : ℕ} {s s' r : Vmm α}
  {path : List (Fin 512)} {leaf : BitVec 64} {pool pool' : List ℕ}

theorem Reserved.fresh (hres : Reserved F root s pool r) (h : Hierarchy F root [] s) {t : ℕ}
    (ht : t ∈ pool) : t ∉ s.tables := fun hmem =>
  h.not_free t hmem ((hres.free t).mpr (Or.inr ht))

theorem Placed.mem_tables (hp : Placed F root s path leaf pool r pool' s')
    (h : Hierarchy F root [] s) (hres : Reserved F root s pool r) (t : ℕ) :
    t ∈ (s'.freeTablePool A pool').tables ↔ t ∈ s.tables ∨ (t ∈ pool ∧ t ∉ live pool') := by
  rw [freeTablePool_eq fun t ht => (hp.hier.spare_page ht).2.2, mem_tables_freeTables,
    hp.grown.tables_eq, hres.tables]
  have hold : t ∈ s.tables → t ∉ live pool' := fun hmem hlive => hres.fresh h (hp.left hlive) hmem
  tauto

theorem Placed.free_iff (hp : Placed F root s path leaf pool r pool' s')
    (hres : Reserved F root s pool r) (a : ℕ) :
    F.Free (s'.freeTablePool A pool').pmm a ↔ F.Free s.pmm a ∧ ¬ (a ∈ pool ∧ a ∉ live pool') := by
  have hfree := hp.hier.freeTables.2 a
  rw [freeTablePool_eq fun t ht => (hp.hier.spare_page ht).2.2, hfree, hp.grown.pmm_eq, hres.free]
  have hleft : a ∈ live pool' → a ∈ pool := fun hlive => hp.left hlive
  have hnot : a ∈ pool → ¬ F.Free r.pmm a := fun hmem =>
    hres.hier.not_free a (hres.hier.spare_mem hmem)
  tauto

end

variable {root n : ℕ} {s : Vmm Pmm} {path : List (Fin 512)} {leaf : BitVec 64}

/-! ## When the pool can be had -/

theorem Reserved.length_le {pool : List ℕ} {r : Vmm Pmm}
    (hres : Reserved frameSource root s pool r) : pool.length ≤ s.pmm.free.card := by
  rw [← card_freeAddrs, ← List.toFinset_card_of_nodup hres.hier.spare_nodup]
  apply card_le_card
  intro a ha
  exact mem_freeAddrs.mpr ((hres.free a).mpr (Or.inr (List.mem_toFinset.mp ha)))

theorem card_lt_of_allocTablePool (h : Hierarchy frameSource root [] s)
    (hnone : (allocTablePool pages n s).1 = none) : s.pmm.free.card < n := by
  obtain ⟨taken, r, hres, hlen, hdry⟩ := allocTablePoolFrom_none h.reserved_nil hnone
  have hempty : r.pmm.free = ∅ := free_eq_empty_of_pmmAllocPage hres.hier.inv hdry
  have hsub : s.pmm.freeAddrs ⊆ taken.toFinset := by
    intro a ha
    rcases (hres.free a).mp (mem_freeAddrs.mp ha) with hfree | hmem
    · have hmem : a / pageSize ∈ r.pmm.free := hfree.2
      rw [hempty] at hmem
      cases hmem
    · exact List.mem_toFinset.mpr hmem
  calc s.pmm.free.card = s.pmm.freeAddrs.card := (card_freeAddrs _).symm
    _ ≤ taken.toFinset.card := card_le_card hsub
    _ ≤ taken.length := List.toFinset_card_le taken
    _ < n := by simpa using hlen

/-! ## The contract -/

theorem Unchanged.mapsCleanly {r : Vmm Pmm} (same : Unchanged frameSource s r)
    (h : Hierarchy frameSource root [] s) (hier : Hierarchy frameSource root [] r)
    (hnone : (allocTablePool pages n s).1 = none) : MapsCleanly root n s (false, r) := by
  have hlink : ∀ t, r.Linked root t ↔ s.Linked root t := by
    intro t
    rw [hier.linked_iff, h.linked_iff, same.tables]
  have hfree : r.pmm.free = s.pmm.free := by
    ext f
    rw [mem_free_iff_pageFree, mem_free_iff_pageFree]
    exact same.free _
  refine ⟨iff_of_true rfl (card_lt_of_allocTablePool h hnone),
    fun _ => ⟨hfree, fun t => ⟨hlink t, fun ht => ?_⟩⟩, fun hok => ?_, fun pool s' hpool => ?_⟩
  · exact same.entries t ((h.linked_iff t).mp ht)
  · cases hok
  · rw [hpool] at hnone
    cases hnone

section

variable {pool pool' : List ℕ} {r s' : Vmm Pmm}
  (hp : Placed frameSource root s path leaf pool r pool' s')
  (h : Hierarchy frameSource root [] s) (hres : Reserved frameSource root s pool r)

include hp h hres

theorem Placed.keeps_linked :
    ∃ new ⊆ s.pmm.free, (s'.freeTablePool pages pool').pmm.free = s.pmm.free \ new ∧
      ∀ t, (s'.freeTablePool pages pool').Linked root t ↔
        s.Linked root t ∨ ∃ f ∈ new, t = f * pageSize := by
  have hfree : ∀ a, (s'.freeTablePool pages pool').pmm.PageFree a ↔
      s.pmm.PageFree a ∧ ¬ (a ∈ pool ∧ a ∉ live pool') := hp.free_iff hres
  refine ⟨s.pmm.free.filter fun f => f * pageSize ∈ pool ∧ f * pageSize ∉ live pool',
    filter_subset _ _, ?_, fun t => ?_⟩
  · ext f
    rw [mem_sdiff, mem_filter, mem_free_iff_pageFree, mem_free_iff_pageFree, hfree]
    tauto
  · rw [hp.setsLeaf.2.1.linked_iff, h.linked_iff, hp.mem_tables h hres]
    refine or_congr_right ⟨fun ht => ?_, ?_⟩
    · have hpage : s.pmm.PageFree t := (hres.free t).mpr (Or.inr ht.1)
      have hmul : t = t / pageSize * pageSize := (div_eq_iff_of_page hpage.1).mp rfl
      exact ⟨t / pageSize, mem_filter.mpr ⟨hpage.2, hmul ▸ ht⟩, hmul⟩
    · rintro ⟨f, hf, rfl⟩
      exact (mem_filter.mp hf).2

theorem Placed.linked_or_free {t : ℕ} (ht : t ∈ pool) :
    (s'.freeTablePool pages pool').Linked root t ∨
      (s'.freeTablePool pages pool').pmm.PageFree t := by
  rw [hp.setsLeaf.2.1.linked_iff, hp.mem_tables h hres]
  by_cases hlive : t ∈ live pool'
  · right
    exact (hp.free_iff hres t).mpr ⟨(hres.free t).mpr (Or.inr ht), fun hkept => hkept.2 hlive⟩
  · exact Or.inl (Or.inr ⟨ht, hlive⟩)

theorem Placed.mapsCleanly (hpool : allocTablePool pages n s = (some pool, r))
    (hlen : pool.length = n) : MapsCleanly root n s (true, s'.freeTablePool pages pool') := by
  refine ⟨iff_of_false (by simp) ?_, fun hfail => ?_, fun _ => hp.keeps_linked h hres,
    fun pool₁ s₁ hpool₁ t ht => ?_⟩
  · rw [Nat.not_lt, ← hlen]
    exact hres.length_le
  · cases hfail
  · rw [hpool] at hpool₁
    obtain rfl : pool = pool₁ := by simpa using congrArg Prod.fst hpool₁
    exact hp.linked_or_free h hres ht

end

theorem MapOutcome.mapsCleanly {x : Bool × Vmm Pmm}
    (hx : MapOutcome frameSource root n s path leaf x)
    (h : Hierarchy frameSource root [] s) : MapsCleanly root n s x := by
  cases hx with
  | fails hnone hier same => exact same.mapsCleanly h hier hnone
  | succeeds hpool hlen hres hp => exact hp.mapsCleanly h hres hpool hlen

/-! ## Hierarchies built by calls -/

section

variable {α : Type*} {A : PageAllocator α} {F : FrameSource A} {root : ℕ} {s s' s₀ : Vmm α}

/-- The rest of the kernel has run. It may have taken and returned frames and written its
own memory, but it left the tables alone. -/
structure Elsewhere (F : FrameSource A) (root : ℕ) (s s' : Vmm α) : Prop where
  inv : F.Inv s'.pmm
  tables_eq : s'.tables = s.tables
  entries : SameEntries s s'
  not_free : ∀ t ∈ s.tables, ¬ F.Free s'.pmm t
  managed : ∀ t ∈ s.tables, t ≠ root → F.Managed s'.pmm t

/-- The slot of the call holds no mapping of the other page size. -/
def Unmixed (root : ℕ) (s : Vmm α) : VmmCall → Prop
  | .mapPage v _ _ => s.leafAt root (largePath v) = none
  | .map2m v _ _ => ∀ j, s.leafAt root (j :: largePath v) = none
  | .unmapPage _ => True

/-- One step of a machine in which the calls share the allocator with the rest of the
kernel. -/
inductive SharedStep (F : FrameSource A) (root : ℕ) (s : Vmm α) : Vmm α → Prop
  | call (c : VmmCall) (unmixed : Unmixed root s c) : SharedStep F root s (c.run A root s).2
  | elsewhere {s' : Vmm α} (h : Elsewhere F root s s') : SharedStep F root s s'

theorem Elsewhere.hierarchy (he : Elsewhere F root s s') (h : Hierarchy F root [] s) :
    Hierarchy F root [] s' := by
  refine h.transfer he.entries he.inv ?_ ?_ ?_ (by simp) (by simp) List.nodup_nil
  · rw [he.tables_eq]
    exact h.mem_tables
  · rw [he.tables_eq]
    exact he.not_free
  · rw [he.tables_eq]
    exact he.managed

theorem NoEmptyBut.fits {c : VmmCall} (h : NoEmptyBut root [] s) (hc : Unmixed root s c) :
    c.Fits root s := by
  cases c with
  | mapPage v p f => exact hc
  | unmapPage v => trivial
  | map2m v p f =>
    rw [VmmCall.Fits, Option.eq_none_iff_forall_ne_some]
    intro t ht
    obtain ⟨j, hj⟩ := h _ t (by simp [largePath]) (by simp [largePath]) ht
    have hleaf := hc j
    rw [leafAt_cons ht, Option.filter_some] at hleaf
    simp [isLeaf, hj, largePath, pdPath] at hleaf

theorem sharedRun_invariant (h₀ : ZeroedRoot F root s₀)
    (hrun : Relation.ReflTransGen (SharedStep F root) s₀ s) :
    Hierarchy F root [] s ∧ NoEmptyBut root [] s := by
  induction hrun with
  | refl => exact ⟨h₀.hierarchy, h₀.noEmpty⟩
  | tail _ hstep ih =>
    obtain ⟨hier, hfull⟩ := ih
    cases hstep with
    | call c unmixed =>
      have hfits := hfull.fits unmixed
      exact ⟨(hier.run_call hfits).1, (hier.run_tended hfits).noEmpty hfull⟩
    | elsewhere he => exact ⟨he.hierarchy hier, hier.noEmpty_same he.entries hfull⟩

end

/-- Whatever the allocator holds, a 4 KiB map into a hierarchy built by calls fails exactly
when fewer than three frames are free and a 2 MiB map exactly when fewer than two are; a
call that fails changes nothing, and one that succeeds keeps only the frames of the tables
it links. -/
theorem mapping_fails_cleanly (root : ℕ) (s₀ s : Vmm Pmm) (h₀ : ZeroedRoot frameSource root s₀)
    (hrun : Relation.ReflTransGen (SharedStep frameSource root) s₀ s) (virtAddr : ℕ)
    (physAddr flags : BitVec 64) :
    (Unmixed root s (.mapPage virtAddr physAddr flags) →
      MapsCleanly root 3 s (s.vmmMapPageIn pages root virtAddr physAddr flags)) ∧
    (Unmixed root s (.map2m virtAddr physAddr flags) →
      MapsCleanly root 2 s (s.vmmMap2mIn pages root virtAddr physAddr flags)) := by
  obtain ⟨hier, hfull⟩ := sharedRun_invariant h₀ hrun
  refine ⟨fun hslot => ?_, fun hslot => ?_⟩
  · exact (vmmMapPageIn_outcome hier virtAddr physAddr flags hslot).mapsCleanly hier
  · have hfits : VmmCall.Fits root s (.map2m virtAddr physAddr flags) := hfull.fits hslot
    exact (vmmMap2mIn_outcome hier virtAddr physAddr flags hfits).mapsCleanly hier

/-- The first 4 KiB map on the machine of `atBoot`. -/
theorem mapping_fails_cleanly_atBoot :
    MapsCleanly 0x1000 3 atBoot (atBoot.vmmMapPageIn pages 0x1000 0x40000000 0x5000 0x3) :=
  (mapping_fails_cleanly 0x1000 atBoot atBoot atBoot_zeroedRoot .refl 0x40000000 0x5000 0x3).1
    (atBoot_fits 0x40000000 0x5000 0x3)

end NeverMind.Vmm
