import NeverMind.Verification.Vmm.Translation

/-! # Mixed page sizes

While 4 KiB and 2 MiB mappings keep to different slots, only tables are used as tables
and none is lost. `get_or_create_next` descends through any present entry and
`vmm_map_2m_in` overwrites any entry, so both ways of mixing the sizes break this. -/

namespace NeverMind.Vmm

open Radix

variable {α : Type*} {A : PageAllocator α} {F : FrameSource A} {root : ℕ} {s : Vmm α}

/-- Only tables were used as tables, and every table held is linked from the root. -/
structure Consistent (root : ℕ) (s : Vmm α) : Prop where
  only_tables : s.foreign = []
  none_lost : ∀ t ∈ s.tables, ∃ path, s.tableAt root path = some t

/-- The call either failed with nothing changed or left the tables consistent. -/
def CallConsistent (F : FrameSource A) (root : ℕ) (s : Vmm α) (r : Bool × Vmm α) : Prop :=
  (r.1 = false ∧ Unchanged F s r.2) ∨ Consistent root r.2

theorem Hierarchy.consistent (h : Hierarchy F root [] s) (hforeign : s.foreign = []) :
    Consistent root s := by
  refine ⟨hforeign, fun t ht => ?_⟩
  rcases (h.mem_tables t).mp ht with hlink | hnil
  · exact hlink
  · cases hnil

/-- A call that does not mix page sizes. -/
def FittingStep (A : PageAllocator α) (root : ℕ) (s s' : Vmm α) : Prop :=
  ∃ c : VmmCall, c.Fits root s ∧ s' = (c.run A root s).2

theorem fittingRun_invariant {s₀ : Vmm α} (hrun : Relation.ReflTransGen (FittingStep A root) s₀ s)
    (h₀ : Hierarchy F root [] s₀) : Hierarchy F root [] s ∧ s.foreign = s₀.foreign := by
  induction hrun with
  | refl => exact ⟨h₀, rfl⟩
  | tail _ hstep ih =>
    obtain ⟨c, hfits, rfl⟩ := hstep
    obtain ⟨hier, hforeign, -, -⟩ := ih.1.run_call hfits
    exact ⟨hier, hforeign.trans ih.2⟩

/-- From a zeroed root the tables stay consistent as long as no call mixes page sizes in
one slot, and a call that fails changes nothing. -/
theorem tables_consistent_unless_mixed (F : FrameSource A) (root : ℕ) (s₀ s : Vmm α)
    (h₀ : ZeroedRoot F root s₀) (hrun : Relation.ReflTransGen (FittingStep A root) s₀ s) :
    Consistent root s ∧ ∀ c : VmmCall, c.Fits root s →
      CallConsistent F root s (c.run A root s) ∧
        ((c.run A root s).1 = false → Unchanged F s (c.run A root s).2) := by
  obtain ⟨hier, hforeign⟩ := fittingRun_invariant hrun h₀.hierarchy
  rw [h₀.foreign_eq] at hforeign
  refine ⟨hier.consistent hforeign, fun c hfits => ?_⟩
  obtain ⟨hier', hforeign', hfail, -⟩ := hier.run_call hfits
  exact ⟨Or.inr (hier'.consistent (hforeign'.trans hforeign)), hfail⟩

/-- A 4 KiB map on the machine of `atBoot` keeps the tables consistent. -/
theorem tables_consistent_unless_mixed_atBoot :
    Consistent 0x1000 ((VmmCall.mapPage 0x40000000 0x5000 0x3).run Pmm.pages 0x1000 atBoot).2 :=
  (tables_consistent_unless_mixed Pmm.frameSource 0x1000 atBoot _ atBoot_zeroedRoot
    (.single ⟨_, atBoot_fits 0x40000000 0x5000 0x3, rfl⟩)).1

/-! ## What mixing does -/

/-- A 2 MiB map over a slot that links a page table drops the only link to it. -/
theorem Hierarchy.map2m_over_page_table (h : Hierarchy F root [] s) {virtAddr pt : ℕ}
    {physAddr flags : BitVec 64} (hpt : s.tableAt root (largePath virtAddr) = some pt)
    (hok : (s.vmmMap2mIn A root virtAddr physAddr flags).1 = true) :
    pt ∈ (s.vmmMap2mIn A root virtAddr physAddr flags).2.tables ∧
      ∀ path, (s.vmmMap2mIn A root virtAddr physAddr flags).2.tableAt root path ≠ some pt := by
  have hroot : root ≠ 0 := (h.page [] root rfl).1
  rcases allocTablePool_spec h 2 with ⟨pool, r, hpool, hlen, hres⟩ | ⟨r, hpool, -⟩
  swap
  · simp [vmmMap2mIn, hroot, hpool] at hok
  obtain ⟨pd, pool', s', hrun, -, hd, -⟩ :=
    vmmMap2mIn_descends h hres virtAddr physAddr flags hpool hlen
  have hlink : s'.tableAt root (largePath virtAddr) = some pt := by
    rw [hd.deeper _ (by simp [largePath]), h.tableAt_same hres.entries, hpt]
  have hslot : nextTable (pdPath virtAddr).length (s'.entry pd (pdIndex virtAddr)) = some pt := by
    rwa [largePath, tableAt, tableAt_cons hd.table] at hlink
  -- the entries of a page table are leaves, so the table has no tables below it
  have hwrote := hd.hier.wrote hd.table (pdIndex virtAddr) (largeLeaf physAddr flags)
  have hdetach := hwrote.tableAt_relink hslot (nextTable_of_leaf (isLeaf_largeLeaf physAddr flags))
    (fun n _ j => by simp [nextTable, pdPath]) (by simp)
  rw [hrun, freeTablePool_eq fun t ht => (hd.hier.spare_page ht).2.2]
  constructor
  · rw [mem_tables_freeTables]
    exact ⟨hd.hier.linked_mem hlink, fun hmem => hd.hier.spare_unlinked pt hmem _ hlink⟩
  · intro path
    rw [freeTables_tableAt, tableAt, hdetach path]
    split
    · simp
    · rename_i hne
      intro hother
      exact hne (hd.hier.separate _ _ _ hother hlink)

/-- Both ways of mixing the sizes in one slot succeed and break the tables: a 4 KiB map
into a large page uses the data frame `0x800000` as a page table, and a 2 MiB map over a
page table loses the frame of that table. -/
theorem mixed_page_sizes_break_tables :
    (let large := (VmmCall.map2m 0x40000000 0x800000 0x3).run Pmm.pages 0x1000 atBoot
     let small := (VmmCall.mapPage 0x40000000 0x5000 0x3).run Pmm.pages 0x1000 large.2
     large.1 = true ∧ small.1 = true ∧ small.2.foreign = [0x800000]) ∧
    (let small := (VmmCall.mapPage 0x40000000 0x5000 0x3).run Pmm.pages 0x1000 atBoot
     let large := (VmmCall.map2m 0x40000000 0x800000 0x3).run Pmm.pages 0x1000 small.2
     small.1 = true ∧ large.1 = true ∧
       ∃ t ∈ large.2.tables, ∀ path, large.2.tableAt 0x1000 path ≠ some t) := by
  refine ⟨by decide +kernel, ?_⟩
  obtain ⟨r, hr⟩ : ∃ r, r = (VmmCall.mapPage 0x40000000 0x5000 0x3).run Pmm.pages 0x1000 atBoot :=
    ⟨_, rfl⟩
  have hsmall : r.1 = true := by
    rw [hr]
    decide +kernel
  have hlarge : ((VmmCall.map2m 0x40000000 0x800000 0x3).run Pmm.pages 0x1000 r.2).1 = true := by
    rw [hr]
    decide +kernel
  have hspec := (vmmMapPageIn_outcome atBoot_zeroedRoot.hierarchy 0x40000000 0x5000 0x3
    (atBoot_fits _ 0x5000 0x3)).setsLeaf
  have hcall : atBoot.vmmMapPageIn Pmm.pages 0x1000 0x40000000 0x5000 0x3 = r := by
    rw [hr, VmmCall.run]
  rw [hcall] at hspec
  rw [← hr]
  rcases hspec with ⟨hfalse, -⟩ | ⟨-, hier, -, hleaf⟩
  · rw [hsmall] at hfalse
    cases hfalse
  · have hpage := hleaf (pagePath 0x40000000)
    rw [if_pos rfl] at hpage
    obtain ⟨pt, hpt⟩ := tableAt_of_leafAt hpage
    exact ⟨hsmall, hlarge, pt, hier.map2m_over_page_table hpt hlarge⟩

end NeverMind.Vmm
