import NeverMind.Verification.Vmm.Hierarchy

/-! # Taking and returning table frames

A mapping call first allocates every table it may need and returns the tables it did not
link. Both directions only move frames between the allocator and the spare tables. -/

namespace NeverMind.Vmm

open Radix List

variable {α : Type*} {A : PageAllocator α} {F : FrameSource A} {root : ℕ} {spare : List ℕ}
  {s s' : Vmm α}

/-! ## Changes outside the tree -/

def SameEntries (s s' : Vmm α) : Prop := ∀ t ∈ s.tables, ∀ i, s'.entry t i = s.entry t i

theorem Hierarchy.tableAt_same (h : Hierarchy F root spare s) (hsame : SameEntries s s')
    (path : List (Fin 512)) : s'.tableAt root path = s.tableAt root path :=
  tableAt_congr (fun _ _ hp j => hsame _ (h.linked_mem hp) j) path

theorem Hierarchy.entryAt_same (h : Hierarchy F root spare s) (hsame : SameEntries s s')
    (path : List (Fin 512)) : s'.entryAt root path = s.entryAt root path :=
  entryAt_congr (fun _ _ hp j => hsame _ (h.linked_mem hp) j) path

theorem Hierarchy.leafAt_same (h : Hierarchy F root spare s) (hsame : SameEntries s s')
    (path : List (Fin 512)) : s'.leafAt root path = s.leafAt root path := by
  rw [leafAt, leafAt, h.entryAt_same hsame]

/-- The invariant survives a change of the allocator and of the spare tables. -/
theorem Hierarchy.transfer (h : Hierarchy F root spare s) {spare' : List ℕ}
    (hsame : SameEntries s s') (hinv : F.Inv s'.pmm)
    (hmem : ∀ t, t ∈ s'.tables ↔ (∃ path, s.tableAt root path = some t) ∨ t ∈ spare')
    (hfree : ∀ t ∈ s'.tables, ¬ F.Free s'.pmm t)
    (hmanaged : ∀ t ∈ s'.tables, t ≠ root → F.Managed s'.pmm t)
    (hunlinked : ∀ t ∈ spare', ∀ path, s.tableAt root path ≠ some t)
    (hblank : ∀ t ∈ spare', ∀ i, present (s'.entry t i) = false) (hnodup : spare'.Nodup) :
    Hierarchy F root spare' s' := by
  have htable := h.tableAt_same hsame
  have hentry := h.entryAt_same hsame
  refine ⟨hinv, ?_, ?_, ?_, hfree, hmanaged, ?_, hblank, hnodup, ?_, ?_⟩
  · intro p p' t hp hp'
    exact h.separate p p' t ((htable p).symm.trans hp) ((htable p').symm.trans hp')
  · intro p t hp
    exact h.page p t ((htable p).symm.trans hp)
  · intro t
    simp only [htable]
    exact hmem t
  · intro t ht p
    rw [htable]
    exact hunlinked t ht p
  · intro p hp
    rw [h.leafAt_same hsame]
    exact h.no_huge p hp
  · intro j p e e' he hpres he'
    rw [hentry] at he he'
    exact h.rights j p e e' he hpres he'

/-- Nothing the manager or its callers can observe has changed: the tables, their entries
and the frames the allocator holds. -/
structure Unchanged (F : FrameSource A) (s s' : Vmm α) : Prop where
  tables : s'.tables = s.tables
  entries : SameEntries s s'
  free : ∀ a, F.Free s'.pmm a ↔ F.Free s.pmm a
  foreign : s'.foreign = s.foreign

theorem Unchanged.refl (F : FrameSource A) (s : Vmm α) : Unchanged F s s :=
  ⟨rfl, fun _ _ _ => rfl, fun _ => Iff.rfl, rfl⟩

/-! ## One table -/

theorem foldl_update_apply {β : Type*} (l : List β) (g : β → ℕ) (c : BitVec 64)
    (mem : ℕ → BitVec 64) (a : ℕ) :
    l.foldl (fun mem i => Function.update mem (g i) c) mem a =
      if a ∈ l.map g then c else mem a := by
  induction l generalizing mem with
  | nil => rfl
  | cons b l ih =>
    rw [foldl_cons, ih]
    by_cases hl : a ∈ l.map g
    · simp [hl]
    · by_cases hb : a = g b
      · simp [hb]
      · simp [hl, hb]

theorem clearTable_apply (t : ℕ) (mem : ℕ → BitVec 64) (a : ℕ) :
    clearTable t mem a = if ∃ i, entrySlot t i = a then 0#64 else mem a := by
  rw [clearTable, foldl_update_apply]
  simp

theorem Hierarchy.aligned (h : Hierarchy F root spare s) {m : ℕ} (hm : m ∈ s.tables) :
    m % 4096 = 0 := by
  rcases (h.mem_tables m).mp hm with ⟨p, hp⟩ | hm
  · exact (h.page p m hp).2.1
  · exact (h.spare_page hm).2.1

variable {t : ℕ}

theorem Hierarchy.sameEntries_clearTable (h : Hierarchy F root spare s) {r : Vmm α}
    (halign : t % 4096 = 0) (hnew : t ∉ s.tables)
    (hword : ∀ m i, r.entry m i = clearTable t s.mem (entrySlot m i)) : SameEntries s r := by
  intro m hm i
  rw [hword, clearTable_apply, if_neg]
  · rfl
  · rintro ⟨j, hj⟩
    obtain ⟨rfl, -⟩ := entrySlot_inj halign (h.aligned hm) hj
    exact hnew hm

/-- A table that the allocator gave out and that is blank becomes a spare one. -/
theorem Hierarchy.take (h : Hierarchy F root spare s) {r : Vmm α} (hwas : F.Free s.pmm t)
    (hentries : SameEntries s r) (hclear : ∀ i, r.entry t i = 0#64)
    (htables : r.tables = insert t s.tables) (hinv : F.Inv r.pmm)
    (hfree : ∀ a, F.Free r.pmm a ↔ F.Free s.pmm a ∧ a ≠ t)
    (hmanaged : ∀ a, F.Managed r.pmm a ↔ F.Managed s.pmm a) :
    Hierarchy F root (spare ++ [t]) r := by
  have hnew : t ∉ s.tables := fun hmem => h.not_free t hmem hwas
  have hmem : ∀ m, m ∈ spare ++ [t] ↔ m ∈ spare ∨ m = t := by simp
  refine h.transfer hentries hinv ?_ ?_ ?_ ?_ ?_ ?_
  · intro m
    rw [htables, Finset.mem_insert, h.mem_tables, hmem]
    tauto
  · intro m hm hf
    obtain ⟨hf, hne⟩ := (hfree m).mp hf
    rw [htables] at hm
    rcases Finset.mem_insert.mp hm with rfl | hm
    · exact hne rfl
    · exact h.not_free m hm hf
  · intro m hm hne
    rw [hmanaged]
    rw [htables] at hm
    rcases Finset.mem_insert.mp hm with rfl | hm
    · exact F.free_managed _ _ h.inv hwas
    · exact h.managed m hm hne
  · intro m hm p hp
    rcases (hmem m).mp hm with hm | rfl
    · exact h.spare_unlinked m hm p hp
    · exact hnew (h.linked_mem hp)
  · intro m hm i
    rcases (hmem m).mp hm with hm | rfl
    · rw [hentries m (h.spare_mem hm) i]
      exact h.spare_blank m hm i
    · rw [hclear i]
      rfl
  · rw [nodup_append']
    refine ⟨h.spare_nodup, nodup_singleton t, ?_⟩
    simpa using fun hm => hnew (h.spare_mem hm)

theorem allocTable_empty (h : Hierarchy F root spare s) (hzero : (A.pmmAllocPage s.pmm).1 = 0) :
    (s.allocTable A).1 = 0 ∧ Hierarchy F root spare (s.allocTable A).2 ∧
      Unchanged F s (s.allocTable A).2 := by
  have heq : s.allocTable A = (0, { s with pmm := (A.pmmAllocPage s.pmm).2 }) := by
    simp [allocTable, hzero]
  have hfree : ∀ a, F.Free (A.pmmAllocPage s.pmm).2 a ↔ F.Free s.pmm a := by
    intro a
    rw [F.alloc_free_iff s.pmm a h.inv, hzero]
    refine and_iff_left_of_imp fun ha => ?_
    exact (F.managed_page _ _ h.inv (F.free_managed _ _ h.inv ha)).1
  rw [heq]
  refine ⟨rfl, h.transfer (fun _ _ _ => rfl) (F.alloc_inv s.pmm h.inv) h.mem_tables ?_ ?_
    h.spare_unlinked h.spare_blank h.spare_nodup, rfl, fun _ _ _ => rfl, hfree, rfl⟩
  · exact fun m hm hf => h.not_free m hm ((hfree m).mp hf)
  · exact fun m hm hne => (F.alloc_managed s.pmm m h.inv).mpr (h.managed m hm hne)

/-- A table taken from the allocator is blank, and no held table is disturbed. -/
theorem allocTable_spec (h : Hierarchy F root spare s) :
    ((s.allocTable A).1 = 0 ∧ Hierarchy F root spare (s.allocTable A).2 ∧
      Unchanged F s (s.allocTable A).2) ∨
    ((s.allocTable A).1 ≠ 0 ∧ (s.allocTable A).1 ∉ s.tables ∧
      Hierarchy F root (spare ++ [(s.allocTable A).1]) (s.allocTable A).2 ∧
      SameEntries s (s.allocTable A).2 ∧
      (s.allocTable A).2.tables = insert (s.allocTable A).1 s.tables ∧
      (∀ a, F.Free s.pmm a ↔ F.Free (s.allocTable A).2.pmm a ∨ a = (s.allocTable A).1) ∧
      (s.allocTable A).2.foreign = s.foreign) := by
  by_cases hzero : (A.pmmAllocPage s.pmm).1 = 0
  · exact .inl (allocTable_empty h hzero)
  right
  have hinv := F.alloc_inv s.pmm h.inv
  have hmanaged := fun a => F.alloc_managed s.pmm a h.inv
  have hfree := fun a => F.alloc_free_iff s.pmm a h.inv
  have hwas := F.alloc_free s.pmm h.inv hzero
  set t := (A.pmmAllocPage s.pmm).1 with ht
  obtain ⟨r, hr⟩ : ∃ r : Vmm α, r = { s with
    pmm := (A.pmmAllocPage s.pmm).2, mem := clearTable t s.mem, tables := insert t s.tables } :=
    ⟨_, rfl⟩
  have heq : s.allocTable A = (t, r) := by
    simp [allocTable, ← ht, hzero, physToPtr, hr]
  have hpmm : r.pmm = (A.pmmAllocPage s.pmm).2 := by rw [hr]
  have htables : r.tables = insert t s.tables := by rw [hr]
  have hword : ∀ m i, r.entry m i = clearTable t s.mem (entrySlot m i) := by
    intro m i
    rw [hr, entry]
  have hnew : t ∉ s.tables := fun hmem => h.not_free t hmem hwas
  have hpage := F.managed_page _ _ h.inv (F.free_managed _ _ h.inv hwas)
  have hentries : SameEntries s r := h.sameEntries_clearTable hpage.2.1 hnew hword
  have hclear : ∀ i, r.entry t i = 0#64 := by
    intro i
    rw [hword, clearTable_apply, if_pos ⟨i, rfl⟩]
  rw [← hpmm] at hinv hfree hmanaged
  rw [heq]
  refine ⟨hzero, hnew, h.take hwas hentries hclear htables hinv hfree hmanaged, hentries,
    htables, ?_, ?_⟩
  · intro a
    rw [hfree a]
    by_cases ha : a = t
    · simp [ha, hwas]
    · simp [ha]
  · rw [hr]

theorem Hierarchy.freeTable (h : Hierarchy F root (t :: spare) s) :
    Hierarchy F root spare (s.freeTable A t) ∧
      ∀ a, F.Free (s.freeTable A t).pmm a ↔ F.Free s.pmm a ∨ a = t := by
  have htmem : t ∈ t :: spare := mem_cons_self
  have hman := h.managed t (h.spare_mem htmem) (h.spare_ne_root htmem)
  have hfree := fun a => F.release_free_iff s.pmm t a h.inv hman
  obtain ⟨htspare, hnodup⟩ := nodup_cons.mp h.spare_nodup
  refine ⟨h.transfer (fun _ _ _ => rfl) (F.release_inv _ _ h.inv hman) ?_ ?_ ?_ ?_ ?_ hnodup, hfree⟩
  · intro m
    rw [show (s.freeTable A t).tables = s.tables.erase t from rfl, Finset.mem_erase, h.mem_tables,
      mem_cons]
    constructor
    · rintro ⟨hne, hlink | rfl | hm⟩
      · exact Or.inl hlink
      · exact absurd rfl hne
      · exact Or.inr hm
    · rintro (⟨p, hp⟩ | hm)
      · refine ⟨?_, Or.inl ⟨p, hp⟩⟩
        rintro rfl
        exact h.spare_unlinked m htmem p hp
      · refine ⟨?_, Or.inr (Or.inr hm)⟩
        rintro rfl
        exact htspare hm
  · intro m hm hf
    obtain ⟨hne, hm⟩ := Finset.mem_erase.mp hm
    rcases (hfree m).mp hf with hf | rfl
    · exact h.not_free m hm hf
    · exact hne rfl
  · intro m hm hne
    obtain ⟨-, hm⟩ := Finset.mem_erase.mp hm
    exact (F.release_managed _ _ _ h.inv hman).mpr (h.managed m hm hne)
  · exact fun m hm => h.spare_unlinked m (mem_cons_of_mem _ hm)
  · exact fun m hm => h.spare_blank m (mem_cons_of_mem _ hm)

/-! ## Lists of tables -/

def freeTables (A : PageAllocator α) (ts : List ℕ) (s : Vmm α) : Vmm α :=
  ts.foldl (fun s t => s.freeTable A t) s

theorem freeTables_mem (ts : List ℕ) (s : Vmm α) : (freeTables A ts s).mem = s.mem := by
  induction ts generalizing s with
  | nil => rfl
  | cons t ts ih => exact ih (s.freeTable A t)

theorem freeTables_foreign (ts : List ℕ) (s : Vmm α) : (freeTables A ts s).foreign = s.foreign := by
  induction ts generalizing s with
  | nil => rfl
  | cons t ts ih => exact ih (s.freeTable A t)

theorem freeTables_entry (ts : List ℕ) (s : Vmm α) : (freeTables A ts s).entry = s.entry := by
  funext t i
  simp only [entry, freeTables_mem]

theorem freeTables_leafAt (ts : List ℕ) (s : Vmm α) (path : List (Fin 512)) :
    (freeTables A ts s).leafAt root path = s.leafAt root path := by
  simp only [leafAt, entryAt, freeTables_entry]

theorem freeTables_tableAt (ts : List ℕ) (s : Vmm α) (path : List (Fin 512)) :
    (freeTables A ts s).tableAt root path = s.tableAt root path := by
  simp only [tableAt, freeTables_entry]

theorem mem_tables_freeTables (ts : List ℕ) (s : Vmm α) (t : ℕ) :
    t ∈ (freeTables A ts s).tables ↔ t ∈ s.tables ∧ t ∉ ts := by
  induction ts generalizing s with
  | nil => simp [freeTables]
  | cons u ts ih =>
    have hstep : freeTables A (u :: ts) s = freeTables A ts (s.freeTable A u) := rfl
    rw [hstep, ih, show (s.freeTable A u).tables = s.tables.erase u from rfl, Finset.mem_erase,
      mem_cons]
    tauto

theorem Hierarchy.freeTables (h : Hierarchy F root spare s) :
    Hierarchy F root [] (freeTables A spare s) ∧
      ∀ a, F.Free (Vmm.freeTables A spare s).pmm a ↔ F.Free s.pmm a ∨ a ∈ spare := by
  induction spare generalizing s with
  | nil => exact ⟨h, fun a => by simp [Vmm.freeTables]⟩
  | cons t spare ih =>
    obtain ⟨hone, hfree⟩ := h.freeTable
    obtain ⟨hrest, hfree'⟩ := ih hone
    refine ⟨hrest, fun a => ?_⟩
    rw [mem_cons, ← or_assoc, ← hfree a]
    exact hfree' a

def live (pool : List ℕ) : List ℕ := pool.filter (· ≠ 0)

variable {pool : List ℕ}

theorem freeTablePool_eq (h : ∀ t ∈ live pool, t < 2 ^ 52) (s : Vmm α) :
    s.freeTablePool A pool = Vmm.freeTables A (live pool) s := by
  induction pool generalizing s with
  | nil => rfl
  | cons t pool ih =>
    by_cases ht : t = 0
    · simpa [freeTablePool, live, ht] using ih (by simpa [live, ht] using h) s
    · have hlive : live (t :: pool) = t :: live pool := by simp [live, ht]
      have hphys : ptrToPhys t = t := by
        have hlt := h t (by simp [hlive])
        rw [ptrToPhys, if_neg]
        simp only [kernelVirtBase]
        omega
      have hrest := ih (fun m hm => h m (by rw [hlive]; exact mem_cons_of_mem _ hm))
        (s.freeTable A t)
      rw [hlive]
      simpa [freeTablePool, Vmm.freeTables, ht, hphys] using hrest

/-! ## The pool of a mapping call -/

/-- `s'` is `s` with the tables of `pool` taken from the allocator in advance. -/
structure Reserved (F : FrameSource A) (root : ℕ) (s : Vmm α) (pool : List ℕ) (s' : Vmm α) :
    Prop where
  hier : Hierarchy F root pool s'
  entries : SameEntries s s'
  tables : ∀ t, t ∈ s'.tables ↔ t ∈ s.tables ∨ t ∈ pool
  free : ∀ a, F.Free s.pmm a ↔ F.Free s'.pmm a ∨ a ∈ pool
  foreign : s'.foreign = s.foreign

theorem live_eq_self (h : ∀ t ∈ pool, t ≠ 0) : live pool = pool :=
  filter_eq_self.mpr (by simpa using h)

theorem Reserved.giveBack (h₀ : Hierarchy F root [] s) (h : Reserved F root s pool s') :
    Hierarchy F root [] (s'.freeTablePool A pool) ∧ Unchanged F s (s'.freeTablePool A pool) := by
  have hlive : live pool = pool := live_eq_self fun t ht => (h.hier.spare_page ht).1
  rw [freeTablePool_eq (by rw [hlive]; exact fun t ht => (h.hier.spare_page ht).2.2), hlive]
  obtain ⟨hfreed, hfree⟩ := h.hier.freeTables
  refine ⟨hfreed, ?_, ?_, ?_, (freeTables_foreign pool s').trans h.foreign⟩
  · ext t
    rw [mem_tables_freeTables, h.tables]
    constructor
    · rintro ⟨ht | ht, hn⟩
      · exact ht
      · exact absurd ht hn
    · intro ht
      refine ⟨Or.inl ht, fun hp => ?_⟩
      rcases (h₀.mem_tables t).mp ht with ⟨p, hlink⟩ | hnil
      · exact h.hier.spare_unlinked t hp p ((h₀.tableAt_same h.entries p).trans hlink)
      · cases hnil
  · intro t ht i
    have hsame := h.entries t ht i
    rwa [entry, freeTables_mem]
  · intro a
    rw [hfree, h.free]

theorem Reserved.take (h : Reserved F root s pool s') (hne : (s'.allocTable A).1 ≠ 0) :
    Reserved F root s (pool ++ [(s'.allocTable A).1]) (s'.allocTable A).2 := by
  rcases allocTable_spec h.hier with ⟨hzero, -⟩ | ⟨-, -, hier, hentries, htables, hfree, hforeign⟩
  · exact absurd hzero hne
  refine ⟨hier, fun t ht i => ?_, fun t => ?_, fun a => ?_, hforeign.trans h.foreign⟩
  · rw [hentries t ((h.tables t).mpr (Or.inl ht)), h.entries t ht]
  · rw [htables, Finset.mem_insert, h.tables, mem_append, mem_singleton]
    tauto
  · rw [h.free, hfree, mem_append, mem_singleton]
    tauto

theorem Reserved.stop (h : Reserved F root s pool s') (hzero : (s'.allocTable A).1 = 0) :
    Reserved F root s pool (s'.allocTable A).2 := by
  rcases allocTable_spec h.hier with ⟨-, hier, hsame⟩ | ⟨hne, -⟩
  swap
  · exact absurd hzero hne
  refine ⟨hier, fun t ht i => ?_, fun t => ?_, fun a => ?_, hsame.foreign.trans h.foreign⟩
  · rw [hsame.entries t ((h.tables t).mpr (Or.inl ht)), h.entries t ht]
  · rw [hsame.tables]
    exact h.tables t
  · rw [hsame.free, h.free]

theorem allocTablePoolFrom_of_zero (hzero : (s.allocTable A).1 = 0) (n : ℕ) :
    allocTablePoolFrom A pool (n + 1) s = (none, (s.allocTable A).2.freeTablePool A pool) := by
  simp [allocTablePoolFrom, hzero]

theorem allocTablePoolFrom_of_ne_zero (hne : (s.allocTable A).1 ≠ 0) (n : ℕ) :
    allocTablePoolFrom A pool (n + 1) s =
      allocTablePoolFrom A (pool ++ [(s.allocTable A).1]) n (s.allocTable A).2 := by
  simp [allocTablePoolFrom, hne]

theorem allocTablePoolFrom_spec (h₀ : Hierarchy F root [] s) {n : ℕ}
    (h : Reserved F root s pool s') :
    (∃ pool' r, allocTablePoolFrom A pool n s' = (some pool', r) ∧
      pool'.length = pool.length + n ∧ Reserved F root s pool' r) ∨
    ∃ r, allocTablePoolFrom A pool n s' = (none, r) ∧ Hierarchy F root [] r ∧ Unchanged F s r := by
  induction n generalizing pool s' with
  | zero => exact Or.inl ⟨pool, s', rfl, rfl, h⟩
  | succ n ih =>
    by_cases hzero : (s'.allocTable A).1 = 0
    · exact Or.inr ⟨_, allocTablePoolFrom_of_zero hzero n, (h.stop hzero).giveBack h₀⟩
    · rw [allocTablePoolFrom_of_ne_zero hzero]
      rcases ih (h.take hzero) with ⟨pool', r, heq, hlen, hr⟩ | hfail
      · refine Or.inl ⟨pool', r, heq, ?_, hr⟩
        rw [hlen, length_append, length_singleton]
        omega
      · exact Or.inr hfail

/-- When the pool cannot be had, the allocator ran dry before it was full. -/
theorem allocTablePoolFrom_none {n : ℕ} (h : Reserved F root s pool s')
    (hnone : (allocTablePoolFrom A pool n s').1 = none) :
    ∃ taken r, Reserved F root s taken r ∧ taken.length < pool.length + n ∧
      (A.pmmAllocPage r.pmm).1 = 0 := by
  induction n generalizing pool s' with
  | zero => cases hnone
  | succ n ih =>
    by_cases hzero : (s'.allocTable A).1 = 0
    · refine ⟨pool, s', h, by omega, ?_⟩
      by_contra hne
      simp [allocTable, hne, physToPtr] at hzero
    · rw [allocTablePoolFrom_of_ne_zero hzero] at hnone
      obtain ⟨taken, r, hres, hlen, hdry⟩ := ih (h.take hzero) hnone
      refine ⟨taken, r, hres, ?_, hdry⟩
      rw [length_append, length_singleton] at hlen
      omega

theorem Hierarchy.reserved_nil (h : Hierarchy F root [] s) : Reserved F root s [] s :=
  ⟨h, fun _ _ _ => rfl, fun t => by simp, fun a => by simp, rfl⟩

/-- Either the whole pool is had, or the call fails with nothing changed. -/
theorem allocTablePool_spec (h : Hierarchy F root [] s) (n : ℕ) :
    (∃ pool r, allocTablePool A n s = (some pool, r) ∧ pool.length = n ∧ Reserved F root s pool r) ∨
    ∃ r, allocTablePool A n s = (none, r) ∧ Hierarchy F root [] r ∧ Unchanged F s r := by
  rcases allocTablePoolFrom_spec (n := n) h h.reserved_nil with ⟨pool, r, heq, hlen, hr⟩ | hfail
  · exact Or.inl ⟨pool, r, heq, by simpa using hlen, hr⟩
  · exact Or.inr hfail

end NeverMind.Vmm
