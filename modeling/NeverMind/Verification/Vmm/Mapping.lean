import NeverMind.Verification.Vmm.Occupied
import NeverMind.Verification.Vmm.Pool

/-! # What each call does to the leaves

A call that succeeds writes or clears one leaf and keeps all others, whatever tables it
creates, widens or tears down on the way. A call that fails changes nothing. -/

namespace NeverMind.Vmm

open Radix Option List

variable {α : Type*} {A : PageAllocator α} {F : FrameSource A} {root : ℕ} {s : Vmm α}

/-! ## One step down -/

theorem takePrealloc_spec {pool rest : List ℕ} {n : ℕ} (h : live pool = n :: rest) :
    ∃ pool', takePrealloc pool = (n, pool') ∧ live pool' = rest := by
  induction pool with
  | nil => cases h
  | cons t pool ih =>
    by_cases ht : t = 0
    · obtain ⟨pool', htake, hlive⟩ := ih (by simpa [live, ht] using h)
      refine ⟨t :: pool', ?_, by simpa [live, ht] using hlive⟩
      simp [takePrealloc, ht, htake]
    · have heq : t :: live pool = n :: rest := by rw [← h]; simp [live, ht]
      obtain ⟨rfl, rfl⟩ := cons.inj heq
      exact ⟨0 :: pool, by simp [takePrealloc, ht], by simp [live]⟩

theorem setEntry_entry (t : ℕ) (i : Fin 512) (s : Vmm α) : s.setEntry t i (s.entry t i) = s := by
  simp only [setEntry, entry, Function.update_eq_self]

/-- Through a present entry: its rights are widened and its table is next. -/
theorem getOrCreateNext_of_present {t : ℕ} {i : Fin 512} {flags : BitVec 64} {pool : List ℕ}
    (htouch : s.touch t = s) (h : present (s.entry t i) = true) :
    getOrCreateNext t i flags pool s =
      (entryPtr (s.entry t i), pool, s.setEntry t i (widen (s.entry t i) flags)) := by
  simp only [getOrCreateNext, htouch, (and_present_ne_zero _).mpr h, not_false_eq_true, if_true,
    ne_eq]
  split
  · rfl
  · rename_i hsame
    rw [widen_of_and_eq (not_not.mp hsame), setEntry_entry]

/-- Through an absent entry: a table of the pool is linked. -/
theorem getOrCreateNext_of_absent {t n : ℕ} {i : Fin 512} {flags : BitVec 64}
    {pool pool' : List ℕ} (htouch : s.touch t = s) (h : present (s.entry t i) = false)
    (htake : takePrealloc pool = (n, pool')) (hn : n ≠ 0) (hlt : n < 2 ^ 52) :
    getOrCreateNext t i flags pool s = (n, pool', s.setEntry t i (linkEntry n flags)) := by
  have hphys : ptrToPhys n = n := by
    rw [ptrToPhys, if_neg]
    simp only [kernelVirtBase]
    omega
  simp [getOrCreateNext, htouch, (and_present_eq_zero _).mpr h, htake, hn, hphys, linkEntry]

/-- After a step down to the table at `path` the leaves are as before and every entry on
the way grants the rights asked for. -/
structure Descended (F : FrameSource A) (root : ℕ) (s : Vmm α) (path : List (Fin 512))
    (flags : BitVec 64) (next : ℕ) (spare : List ℕ) (s' : Vmm α) : Prop where
  hier : Hierarchy F root spare s'
  table : s'.tableAt root path = some next
  grants : ∀ e, s'.entryAt root path = some e → Grants e flags
  deeper : ∀ p, path.length < p.length → s'.tableAt root p = s.tableAt root p
  leaf : ∀ p, s'.leafAt root p = s.leafAt root p
  foreign : s'.foreign = s.foreign

theorem Descended.next_ne_zero {path : List (Fin 512)} {flags : BitVec 64} {next : ℕ}
    {spare : List ℕ} {s' : Vmm α} (h : Descended F root s path flags next spare s') : next ≠ 0 :=
  (h.hier.page _ _ h.table).1

section

variable {t : ℕ} {i : Fin 512} {path : List (Fin 512)} {flags : BitVec 64} {pool : List ℕ}
  (h : Hierarchy F root (live pool) s) (hpath : s.tableAt root path = some t)
  (hup : ∀ e, s.entryAt root path = some e → Grants e flags)

include h hpath hup

theorem getOrCreateNext_linked (hpres : present (s.entry t i) = true)
    (hleaf : s.leafAt root (i :: path) = none) :
    ∃ next s', getOrCreateNext t i flags pool s = (next, pool, s') ∧
      Descended F root s (i :: path) flags next (live pool) s' ∧
      ∀ s₀, Grown root s₀ path s → Grown root s₀ (i :: path) s' := by
  have hnoleaf := isLeaf_of_leafAt_eq_none hpath hleaf
  have hlink := nextTable_of_not_leaf hpres hnoleaf
  have hwide : nextTable path.length (widen (s.entry t i) flags) =
      nextTable path.length (s.entry t i) := by
    simp only [nextTable, present_widen, large_widen, entryPtr_widen]
  have hnoleaf' : isLeaf path.length (widen (s.entry t i) flags) = false := by
    rw [isLeaf, present_widen, large_widen]
    exact hnoleaf
  obtain ⟨hier, htable, hleaves⟩ := h.setEntry_keep hpath hwide (fun _ => hnoleaf')
    (fun _ e he => grants_widen (h.rights i path _ _ (entryAt_cons hpath i) hpres he)
      (hup e he))
    (fun _ => widen_grants_entry _ _)
  have hnext : s.tableAt root (i :: path) = some (entryPtr (s.entry t i)) := by
    rw [tableAt, tableAt_cons hpath, hlink]
  refine ⟨_, _, getOrCreateNext_of_present (h.touch_linked hpath) hpres,
    ⟨hier, ?_, ?_, fun p _ => htable p, ?_, rfl⟩, fun s₀ hgrown => ?_⟩
  · rw [htable, hnext]
  · intro e he
    rw [entryAt, entryAt_cons ((htable path).trans hpath), entry_setEntry_self] at he
    obtain rfl := some.inj he
    exact widen_grants_flags _ _
  · intro p
    rw [hleaves]
    split
    · rename_i heq
      rw [heq, hleaf, filter_some, hnoleaf']
      rfl
    · rfl
  · exact hgrown.fill h hpath (by rw [present_widen, hpres]) fun p _ => htable p

theorem getOrCreateNext_new (hpres : present (s.entry t i) = false) (hlen : path.length < 3)
    (hflags : OnlyRights flags) {n : ℕ} {rest : List ℕ} (hlive : live pool = n :: rest) :
    ∃ pool' s', getOrCreateNext t i flags pool s = (n, pool', s') ∧ live pool' = rest ∧
      Descended F root s (i :: path) flags n rest s' ∧
      ∀ s₀, Grown root s₀ path s → Grown root s₀ (i :: path) s' := by
  obtain ⟨pool', htake, hrest⟩ := takePrealloc_spec hlive
  rw [hlive] at h
  have hpage := h.spare_page (mem_cons_self (a := n))
  have hnew : nextTable path.length (linkEntry n flags) = some n :=
    nextTable_eq_some.mpr ⟨⟨hlen, present_linkEntry n flags, large_linkEntry hpage.2.1 hflags⟩,
      entryPtr_linkEntry hpage.2.1 (by omega) hflags⟩
  obtain ⟨hier, htable, hleaves⟩ := h.setEntry_relink (w := some n) hpath
    (nextTable_of_not_present hpres _) hnew (by simp) (isLeaf_of_not_present hpres _)
    (isLeaf_of_nextTable hnew) fun _ e he => grants_linkEntry hpage.2.1 (hup e he)
  rw [toList_none, append_nil] at hier
  have hself : path ≠ i :: path := fun heq => by simpa using congrArg length heq
  refine ⟨_, _, getOrCreateNext_of_absent (h.touch_linked hpath) hpres htake hpage.1 hpage.2.2,
    hrest, ⟨hier, ?_, ?_, fun p hp => ?_, hleaves, rfl⟩, fun s₀ hgrown => ?_⟩
  · rw [htable, if_pos rfl]
  · intro e he
    have hkeep : (s.setEntry t i (linkEntry n flags)).tableAt root path = some t := by
      rw [htable, if_neg hself, hpath]
    rw [entryAt, entryAt_cons hkeep, entry_setEntry_self] at he
    obtain rfl := some.inj he
    exact linkEntry_grants n flags
  · rw [htable, if_neg]
    rintro rfl
    exact absurd hp (Nat.lt_irrefl _)
  · refine hgrown.fill h hpath (present_linkEntry n flags) fun p hp => ?_
    rw [htable, if_neg hp]

theorem getOrCreateNext_spec (hlen : path.length < 3) (hleaf : s.leafAt root (i :: path) = none)
    (hflags : OnlyRights flags) (hpool : live pool ≠ []) :
    ∃ next pool' s', getOrCreateNext t i flags pool s = (next, pool', s') ∧
      live pool' ⊆ live pool ∧ (live pool).length ≤ (live pool').length + 1 ∧
      Descended F root s (i :: path) flags next (live pool') s' ∧
      ∀ s₀, Grown root s₀ path s → Grown root s₀ (i :: path) s' := by
  cases hpres : present (s.entry t i) with
  | true =>
    obtain ⟨next, s', heq, hd, hgrown⟩ := getOrCreateNext_linked h hpath hup hpres hleaf
    exact ⟨next, pool, s', heq, fun _ hm => hm, by omega, hd, hgrown⟩
  | false =>
    cases hlive : live pool with
    | nil => exact absurd hlive hpool
    | cons n rest =>
      obtain ⟨pool', s', heq, hrest, hd, hgrown⟩ :=
        getOrCreateNext_new h hpath hup hpres hlen hflags hlive
      refine ⟨n, pool', s', heq, ?_, ?_, hrest ▸ hd, hgrown⟩
      · rw [hrest]
        exact subset_cons_self n rest
      · rw [hrest, length_cons]

end

/-! ## Mapping -/

def pdPath (virtAddr : ℕ) : List (Fin 512) := [pdptIndex virtAddr, pml4Index virtAddr]

def largePath (virtAddr : ℕ) : List (Fin 512) := pdIndex virtAddr :: pdPath virtAddr

def pagePath (virtAddr : ℕ) : List (Fin 512) := ptIndex virtAddr :: largePath virtAddr

theorem tableAt_nil (s : Vmm α) (root : ℕ) : s.tableAt root [] = some root := rfl

/-- The two steps that both mapping calls share. -/
theorem descend_pd {pool : List ℕ} (virtAddr : ℕ) {flags : BitVec 64}
    (h : Hierarchy F root (live pool) s) (hflags : OnlyRights flags)
    (hpool : 2 ≤ (live pool).length) :
    ∃ pdpt pool₁ s₁ pd pool₂ s₂,
      getOrCreateNext root (pml4Index virtAddr) flags pool s = (pdpt, pool₁, s₁) ∧ pdpt ≠ 0 ∧
      getOrCreateNext pdpt (pdptIndex virtAddr) flags pool₁ s₁ = (pd, pool₂, s₂) ∧ pd ≠ 0 ∧
      live pool₂ ⊆ live pool ∧ (live pool).length ≤ (live pool₂).length + 2 ∧
      Descended F root s (pdPath virtAddr) flags pd (live pool₂) s₂ ∧
      Grown root s (pdPath virtAddr) s₂ := by
  have hne : live pool ≠ [] := by
    intro heq
    simp [heq] at hpool
  obtain ⟨pdpt, pool₁, s₁, hget₁, hsub₁, hlen₁, hd₁, hg₁⟩ := getOrCreateNext_spec
    (i := pml4Index virtAddr) h (tableAt_nil s root) (fun e he => by cases he) (by decide)
    (h.no_huge _ (by simp)) hflags hne
  have hne₁ : live pool₁ ≠ [] := by
    intro heq
    rw [heq] at hlen₁
    simp at hlen₁
    omega
  obtain ⟨pd, pool₂, s₂, hget₂, hsub₂, hlen₂, hd₂, hg₂⟩ := getOrCreateNext_spec
    (i := pdptIndex virtAddr) hd₁.hier hd₁.table hd₁.grants (by simp)
    (hd₁.hier.no_huge _ (by simp)) hflags hne₁
  refine ⟨pdpt, pool₁, s₁, pd, pool₂, s₂, hget₁, hd₁.next_ne_zero, hget₂, hd₂.next_ne_zero,
    fun _ hm => hsub₁ (hsub₂ hm), by omega,
    ⟨hd₂.hier, hd₂.table, hd₂.grants, fun p hp => ?_, fun p => ?_,
      hd₂.foreign.trans hd₁.foreign⟩, hg₂ s (hg₁ s (Grown.refl root s))⟩
  · simp only [pdPath, length_cons, length_nil] at hp
    rw [hd₂.deeper p (by simpa using hp), hd₁.deeper p (by simp; omega)]
  · rw [hd₂.leaf, hd₁.leaf]

theorem Descended.writeLeaf {path : List (Fin 512)} {flags tableFlags x : BitVec 64} {t : ℕ}
    {spare : List ℕ} {s' : Vmm α} (h : Descended F root s path tableFlags t spare s')
    (i : Fin 512) (hlen : 2 ≤ path.length) (hslot : nextTable path.length (s'.entry t i) = none)
    (hleaf : isLeaf path.length x = true) (hrights : Grants tableFlags flags)
    (hx : Grants flags x) :
    Hierarchy F root spare (s'.setEntry t i x) ∧ (∀ p, (s'.setEntry t i x).leafAt root p =
        if p = i :: path then some x else s.leafAt root p) ∧
      ∀ s₀, Grown root s₀ path s' → Grown root s₀ [] (s'.setEntry t i x) := by
  have hnone := nextTable_of_leaf hleaf
  have hpres : present x = true := by
    by_contra hne
    rw [isLeaf_of_not_present (by simpa using hne)] at hleaf
    cases hleaf
  obtain ⟨hier, htable, hleaves⟩ := h.hier.setEntry_keep h.table (hnone.trans hslot.symm)
    (fun hlt => by omega)
    (fun _ e he => ((h.grants e he).trans hrights).trans hx) (fun hne => absurd hnone hne)
  refine ⟨hier, fun p => ?_, fun s₀ hgrown => hgrown.fill h.hier h.table hpres fun p _ => htable p⟩
  rw [hleaves, h.leaf, filter_some, hleaf, if_pos rfl]

/-- The last part of a mapping call: the unused tables go back. -/
theorem freeTablePool_spec {pool : List ℕ} (h : Hierarchy F root (live pool) s) :
    Hierarchy F root [] (s.freeTablePool A pool) ∧ (s.freeTablePool A pool).foreign = s.foreign ∧
      ∀ p, (s.freeTablePool A pool).leafAt root p = s.leafAt root p := by
  rw [freeTablePool_eq fun t ht => (h.spare_page ht).2.2]
  exact ⟨h.freeTables.1, freeTables_foreign _ _, freeTables_leafAt _ _⟩

def FailsUnchanged (F : FrameSource A) (root : ℕ) (s : Vmm α) (r : Bool × Vmm α) : Prop :=
  r.1 = false ∧ Hierarchy F root [] r.2 ∧ Unchanged F s r.2

def SetsLeaf (F : FrameSource A) (root : ℕ) (s : Vmm α) (path : List (Fin 512))
    (leaf : Option (BitVec 64)) (r : Bool × Vmm α) : Prop :=
  r.1 = true ∧ Hierarchy F root [] r.2 ∧ r.2.foreign = s.foreign ∧
    ∀ p, r.2.leafAt root p = if p = path then leaf else s.leafAt root p

theorem grants_tableFlagsFromLeaf (flags : BitVec 64) : Grants (tableFlagsFromLeaf flags) flags :=
  ⟨by simp [writable_tableFlagsFromLeaf], by simp [userAccess_tableFlagsFromLeaf]⟩

theorem isLeaf_largeLeaf (physAddr flags : BitVec 64) :
    isLeaf 2 (largeLeaf physAddr flags) = true := by
  simp [isLeaf, (leafFor_largeLeaf physAddr flags).present_eq, large_largeLeaf]

theorem Reserved.start {pool : List ℕ} {r : Vmm α} (h : Reserved F root s pool r) :
    live pool = pool ∧ Hierarchy F root (live pool) r := by
  have hlive : live pool = pool := live_eq_self fun t ht => (h.hier.spare_page ht).1
  exact ⟨hlive, hlive.symm ▸ h.hier⟩

/-- What a mapping call that had its pool, `pool` taken in `r`, has done by the time the
tables left in `pool'` go back. -/
structure Placed (F : FrameSource A) (root : ℕ) (s : Vmm α) (path : List (Fin 512))
    (leaf : BitVec 64) (pool : List ℕ) (r : Vmm α) (pool' : List ℕ) (s' : Vmm α) : Prop where
  hier : Hierarchy F root (live pool') s'
  left : live pool' ⊆ pool
  grown : Grown root r [] s'
  foreign : s'.foreign = s.foreign
  leaf : ∀ p, s'.leafAt root p = if p = path then some leaf else s.leafAt root p

theorem Placed.setsLeaf {path : List (Fin 512)} {leaf : BitVec 64} {pool pool' : List ℕ}
    {r s' : Vmm α} (h : Placed F root s path leaf pool r pool' s') :
    SetsLeaf F root s path (some leaf) (true, s'.freeTablePool A pool') := by
  obtain ⟨hfinal, hforeign, hsame⟩ := freeTablePool_spec (A := A) h.hier
  exact ⟨rfl, hfinal, hforeign.trans h.foreign, fun p => (hsame p).trans (h.leaf p)⟩

section

variable {pool : List ℕ} {r : Vmm α} (h : Hierarchy F root [] s) (hres : Reserved F root s pool r)
  (virtAddr : ℕ) (physAddr flags : BitVec 64)

include h hres

theorem vmmMapPageIn_of_pool (hpool : allocTablePool A 3 s = (some pool, r))
    (hlen : pool.length = 3) (hslot : s.leafAt root (largePath virtAddr) = none) :
    ∃ pool' s', s.vmmMapPageIn A root virtAddr physAddr flags = (true, s'.freeTablePool A pool') ∧
      Placed F root s (pagePath virtAddr) (pageLeaf physAddr flags) pool r pool' s' := by
  have hroot : root ≠ 0 := (h.page [] root rfl).1
  obtain ⟨hlive, hstart⟩ := hres.start
  have hrights := onlyRights_tableFlagsFromLeaf flags
  obtain ⟨pdpt, pool₁, s₁, pd, pool₂, s₂, hget₁, hpdpt, hget₂, hpd, hsub₂, hleft, hd₂, hg₂⟩ :=
    descend_pd virtAddr hstart hrights (by rw [hlive, hlen]; decide)
  have hslot₂ : s₂.leafAt root (largePath virtAddr) = none := by
    rw [hd₂.leaf, h.leafAt_same hres.entries, hslot]
  have hmore : live pool₂ ≠ [] := by
    intro heq
    rw [hlive, hlen, heq] at hleft
    simp at hleft
  obtain ⟨pt, pool₃, s₃, hget₃, hsub₃, -, hd₃, hg₃⟩ := getOrCreateNext_spec
    (i := pdIndex virtAddr) hd₂.hier hd₂.table hd₂.grants (by simp [pdPath]) hslot₂ hrights hmore
  have hleafy : isLeaf 3 (pageLeaf physAddr flags) = true := by
    simp [isLeaf, (leafFor_pageLeaf physAddr flags).present_eq]
  obtain ⟨hier, hleaves, hgrown⟩ := hd₃.writeLeaf (ptIndex virtAddr) (by simp [pdPath])
    (by simp [nextTable, pdPath]) hleafy (grants_tableFlagsFromLeaf flags)
    (leafFor_pageLeaf physAddr flags).grants
  refine ⟨pool₃, s₃.setEntry pt (ptIndex virtAddr) (pageLeaf physAddr flags), ?_,
    hier, fun m hm => ?_, hgrown r (hg₃ r hg₂), ?_, fun p => ?_⟩
  · simp [vmmMapPageIn, hroot, hpool, hget₁, hget₂, hget₃, hpdpt, hpd, hd₃.next_ne_zero,
      hd₃.hier.touch_linked hd₃.table]
  · rw [← hlive]
    exact hsub₂ (hsub₃ hm)
  · exact hd₃.foreign.trans (hd₂.foreign.trans hres.foreign)
  · rw [hleaves, hd₂.leaf, h.leafAt_same hres.entries]
    rfl

theorem vmmMap2mIn_descends (hpool : allocTablePool A 2 s = (some pool, r))
    (hlen : pool.length = 2) :
    ∃ pd pool' s', s.vmmMap2mIn A root virtAddr physAddr flags = (true,
        (s'.setEntry pd (pdIndex virtAddr) (largeLeaf physAddr flags)).freeTablePool A pool') ∧
      live pool' ⊆ pool ∧
      Descended F root r (pdPath virtAddr) (tableFlagsFromLeaf flags) pd (live pool') s' ∧
      Grown root r (pdPath virtAddr) s' := by
  have hroot : root ≠ 0 := (h.page [] root rfl).1
  obtain ⟨hlive, hstart⟩ := hres.start
  obtain ⟨pdpt, pool₁, s₁, pd, pool₂, s₂, hget₁, hpdpt, hget₂, hpd, hsub₂, -, hd₂, hg₂⟩ :=
    descend_pd virtAddr hstart (onlyRights_tableFlagsFromLeaf flags) (by rw [hlive, hlen])
  refine ⟨pd, pool₂, s₂, ?_, fun m hm => hlive ▸ hsub₂ hm, hd₂, hg₂⟩
  simp [vmmMap2mIn, hroot, hpool, hget₁, hget₂, hpdpt, hpd, hd₂.hier.touch_linked hd₂.table]

theorem vmmMap2mIn_of_pool (hpool : allocTablePool A 2 s = (some pool, r))
    (hlen : pool.length = 2) (hslot : s.tableAt root (largePath virtAddr) = none) :
    ∃ pool' s', s.vmmMap2mIn A root virtAddr physAddr flags = (true, s'.freeTablePool A pool') ∧
      Placed F root s (largePath virtAddr) (largeLeaf physAddr flags) pool r pool' s' := by
  obtain ⟨pd, pool', s', hrun, hsub, hd, hg⟩ :=
    vmmMap2mIn_descends h hres virtAddr physAddr flags hpool hlen
  have hnolink : nextTable (pdPath virtAddr).length (s'.entry pd (pdIndex virtAddr)) = none := by
    have hdeep := hd.deeper (largePath virtAddr) (by simp [largePath])
    rw [h.tableAt_same hres.entries, hslot, largePath, tableAt, tableAt_cons hd.table] at hdeep
    exact hdeep
  obtain ⟨hier, hleaves, hgrown⟩ := hd.writeLeaf (pdIndex virtAddr) (by simp [pdPath]) hnolink
    (isLeaf_largeLeaf physAddr flags) (grants_tableFlagsFromLeaf flags)
    (leafFor_largeLeaf physAddr flags).grants
  refine ⟨pool', _, hrun, hier, hsub, hgrown r hg, hd.foreign.trans hres.foreign, fun p => ?_⟩
  rw [hleaves, h.leafAt_same hres.entries]
  rfl

end

/-- The outcomes of a mapping call that asks for `n` tables in advance. -/
inductive MapOutcome (F : FrameSource A) (root n : ℕ) (s : Vmm α) (path : List (Fin 512))
    (leaf : BitVec 64) : Bool × Vmm α → Prop
  | fails {r : Vmm α} (pool_none : (allocTablePool A n s).1 = none)
      (hier : Hierarchy F root [] r) (same : Unchanged F s r) :
      MapOutcome F root n s path leaf (false, r)
  | succeeds {pool pool' : List ℕ} {r s' : Vmm α}
      (pool_some : allocTablePool A n s = (some pool, r)) (length_eq : pool.length = n)
      (reserved : Reserved F root s pool r)
      (placed : Placed F root s path leaf pool r pool' s') :
      MapOutcome F root n s path leaf (true, s'.freeTablePool A pool')

/-- A mapping call fails if its tables cannot be had, and writes its leaf otherwise. -/
theorem MapOutcome.of_pool {n : ℕ} {path : List (Fin 512)} {leaf : BitVec 64} {x : Bool × Vmm α}
    (h : Hierarchy F root [] s)
    (hnone : ∀ r, allocTablePool A n s = (none, r) → x = (false, r))
    (hsome : ∀ pool r, Reserved F root s pool r → allocTablePool A n s = (some pool, r) →
      pool.length = n → ∃ pool' s', x = (true, s'.freeTablePool A pool') ∧
        Placed F root s path leaf pool r pool' s') : MapOutcome F root n s path leaf x := by
  rcases allocTablePool_spec h n with ⟨pool, r, hpool, hlen, hres⟩ | ⟨r, hpool, hier, hsame⟩
  · obtain ⟨pool', s', rfl, hplaced⟩ := hsome pool r hres hpool hlen
    exact .succeeds hpool hlen hres hplaced
  · rw [hnone r hpool]
    exact .fails (by rw [hpool]) hier hsame

theorem vmmMapPageIn_outcome (h : Hierarchy F root [] s) (virtAddr : ℕ)
    (physAddr flags : BitVec 64) (hslot : s.leafAt root (largePath virtAddr) = none) :
    MapOutcome F root 3 s (pagePath virtAddr) (pageLeaf physAddr flags)
      (s.vmmMapPageIn A root virtAddr physAddr flags) := by
  refine .of_pool h (fun r hpool => ?_) fun pool r hres hpool hlen =>
    vmmMapPageIn_of_pool h hres virtAddr physAddr flags hpool hlen hslot
  simp [vmmMapPageIn, (h.page [] root rfl).1, hpool]

theorem vmmMap2mIn_outcome (h : Hierarchy F root [] s) (virtAddr : ℕ)
    (physAddr flags : BitVec 64) (hslot : s.tableAt root (largePath virtAddr) = none) :
    MapOutcome F root 2 s (largePath virtAddr) (largeLeaf physAddr flags)
      (s.vmmMap2mIn A root virtAddr physAddr flags) := by
  refine .of_pool h (fun r hpool => ?_) fun pool r hres hpool hlen =>
    vmmMap2mIn_of_pool h hres virtAddr physAddr flags hpool hlen hslot
  simp [vmmMap2mIn, (h.page [] root rfl).1, hpool]

theorem MapOutcome.setsLeaf {n : ℕ} {path : List (Fin 512)} {leaf : BitVec 64} {x : Bool × Vmm α}
    (h : MapOutcome F root n s path leaf x) :
    FailsUnchanged F root s x ∨ SetsLeaf F root s path (some leaf) x := by
  cases h with
  | fails _ hier same => exact Or.inl ⟨rfl, hier, same⟩
  | succeeds _ _ _ placed => exact Or.inr placed.setsLeaf

/-! ## Unmapping -/

theorem tableEmpty_iff (s : Vmm α) (t : ℕ) :
    s.tableEmpty t = true ↔ ∀ i, present (s.entry t i) = false := by
  simp [tableEmpty, and_present_eq_zero]

theorem present_zero : present 0#64 = false := rfl

/-- The tables an unmap call passes through, from the root down. -/
structure Chain (s : Vmm α) (root virtAddr pdpt pd pt : ℕ) : Prop where
  pdpt_at : s.tableAt root [pml4Index virtAddr] = some pdpt
  pd_at : s.tableAt root (pdPath virtAddr) = some pd
  pt_at : s.tableAt root (largePath virtAddr) = some pt

/-- On the way up from the page of `virtAddr`: its entry is clear, the tables `gone` are
unlinked, and the entry just cleared was in the table at `path`. -/
structure Unlinking (F : FrameSource A) (root : ℕ) (s : Vmm α) (virtAddr : ℕ)
    (path : List (Fin 512)) (gone : List ℕ) (s' : Vmm α) : Prop where
  hier : Hierarchy F root gone s'
  upper : ∀ p, p.length ≤ path.length → s'.tableAt root p = s.tableAt root p
  leaf : ∀ p, s'.leafAt root p = if p = pagePath virtAddr then none else s.leafAt root p
  foreign : s'.foreign = s.foreign
  pmm_eq : s'.pmm = s.pmm
  tables_eq : s'.tables = s.tables
  writes : ∀ t i, s'.entry t i = s.entry t i ∨ s'.entry t i = 0#64
  noEmpty : NoEmptyBut root [] s → NoEmptyBut root path s'

section

variable {virtAddr t : ℕ} {path : List (Fin 512)} {gone : List ℕ} {s' : Vmm α}

theorem Hierarchy.unlink_page (h : Hierarchy F root [] s)
    (ht : s.tableAt root (largePath virtAddr) = some t) :
    Unlinking F root s virtAddr (largePath virtAddr) [] (s.setEntry t (ptIndex virtAddr) 0#64) := by
  obtain ⟨hier, htable, hleaf⟩ := h.setEntry_keep ht (i := ptIndex virtAddr) (x := 0#64)
    (by simp [nextTable, largePath, pdPath]) (fun _ => isLeaf_of_not_present present_zero _)
    (fun hp => by cases hp) (fun hne => absurd (nextTable_of_not_present present_zero _) hne)
  rw [filter_some, isLeaf_of_not_present present_zero, if_neg (by decide)] at hleaf
  refine ⟨hier, fun p _ => htable p, hleaf, rfl, rfl, rfl, fun u j => entry_setEntry .., ?_⟩
  intro hfull
  refine hfull.clear h ht fun p u hne hu => ⟨hne, ?_⟩
  rwa [htable] at hu

theorem Unlinking.up {i : Fin 512} {n : ℕ} (h : Unlinking F root s virtAddr (i :: path) gone s')
    (ht : s.tableAt root path = some t) (hn : s.tableAt root (i :: path) = some n)
    (hempty : s'.tableEmpty n = true) :
    Unlinking F root s virtAddr path (gone ++ [n]) (s'.setEntry t i 0#64) := by
  have ht' : s'.tableAt root path = some t := by
    rw [h.upper path (by simp), ht]
  have hn' : s'.tableAt root (i :: path) = some n := by
    rw [h.upper _ le_rfl, hn]
  have hlink : nextTable path.length (s'.entry t i) = some n := by
    rwa [tableAt, tableAt_cons ht'] at hn'
  have hblank : ∀ m, some n = some m → ∀ j, present (s'.entry m j) = false := by
    rintro m ⟨⟩
    exact (tableEmpty_iff s' n).mp hempty
  obtain ⟨hier, htable, hleaf⟩ := h.hier.setEntry_relink (x := 0#64) (w := none) ht' hlink
    (nextTable_of_not_present present_zero _) hblank (isLeaf_of_nextTable hlink)
    (isLeaf_of_not_present present_zero _) (fun hp => by cases hp)
  refine ⟨hier, fun p hp => ?_, fun p => (hleaf p).trans (h.leaf p), h.foreign, h.pmm_eq,
    h.tables_eq, fun u j => ?_, fun hfull => ?_⟩
  · have hne : p ≠ i :: path := by
      rintro rfl
      simp at hp
    rw [htable, if_neg hne, h.upper p (by simp only [length_cons]; omega)]
  · rcases entry_setEntry t u i j 0#64 s' with heq | heq
    · rw [heq]
      exact h.writes u j
    · exact Or.inr heq
  · refine (h.noEmpty hfull).clear h.hier ht' fun p u _ hu => ?_
    rw [htable] at hu
    split at hu
    · cases hu
    · rename_i hne
      exact ⟨hne, hu⟩

theorem Unlinking.stop (h : Unlinking F root s virtAddr path gone s')
    (ht : s.tableAt root path = some t) (hsome : ¬ s'.tableEmpty t = true) :
    Unlinking F root s virtAddr [] gone s' := by
  have ht' : s'.tableAt root path = some t := by
    rw [h.upper path le_rfl, ht]
  rw [tableEmpty_iff] at hsome
  push Not at hsome
  obtain ⟨j, hj⟩ := hsome
  have hj : present (s'.entry t j) = true := by simpa using hj
  exact ⟨h.hier, fun p hp => h.upper p (hp.trans (Nat.zero_le _)), h.leaf, h.foreign, h.pmm_eq,
    h.tables_eq, h.writes, fun hfull => (h.noEmpty hfull).close ht' hj⟩

end

theorem unlinkEmpty_spec (h : Hierarchy F root [] s) {virtAddr pdpt pd pt : ℕ}
    (hc : Chain s root virtAddr pdpt pd pt) :
    Unlinking F root s virtAddr [] (unlinkEmpty root pdpt pd pt virtAddr s).1
      (unlinkEmpty root pdpt pd pt virtAddr s).2 := by
  have h₁ := h.unlink_page hc.pt_at
  simp only [unlinkEmpty]
  split
  swap
  · exact h₁.stop hc.pt_at ‹_›
  have h₂ := h₁.up hc.pd_at hc.pt_at ‹_›
  split
  swap
  · exact h₂.stop hc.pd_at ‹_›
  have h₃ := h₂.up hc.pdpt_at hc.pd_at ‹_›
  split
  swap
  · exact h₃.stop hc.pdpt_at ‹_›
  exact h₃.up (tableAt_nil s root) hc.pdpt_at ‹_›

/-- A present entry of a slot without a leaf leads to the table below. -/
theorem tableAt_of_present {t : ℕ} {i : Fin 512} {path : List (Fin 512)}
    (hpath : s.tableAt root path = some t) (hleaf : s.leafAt root (i :: path) = none)
    (hpres : present (s.entry t i) = true) :
    s.tableAt root (i :: path) = some (entryPtr (s.entry t i)) := by
  rw [tableAt, tableAt_cons hpath]
  exact nextTable_of_not_leaf hpres (isLeaf_of_leafAt_eq_none hpath hleaf)

/-- The two outcomes of `vmm_unmap_page_in`. -/
theorem vmmUnmapPageIn_cases (h : Hierarchy F root [] s) (virtAddr : ℕ) :
    s.vmmUnmapPageIn A root virtAddr = (false, s) ∨
      (s.leafAt root (largePath virtAddr) = none ∧ ∃ gone s',
        s.vmmUnmapPageIn A root virtAddr = (true, freeTables A gone s') ∧
          Unlinking F root s virtAddr [] gone s') := by
  have hroot : root ≠ 0 := (h.page [] root rfl).1
  have htouch₀ := h.touch_linked (tableAt_nil s root)
  by_cases hp₁ : present (s.entry root (pml4Index virtAddr)) = true
  swap
  · left
    rw [Bool.not_eq_true] at hp₁
    simp [vmmUnmapPageIn, hroot, htouch₀, (and_present_eq_zero _).mpr hp₁]
  have hpdpt := tableAt_of_present (tableAt_nil s root) (h.no_huge _ (by simp)) hp₁
  have htouch₁ := h.touch_linked hpdpt
  have hne₁ := (and_present_ne_zero _).mpr hp₁
  set pdpt := entryPtr (s.entry root (pml4Index virtAddr)) with hpdptDef
  by_cases hp₂ : present (s.entry pdpt (pdptIndex virtAddr)) = true
  swap
  · left
    rw [Bool.not_eq_true] at hp₂
    simp [vmmUnmapPageIn, hroot, htouch₀, hne₁, ← hpdptDef, htouch₁,
      (and_present_eq_zero _).mpr hp₂]
  have hpd := tableAt_of_present hpdpt (h.no_huge _ (by simp)) hp₂
  have htouch₂ := h.touch_linked hpd
  have hne₂ := (and_present_ne_zero _).mpr hp₂
  set pd := entryPtr (s.entry pdpt (pdptIndex virtAddr)) with hpdDef
  by_cases hp₃ : present (s.entry pd (pdIndex virtAddr)) = true ∧
      large (s.entry pd (pdIndex virtAddr)) = false
  swap
  · left
    have hstop : s.entry pd (pdIndex virtAddr) &&& pageFlagPresent = 0#64 ∨
        s.entry pd (pdIndex virtAddr) &&& pageFlagPs ≠ 0#64 := by
      rw [and_present_eq_zero, and_ps_ne_zero]
      by_contra hboth
      push Not at hboth
      exact hp₃ ⟨by simpa using hboth.1, by simpa using hboth.2⟩
    simp only [vmmUnmapPageIn, hroot, if_false, htouch₀, hne₁, ← hpdptDef, htouch₁, hne₂, ← hpdDef,
      htouch₂, hstop, if_true]
  right
  obtain ⟨hpres, hsmall⟩ := hp₃
  have hdir : s.tableAt root (pdPath virtAddr) = some pd := hpd
  have hnoleaf : s.leafAt root (largePath virtAddr) = none := by
    rw [largePath, leafAt_cons hdir, filter_some]
    simp [isLeaf, hsmall, pdPath]
  have hpt := tableAt_of_present hdir hnoleaf hpres
  have htouch₃ := h.touch_linked hpt
  have hgo : ¬ (s.entry pd (pdIndex virtAddr) &&& pageFlagPresent = 0#64 ∨
      s.entry pd (pdIndex virtAddr) &&& pageFlagPs ≠ 0#64) := by
    rw [and_present_eq_zero, and_ps_ne_zero, hpres, hsmall]
    decide
  refine ⟨hnoleaf, _, _, ?_, unlinkEmpty_spec h ⟨hpdpt, hdir, hpt⟩⟩
  simp only [vmmUnmapPageIn, hroot, if_false, htouch₀, hne₁, ← hpdptDef, htouch₁, hne₂, ← hpdDef,
    htouch₂, hgo, htouch₃]
  rfl

theorem vmmUnmapPageIn_spec (h : Hierarchy F root [] s) (virtAddr : ℕ) :
    s.vmmUnmapPageIn A root virtAddr = (false, s) ∨ (s.leafAt root (largePath virtAddr) = none ∧
        SetsLeaf F root s (pagePath virtAddr) none (s.vmmUnmapPageIn A root virtAddr)) := by
  rcases vmmUnmapPageIn_cases h virtAddr with hfalse | ⟨hslot, gone, s', heq, hun⟩
  · exact Or.inl hfalse
  · right
    refine ⟨hslot, ?_⟩
    rw [heq]
    refine ⟨rfl, hun.hier.freeTables.1, ?_, fun p => ?_⟩
    · rw [freeTables_foreign]
      exact hun.foreign
    · rw [freeTables_leafAt]
      exact hun.leaf p

end NeverMind.Vmm
