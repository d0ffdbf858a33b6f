import NeverMind.Library.Run
import NeverMind.Verification.Vmm.Frames
import Mathlib.Data.Set.Card

/-! # Unmapping returns every table

With 4 KiB pages only, a table below the root is there exactly as long as a page under it
is mapped. When the last page goes, the root is zero again and every frame is back. -/

namespace NeverMind.Vmm

open Radix PageMap Finset Pmm

variable {α : Type*} {A : PageAllocator α} {F : FrameSource A} {root : ℕ} {s s₀ : Vmm α}

/-! ## Calls on 4 KiB pages -/

def pageNumber (virtAddr : ℕ) : ℕ := virtAddr % 2 ^ 48 / 2 ^ 12

theorem pagePath_eq_iff_pageNumber (a b : ℕ) :
    pagePath a = pagePath b ↔ pageNumber a = pageNumber b :=
  pagePath_eq_iff a b

inductive PageCall where
  | map (virtAddr : ℕ) (physAddr flags : BitVec 64)
  | unmap (virtAddr : ℕ)

namespace PageCall

def toVmmCall : PageCall → VmmCall
  | map v p f => .mapPage v p f
  | unmap v => .unmapPage v

def virtAddr : PageCall → ℕ
  | map v _ _ => v
  | unmap v => v

def leaf : PageCall → Option (BitVec 64)
  | map _ p f => some (pageLeaf p f)
  | unmap _ => none

def mapped : PageCall → Finset ℕ → Finset ℕ
  | map v _ _, pages => insert (pageNumber v) pages
  | unmap v, pages => pages.erase (pageNumber v)

/-- One call next to the set of the pages mapped so far. -/
def step (A : PageAllocator α) (root : ℕ) (c : PageCall) (x : Vmm α × Finset ℕ) :
    Vmm α × Finset ℕ :=
  let r := c.toVmmCall.run A root x.1
  (r.2, if r.1 then c.mapped x.2 else x.2)

theorem fits (c : PageCall) (h : ∀ p : List (Fin 512), p.length = 3 → s.leafAt root p = none) :
    c.toVmmCall.Fits root s := by
  cases c with
  | map v p f => exact h _ rfl
  | unmap v => trivial

theorem leafAt_run (c : PageCall) (h : Hierarchy F root [] s)
    (hsmall : ∀ p : List (Fin 512), p.length = 3 → s.leafAt root p = none) (p : List (Fin 512)) :
    (c.toVmmCall.run A root s).2.leafAt root p =
      if (c.toVmmCall.run A root s).1 = true ∧ p = pagePath c.virtAddr then c.leaf
      else s.leafAt root p := by
  cases c with
  | map v q f =>
    rcases (vmmMapPageIn_outcome h v q f (hsmall _ rfl)).setsLeaf with
      ⟨hfalse, -, hsame⟩ | ⟨htrue, -, -, hleaf⟩
    · simp only [toVmmCall, VmmCall.run, hfalse]
      rw [h.leafAt_same hsame.entries]
      simp
    · simp only [toVmmCall, VmmCall.run, htrue, true_and]
      exact hleaf p
  | unmap v =>
    rcases vmmUnmapPageIn_spec h v with hfalse | ⟨-, htrue, -, -, hleaf⟩
    · simp [toVmmCall, VmmCall.run, hfalse]
    · simp only [toVmmCall, VmmCall.run, htrue, true_and]
      exact hleaf p

theorem mem_mapped (c : PageCall) (pages : Finset ℕ) (n : ℕ) :
    n ∈ c.mapped pages ↔ if n = pageNumber c.virtAddr then c.leaf.isSome = true else n ∈ pages := by
  cases c with
  | map v p f | unmap v => by_cases hn : n = pageNumber v <;> simp [mapped, leaf, virtAddr, hn]

end PageCall

/-! ## The invariant of a run -/

/-- A run that began in `s₀` has reached the tables and the set of mapped pages `x`. -/
structure PagesOnly (F : FrameSource A) (root : ℕ) (s₀ : Vmm α) (x : Vmm α × Finset ℕ) :
    Prop where
  hier : Hierarchy F root [] x.1
  noEmpty : NoEmptyBut root [] x.1
  conserves : Conserves F s₀ x.1
  root_entry : ∀ i, x.1.entry root i = 0#64 ∨ present (x.1.entry root i) = true
  no_large : ∀ p : List (Fin 512), p.length = 3 → x.1.leafAt root p = none
  mapped : ∀ v, (x.1.leafAt root (pagePath v)).isSome ↔ pageNumber v ∈ x.2

theorem ZeroedRoot.pagesOnly (h : ZeroedRoot F root s) : PagesOnly F root s (s, ∅) := by
  have hnone : ∀ i (p : List (Fin 512)), p ≠ [] → s.leafAt root (i :: p) = none := by
    intro i p hp
    apply leafAt_of_tableAt_none
    rw [Option.eq_none_iff_forall_ne_some]
    exact fun t ht => hp (h.tableAt_eq ht).1
  refine ⟨h.hierarchy, h.noEmpty, fun _ => Iff.rfl, fun i => Or.inl (h.cleared i), ?_, fun v => ?_⟩
  · intro p hp
    match p with
    | i :: j :: k :: [] => exact hnone i _ (by simp)
  · rw [pagePath, hnone _ _ (by simp [largePath])]
    simp

variable {x : Vmm α × Finset ℕ}

theorem PagesOnly.step (h : PagesOnly F root s₀ x) (c : PageCall) :
    PagesOnly F root s₀ (c.step A root x) := by
  have hfits := c.fits h.no_large
  have htended := h.hier.run_tended hfits
  have hleaf := c.leafAt_run h.hier h.no_large
  refine ⟨(h.hier.run_call hfits).1, htended.noEmpty h.noEmpty, h.conserves.trans htended.conserves,
    fun i => ?_, fun p hp => ?_, fun v => ?_⟩
  · rcases htended.writes i with heq | hpres | hzero
    · rw [PageCall.step, heq]
      exact h.root_entry i
    · exact Or.inr hpres
    · exact Or.inl hzero
  · have hne : p ≠ pagePath c.virtAddr := by
      rintro rfl
      simp [pagePath, largePath, pdPath] at hp
    rw [PageCall.step, hleaf, if_neg fun hc => hne hc.2]
    exact h.no_large p hp
  · rw [PageCall.step, hleaf]
    simp only [pagePath_eq_iff_pageNumber]
    by_cases hok : (c.toVmmCall.run A root x.1).1 = true
    · simp only [hok, true_and, if_true, PageCall.mem_mapped]
      split
      · rfl
      · exact h.mapped v
    · rw [if_neg fun hc => hok hc.1, if_neg hok]
      exact h.mapped v

theorem pagesOnly_run (h₀ : ZeroedRoot F root s₀) (calls : List PageCall) :
    PagesOnly F root s₀ (runCalls (PageCall.step A root) calls (s₀, ∅)) :=
  (eachStep_true calls _).run (fun c _ _ h => h.step c) h₀.pagesOnly

/-! ## When no page is mapped -/

variable {p : List (Fin 512)}

theorem length_le_of_tableAt {t : ℕ} (hp : s.tableAt root p = some t) : p.length ≤ 3 := by
  cases p with
  | nil => simp
  | cons i p =>
    obtain ⟨u, -, hnext⟩ := tableAt_of_cons hp
    exact (nextTable_eq_some.mp hnext).1.1

theorem NoEmptyBut.leaf_below (h : NoEmptyBut root [] s) {i : Fin 512} {t : ℕ}
    (hp : s.tableAt root p = some t) (hpres : present (s.entry t i) = true) :
    ∃ q : List (Fin 512), q.length ≤ 4 ∧ s.leafAt root q ≠ none := by
  -- the tables end at depth three, so the induction is on what is left to it
  induction hd : 3 - p.length generalizing i p t with
  | zero =>
    have hlen := length_le_of_tableAt hp
    have hleaf : isLeaf p.length (s.entry t i) = true := by
      simp [isLeaf, hpres, show 3 ≤ p.length by omega]
    refine ⟨i :: p, by simp only [List.length_cons]; omega, ?_⟩
    rw [leafAt_of_isLeaf hp hleaf]
    simp
  | succ d ih =>
    by_cases hleaf : isLeaf p.length (s.entry t i) = true
    · refine ⟨i :: p, by simp only [List.length_cons]; omega, ?_⟩
      rw [leafAt_of_isLeaf hp hleaf]
      simp
    · have hnext := nextTable_of_not_leaf hpres (by simpa using hleaf)
      have hbelow : s.tableAt root (i :: p) = some (entryPtr (s.entry t i)) := by
        rw [tableAt, tableAt_cons hp, hnext]
      obtain ⟨j, hj⟩ := h _ _ (by simp) (by simp) hbelow
      exact ih hbelow hj (by simp only [List.length_cons]; omega)

theorem exists_pagePath (q : List (Fin 512)) (hq : q.length = 4) : ∃ v, pagePath v = q := by
  match q with
  | [l, k, j, i] =>
    refine ⟨i * 2 ^ 39 + j * 2 ^ 30 + k * 2 ^ 21 + l * 2 ^ 12, ?_⟩
    have hi := i.isLt
    have hj := j.isLt
    have hk := k.isLt
    have hl := l.isLt
    simp only [pagePath, largePath, pdPath, ptIndex, pdIndex, pdptIndex, pml4Index, tableIndex,
      List.cons.injEq, Fin.ext_iff, and_true]
    refine ⟨?_, ?_, ?_, ?_⟩ <;> omega

theorem PagesOnly.root_zero (h : PagesOnly F root s₀ (s, ∅)) (i : Fin 512) :
    s.entry root i = 0#64 := by
  rcases h.root_entry i with hzero | hpres
  · exact hzero
  obtain ⟨q, hlen, hq⟩ := h.noEmpty.leaf_below (tableAt_nil s root) hpres
  have hlong : q.length = 4 := by
    by_contra hne
    rcases Nat.lt_or_ge q.length 3 with hlt | hge
    · exact hq (h.hier.no_huge q (by omega))
    · exact hq (h.no_large q (by omega))
  obtain ⟨v, rfl⟩ := exists_pagePath q hlong
  have hmem := (h.mapped v).mp (Option.isSome_iff_ne_none.mpr hq)
  cases hmem

theorem linked_of_root_zero (h : ∀ i, s.entry root i = 0#64) {t : ℕ} (ht : s.Linked root t) :
    t = root := by
  obtain ⟨p, hp⟩ := ht
  induction p generalizing t with
  | nil => exact (Option.some.inj hp).symm
  | cons i p ih =>
    obtain ⟨u, hu, hnext⟩ := tableAt_of_cons hp
    rw [ih hu, h, nextTable_of_not_present present_zero] at hnext
    cases hnext

theorem entry_of_linked {i : Fin 512} {t n : ℕ} (ht : s.tableAt root p = some t)
    (hn : s.tableAt root (i :: p) = some n) :
    present (s.entry t i) = true ∧ large (s.entry t i) = false ∧ entryPtr (s.entry t i) = n := by
  rw [tableAt, tableAt_cons ht] at hn
  obtain ⟨⟨-, hpres, hsmall⟩, hptr⟩ := nextTable_eq_some.mp hn
  exact ⟨hpres, hsmall, hptr⟩

theorem vmmUnmapPageIn_of_leaf (h : Hierarchy F root [] s) {v : ℕ}
    (hleaf : (s.leafAt root (pagePath v)).isSome) : (s.vmmUnmapPageIn A root v).1 = true := by
  obtain ⟨e, he⟩ := Option.isSome_iff_exists.mp hleaf
  obtain ⟨pt, hpt⟩ := tableAt_of_leafAt he
  obtain ⟨pd, hpd, -⟩ := tableAt_of_cons hpt
  obtain ⟨pdpt, hpdpt, -⟩ := tableAt_of_cons hpd
  obtain ⟨hp₁, -, hptr₁⟩ := entry_of_linked (tableAt_nil s root) hpdpt
  obtain ⟨hp₂, -, hptr₂⟩ := entry_of_linked hpdpt hpd
  obtain ⟨hp₃, hsmall, -⟩ := entry_of_linked hpd hpt
  have hroot : root ≠ 0 := (h.page [] root rfl).1
  have hgo : ¬ (s.entry pd (pdIndex v) &&& pageFlagPresent = 0#64 ∨
      s.entry pd (pdIndex v) &&& pageFlagPs ≠ 0#64) := by
    rw [and_present_eq_zero, and_ps_ne_zero, hp₃, hsmall]
    decide
  simp only [vmmUnmapPageIn, hroot, if_false, h.touch_linked (tableAt_nil s root),
    (and_present_ne_zero _).mpr hp₁, hptr₁, h.touch_linked hpdpt,
    (and_present_ne_zero _).mpr hp₂, hptr₂, h.touch_linked hpd, hgo]

theorem PagesOnly.unmap (h : PagesOnly F root s₀ x) {v : ℕ} (hv : pageNumber v ∈ x.2) :
    ((PageCall.unmap v).step A root x).2 = x.2.erase (pageNumber v) :=
  if_pos (vmmUnmapPageIn_of_leaf h.hier ((h.mapped v).mpr hv))

/-! ## Frames -/

theorem PagesOnly.free_iff (h : PagesOnly F root s₀ x) (h₀ : ZeroedRoot F root s₀) (a : ℕ) :
    F.Free s₀.pmm a ↔ F.Free x.1.pmm a ∨ (x.1.Linked root a ∧ a ≠ root) := by
  have hroot : ¬ F.Free x.1.pmm root := h.hier.not_free root h.hier.root_mem
  have hcons := h.conserves a
  rw [h₀.tables_eq, mem_singleton] at hcons
  rw [h.hier.linked_iff]
  by_cases ha : a = root
  · subst ha
    simp [h₀.not_free, hroot]
  · simpa [ha] using hcons.symm

variable {s₀ s : Vmm Pmm}

theorem PagesOnly.card_free {pages : Finset ℕ} (h : PagesOnly frameSource root s₀ (s, pages))
    (h₀ : ZeroedRoot frameSource root s₀) :
    s₀.pmm.free.card = s.pmm.free.card + Set.ncard {t | s.Linked root t ∧ t ≠ root} := by
  have hlinked : {t | s.Linked root t ∧ t ≠ root} = (s.tables.erase root : Finset ℕ) := by
    ext t
    rw [Set.mem_ofPred_eq, h.hier.linked_iff, mem_coe, mem_erase, and_comm]
  have hfree : s₀.pmm.freeAddrs = s.pmm.freeAddrs ∪ s.tables.erase root := by
    ext a
    rw [mem_union, mem_freeAddrs, mem_freeAddrs, mem_erase, and_comm,
      ← h.hier.linked_iff]
    exact h.free_iff h₀ a
  have hdisjoint : Disjoint s.pmm.freeAddrs (s.tables.erase root) := by
    rw [disjoint_right]
    exact fun t ht hf => h.hier.not_free t (mem_of_mem_erase ht) (mem_freeAddrs.mp hf)
  rw [hlinked, Set.ncard_coe_finset, ← card_freeAddrs, ← card_freeAddrs, hfree,
    card_union_of_disjoint hdisjoint]

/-- From a zeroed root, after any maps and unmaps of 4 KiB pages: every table below the root
has a present entry, the frames taken are as many as these tables, and when every page that
was mapped is unmapped again the root is zero and the free frames are those of the start. -/
theorem unmapping_returns_tables (root : ℕ) (s₀ : Vmm Pmm) (h₀ : ZeroedRoot frameSource root s₀)
    (calls : List PageCall) (s : Vmm Pmm) (pages : Finset ℕ)
    (hrun : runCalls (PageCall.step Pmm.pages root) calls (s₀, ∅) = (s, pages)) :
    (∀ t, s.Linked root t → t ≠ root → ∃ i, present (s.entry t i) = true) ∧
    s₀.pmm.free.card = s.pmm.free.card + Set.ncard {t | s.Linked root t ∧ t ≠ root} ∧
    (pages = ∅ → (∀ i, s.entry root i = 0#64) ∧ s.pmm.free = s₀.pmm.free) := by
  have h := pagesOnly_run h₀ calls
  rw [hrun] at h
  refine ⟨?_, h.card_free h₀, ?_⟩
  · rintro t ⟨p, hp⟩ hne
    have hnil : p ≠ [] := by
      rintro rfl
      exact hne (Option.some.inj hp).symm
    exact h.noEmpty p t hnil hnil hp
  · rintro rfl
    refine ⟨h.root_zero, ?_⟩
    ext f
    rw [mem_free_iff_pageFree, mem_free_iff_pageFree]
    have hfree : s₀.pmm.PageFree (f * pageSize) ↔ s.pmm.PageFree (f * pageSize) ∨
        (s.Linked root (f * pageSize) ∧ f * pageSize ≠ root) := h.free_iff h₀ _
    rw [hfree]
    exact (or_iff_left fun ht => ht.2 (linked_of_root_zero h.root_zero ht.1)).symm

/-- A page mapped and unmapped on the machine of `atBoot`. -/
theorem unmapping_returns_tables_atBoot :
    (runCalls (PageCall.step Pmm.pages 0x1000) [.map 0x40000000 0x5000 0x3, .unmap 0x40000000]
      (atBoot, ∅)).1.pmm.free = atBoot.pmm.free := by
  obtain ⟨x, hx⟩ : ∃ x, x = runCalls (PageCall.step Pmm.pages 0x1000)
    [.map 0x40000000 0x5000 0x3, .unmap 0x40000000] (atBoot, ∅) := ⟨_, rfl⟩
  have hpages : x.2 = ∅ := by
    obtain ⟨y, hy⟩ : ∃ y, y = (PageCall.map 0x40000000 0x5000 0x3).step Pmm.pages 0x1000
      (atBoot, ∅) := ⟨_, rfl⟩
    have hmapped : y.2 = {pageNumber 0x40000000} := by
      rw [hy]
      decide +kernel
    have hreached : PagesOnly frameSource 0x1000 atBoot y := by
      rw [hy]
      exact atBoot_zeroedRoot.pagesOnly.step _
    rw [hx, runCalls_cons, runCalls_cons, runCalls_nil, ← hy,
      hreached.unmap (by rw [hmapped]; exact mem_singleton_self _), hmapped]
    rfl
  rw [← hx]
  exact ((unmapping_returns_tables 0x1000 atBoot atBoot_zeroedRoot _ x.1 x.2 hx.symm).2.2
    hpages).2

end NeverMind.Vmm
