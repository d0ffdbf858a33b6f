import NeverMind.Verification.Pmm.Accounting
import Mathlib.Logic.Relation
import Mathlib.Data.List.Nodup
import Mathlib.Data.List.Flatten

/-! # Ownership of allocated frames

A caller that frees only pages it holds owns its frames: at every point of a run the
frames of the live allocations are distinct from each other and from everything the
initialisation reserved. -/

namespace NeverMind.Pmm

open List Finset

/-- The allocator and, for every allocation that is still live, the frames its owner has
not freed yet. -/
structure Client where
  pmm : Pmm
  live : List (List ℕ)

/-- The frames of an allocation of `count` pages returned as `physAddr`. -/
def framesOf (physAddr count : ℕ) : List ℕ := range' (physAddr / pageSize) count

/-- One call of a well-behaved caller: an allocation that succeeds starts a live
allocation, one that fails leaves the caller as it was, and a free gives back one page
of a live allocation. -/
inductive ClientStep : Client → Client → Prop where
  | allocPages (c : Client) (count : ℕ) (h : (c.pmm.pmmAllocPages count).1 ≠ 0) :
      ClientStep c ⟨(c.pmm.pmmAllocPages count).2,
        framesOf (c.pmm.pmmAllocPages count).1 count :: c.live⟩
  | allocPagesFails (c : Client) (count : ℕ) (h : (c.pmm.pmmAllocPages count).1 = 0) :
      ClientStep c ⟨(c.pmm.pmmAllocPages count).2, c.live⟩
  | allocPage (c : Client) (h : c.pmm.pmmAllocPage.1 ≠ 0) :
      ClientStep c ⟨c.pmm.pmmAllocPage.2, framesOf c.pmm.pmmAllocPage.1 1 :: c.live⟩
  | allocPageFails (c : Client) (h : c.pmm.pmmAllocPage.1 = 0) :
      ClientStep c ⟨c.pmm.pmmAllocPage.2, c.live⟩
  | freePage (c : Client) (front back : List (List ℕ)) (run : List ℕ) (f : ℕ)
      (hlive : c.live = front ++ run :: back) (hf : f ∈ run) :
      ClientStep c ⟨c.pmm.pmmFreePage (f * pageSize), front ++ run.erase f :: back⟩

/-- The ownership invariant, relative to the state `p` in which the run started. -/
structure Owned (p : Pmm) (c : Client) : Prop where
  accounting : Accounting c.pmm
  limit_eq : c.pmm.frameLimit = p.frameLimit
  free_subset : c.pmm.free ⊆ p.free
  nodup : c.live.flatten.Nodup
  initially_free : ∀ f ∈ c.live.flatten, f ∈ p.free
  in_use : ∀ f ∈ c.live.flatten, f ∉ c.pmm.free

variable {p : Pmm}

theorem Owned.start (h : Accounting p) : Owned p ⟨p, []⟩ :=
  ⟨h, rfl, Finset.Subset.refl _, by simp, by simp, by simp⟩

theorem mem_framesOf {f count g : ℕ} :
    g ∈ framesOf (f * pageSize) count ↔ g ∈ Finset.Ico f (f + count) := by
  rw [framesOf, Nat.mul_div_cancel f (by decide), mem_range'_1, mem_Ico]

variable {c : Client}

theorem Owned.allocPages (h : Owned p c) (count : ℕ) (hne : (c.pmm.pmmAllocPages count).1 ≠ 0) :
    Owned p ⟨(c.pmm.pmmAllocPages count).2,
      framesOf (c.pmm.pmmAllocPages count).1 count :: c.live⟩ := by
  rcases pmmAllocPages_spec h.accounting count with ⟨f, -, hrun, haddr, hfrees⟩ | ⟨heq, -⟩
  · rw [haddr]
    have hnew : ∀ g ∈ framesOf (f * pageSize) count, g ∈ c.pmm.free :=
      fun g hg => hrun (mem_framesOf.mp hg)
    refine ⟨hfrees.accounting, hfrees.limit_eq.trans h.limit_eq, ?_, ?_, ?_, ?_⟩
    · rw [hfrees.free_eq]
      exact sdiff_subset.trans h.free_subset
    · rw [flatten_cons, nodup_append']
      exact ⟨nodup_range', h.nodup, fun g hg hold => h.in_use g hold (hnew g hg)⟩
    · intro g hg
      rw [flatten_cons, mem_append] at hg
      rcases hg with hg | hg
      · exact h.free_subset (hnew g hg)
      · exact h.initially_free g hg
    · intro g hg
      rw [flatten_cons, mem_append] at hg
      rw [hfrees.free_eq, mem_sdiff]
      rintro ⟨hfree, hout⟩
      rcases hg with hg | hg
      · exact hout (mem_framesOf.mp hg)
      · exact h.in_use g hg hfree
  · rw [heq] at hne
    exact absurd rfl hne

theorem Owned.allocPagesFails (hzero : 0 ∉ p.free) (h : Owned p c) (count : ℕ)
    (hnull : (c.pmm.pmmAllocPages count).1 = 0) :
    Owned p ⟨(c.pmm.pmmAllocPages count).2, c.live⟩ := by
  rcases pmmAllocPages_spec h.accounting count with ⟨f, hpos, hrun, haddr, -⟩ | ⟨heq, -⟩
  · -- a run starting at frame 0 would contain frame 0, which is never free
    have hf : f = 0 := by
      rw [haddr] at hnull
      simpa [pageSize] using hnull
    subst hf
    have hmem : 0 ∈ c.pmm.free := hrun (mem_Ico.mpr ⟨le_rfl, by omega⟩)
    exact absurd (h.free_subset hmem) hzero
  · rw [heq]
    exact h

/-- Freeing a held page makes its frame free again and ends its ownership. -/
theorem Owned.freePage (h : Owned p c) {front back : List (List ℕ)} {run : List ℕ} {f : ℕ}
    (hlive : c.live = front ++ run :: back) (hf : f ∈ run) :
    Owned p ⟨c.pmm.pmmFreePage (f * pageSize), front ++ run.erase f :: back⟩ := by
  have hfrees := pmmFreePage_frees h.accounting (f * pageSize)
  have hflat : c.live.flatten = front.flatten ++ (run ++ back.flatten) := by
    simp [hlive]
  have hflat' : (front ++ run.erase f :: back).flatten =
      front.flatten ++ (run.erase f ++ back.flatten) := by
    simp
  have hsub : (front ++ run.erase f :: back).flatten.Sublist c.live.flatten := by
    rw [hflat, hflat']
    exact (Sublist.refl _).append (erase_sublist.append (Sublist.refl _))
  have hmem : f ∈ c.live.flatten := by
    rw [hflat]
    simp [hf]
  -- `f` occurred once, so after the erasure it is held no longer
  have hgone : f ∉ (front ++ run.erase f :: back).flatten := by
    have hnd := h.nodup
    rw [hflat, nodup_append', nodup_append'] at hnd
    obtain ⟨-, ⟨hrun, -, hback⟩, hfront⟩ := hnd
    rw [hflat', mem_append, mem_append]
    rintro (hin | hin | hin)
    · exact hfront hin (mem_append_left _ hf)
    · exact hrun.not_mem_erase hin
    · exact hback hf hin
  have hfree : (c.pmm.pmmFreePage (f * pageSize)).free ⊆ insert f c.pmm.free := by
    rw [hfrees.free_eq]
    split
    · rw [Nat.mul_div_cancel f (by decide)]
    · exact Finset.subset_insert _ _
  refine ⟨hfrees.accounting, hfrees.limit_eq.trans h.limit_eq, ?_, h.nodup.sublist hsub, ?_, ?_⟩
  · exact hfree.trans (insert_subset (h.initially_free f hmem) h.free_subset)
  · exact fun g hg => h.initially_free g (hsub.subset hg)
  · intro g hg hin
    rcases mem_insert.mp (hfree hin) with rfl | hin
    · exact hgone hg
    · exact h.in_use g (hsub.subset hg) hin

theorem Owned.step (hzero : 0 ∉ p.free) {c' : Client} (h : Owned p c) (hstep : ClientStep c c') :
    Owned p c' := by
  cases hstep with
  | allocPages count hne => exact h.allocPages count hne
  | allocPagesFails count hnull => exact h.allocPagesFails hzero count hnull
  | allocPage hne => exact h.allocPages 1 hne
  | allocPageFails hnull => exact h.allocPagesFails hzero 1 hnull
  | freePage front back run f hlive hf => exact h.freePage hlive hf

theorem Owned.run (hp : Sound p) (hrun : Relation.ReflTransGen ClientStep ⟨p, []⟩ c) :
    Owned p c := by
  induction hrun with
  | refl => exact Owned.start hp.toAccounting
  | tail _ hstep ih => exact ih.step hp.zero_used hstep

theorem Owned.pairwise_disjoint (h : Owned p c) : c.live.Pairwise Disjoint :=
  (nodup_flatten.mp h.nodup).2

/-! ## Runs from either initialisation -/

/-- All addresses of the input are below `2 ^ 52`. -/
def BootInput.Addressable : BootInput → Prop
  | .ranges rs => ∀ r ∈ rs, r.base + r.length < 2 ^ 52
  | .multiboot2 mem ptr => ptr + mem.load32 ptr < 2 ^ 52

/-- The frame overlaps the multiboot2 information block, on the path that has one. -/
def BootInput.InfoOverlaps (f : ℕ) : BootInput → Prop
  | .ranges _ => False
  | .multiboot2 mem ptr => FrameOverlaps f ptr (ptr + mem.load32 ptr)

theorem BootInput.boot_reserves (k : KernelImage) (p₀ : Pmm) {input : BootInput}
    (hin : input.Addressable) :
    ∃ p, input.boot k p₀ = some p ∧
      ∀ f ∈ p.free, ¬ KernelReserved k p f ∧ ¬ input.InfoOverlaps f := by
  cases input with
  | ranges rs =>
    have hb := pmmInitFromRanges_booted k rs p₀
    refine ⟨_, rfl, fun f hf => ⟨fun hres => ?_, id⟩⟩
    obtain ⟨-, -, hkernel, -⟩ := (hb.mem_free_iff f).mp hf
    exact hkernel ((hb.mem_kernelFrames k.stop_lt f).mpr hres)
  | multiboot2 mem ptr =>
    have hbelow : ptr + mem.load32 ptr < 2 ^ 52 := hin
    obtain ⟨p, hp⟩ := Option.isSome_iff_exists.mp (pmmInitFromMultiboot2_isSome hbelow k p₀)
    refine ⟨p, hp, fun f hf => ?_⟩
    by_cases hu : Usable mem ptr
    · obtain ⟨events, -, hb⟩ := pmmInitFromMultiboot2_booted hu hp
      rw [u64_of_lt (by omega)] at hb
      obtain ⟨-, -, hkernel, hinfo⟩ := (hb.mem_free_iff f).mp hf
      refine ⟨fun hres => hkernel ((hb.mem_kernelFrames hbelow f).mpr hres), fun hover => ?_⟩
      have hsize : 8 ≤ mem.load32 ptr := hu.2
      exact hinfo ((mem_outerFrames f (by omega) (by simp only [pageSize]; omega)).mpr hover)
    · rw [pmmInitFromMultiboot2_of_not_usable hu] at hp
      obtain rfl := Option.some.inj hp
      simp [(initWithoutInfo_free k p₀).2] at hf

/-- Whatever the memory map, a caller that frees only pages it holds never shares a frame
between two live allocations and never receives a frame past the limit or a frame of the
low MiB, the kernel image, the bitmap or the multiboot2 information block. -/
theorem live_allocations_protected (k : KernelImage) (p₀ : Pmm) (input : BootInput)
    (hin : input.Addressable) :
    ∃ p, input.boot k p₀ = some p ∧ ∀ c, Relation.ReflTransGen ClientStep ⟨p, []⟩ c →
        c.live.Pairwise Disjoint ∧ (∀ run ∈ c.live, run.Nodup) ∧
        ∀ run ∈ c.live, ∀ f ∈ run, f < c.pmm.frameLimit ∧ ¬ FrameOverlaps f 0 0x100000 ∧
          ¬ FrameOverlaps f k.start k.stop ∧
          ¬ FrameOverlaps f p.bitmapPhysBase (p.bitmapPhysBase + p.bitmapBytes) ∧
          ¬ input.InfoOverlaps f := by
  obtain ⟨p, hp, hres⟩ := BootInput.boot_reserves k p₀ hin
  refine ⟨p, hp, fun c hrun => ?_⟩
  have hown := Owned.run (BootInput.boot_sound hp) hrun
  refine ⟨hown.pairwise_disjoint, (nodup_flatten.mp hown.nodup).1, ?_⟩
  intro run hmem f hf
  have hfree := hown.initially_free f (mem_flatten.mpr ⟨run, hmem, hf⟩)
  obtain ⟨hkernel, hinfo⟩ := hres f hfree
  rw [KernelReserved] at hkernel
  push Not at hkernel
  refine ⟨hown.limit_eq ▸ lt_limit_of_mem_free hfree, hkernel.1, hkernel.2.1, hkernel.2.2, hinfo⟩

/-- Runs on a machine with 2 MiB of memory. -/
theorem live_allocations_protected_two_MiB :
    ∃ p, (BootInput.ranges [⟨0, 0x200000, nmMemAvailable⟩]).boot .atOneMiB zeroed = some p ∧
      ∀ c, Relation.ReflTransGen ClientStep ⟨p, []⟩ c → c.live.Pairwise Disjoint := by
  obtain ⟨p, hp, h⟩ := live_allocations_protected .atOneMiB zeroed
    (.ranges [⟨0, 0x200000, nmMemAvailable⟩]) (by simp [BootInput.Addressable])
  exact ⟨p, hp, fun c hc => (h c hc).1⟩

/-! ## No page is lost -/

/-- A free frame stays free or belongs to the allocation that is made. -/
theorem mem_free_or_allocated (h : Accounting p) (hzero : 0 ∉ p.free) (count : ℕ) {g : ℕ}
    (hg : g ∈ p.free) : g ∈ (p.pmmAllocPages count).2.free ∨
      (p.pmmAllocPages count).1 ≠ 0 ∧ g ∈ framesOf (p.pmmAllocPages count).1 count := by
  rcases pmmAllocPages_spec h count with ⟨f, hpos, hrun, haddr, hfrees⟩ | ⟨heq, -⟩
  · rw [haddr, hfrees.free_eq, mem_framesOf]
    by_cases hin : g ∈ Finset.Ico f (f + count)
    · have hf : f ∈ p.free := hrun (mem_Ico.mpr ⟨le_rfl, by omega⟩)
      exact .inr ⟨Nat.mul_ne_zero (fun heq => hzero (heq ▸ hf)) (by decide), hin⟩
    · exact .inl (mem_sdiff.mpr ⟨hg, hin⟩)
  · rw [heq]
    exact .inl hg

theorem Owned.mem_step {c' : Client} (hzero : 0 ∉ p.free) (h : Owned p c) {g : ℕ}
    (hg : g ∈ c.pmm.free ∨ g ∈ c.live.flatten) (hstep : ClientStep c c') :
    g ∈ c'.pmm.free ∨ g ∈ c'.live.flatten := by
  have hnew := fun count hfree => mem_free_or_allocated h.accounting
    (fun hmem => hzero (h.free_subset hmem)) count (g := g) hfree
  have hmade : ∀ count, g ∈ (c.pmm.pmmAllocPages count).2.free ∨
      g ∈ (framesOf (c.pmm.pmmAllocPages count).1 count :: c.live).flatten := by
    intro count
    rw [flatten_cons, mem_append]
    exact hg.elim (fun hfree => (hnew count hfree).imp_right fun hin => .inl hin.2)
      fun hlive => .inr (.inr hlive)
  have hfailed : ∀ count, (c.pmm.pmmAllocPages count).1 = 0 →
      g ∈ (c.pmm.pmmAllocPages count).2.free ∨ g ∈ c.live.flatten := fun count hnull =>
    hg.imp_left fun hfree => (hnew count hfree).resolve_right fun hin => hin.1 hnull
  cases hstep with
  | allocPages count _ => exact hmade count
  | allocPagesFails count hnull => exact hfailed count hnull
  | allocPage _ => exact hmade 1
  | allocPageFails hnull => exact hfailed 1 hnull
  | freePage front back run f hlive hf =>
    have hmem := h.initially_free f (by rw [hlive]; simp [hf])
    have hok : c.pmm.Freeable (f * pageSize) := by
      refine ⟨Nat.mul_ne_zero (fun heq => hzero (heq ▸ hmem)) (by decide), by simp, ?_⟩
      rw [Nat.mul_div_cancel f (by decide), h.limit_eq]
      exact lt_limit_of_mem_free hmem
    rw [(pmmFreePage_frees h.accounting _).free_eq, if_pos hok, Nat.mul_div_cancel f (by decide),
      mem_insert]
    by_cases hgf : g = f
    · exact .inl (.inl hgf)
    · rw [hlive] at hg
      refine hg.imp .inr fun hin => ?_
      simpa [mem_erase_of_ne hgf] using hin

/-- At every point of a run the frames that were free after the initialisation are the free ones
and those of the live allocations, and the counter of free frames misses exactly the latter. -/
theorem pages_conserved (k : KernelImage) (p₀ : Pmm) (input : BootInput)
    (hboot : input.boot k p₀ = some p) (hrun : Relation.ReflTransGen ClientStep ⟨p, []⟩ c) :
    (∀ f, f ∈ p.free ↔ f ∈ c.pmm.free ∨ f ∈ c.live.flatten) ∧
      c.pmm.mmStats.freeFrames + c.live.flatten.length = p.mmStats.freeFrames := by
  have hp := BootInput.boot_sound hboot
  have hown := Owned.run hp hrun
  have hall : ∀ f ∈ p.free, f ∈ c.pmm.free ∨ f ∈ c.live.flatten := by
    intro f hf
    induction hrun with
    | refl => exact .inl hf
    | tail hbefore hstep ih =>
      have hbefore := Owned.run hp hbefore
      exact hbefore.mem_step hp.zero_used (ih hbefore) hstep
  have hiff : ∀ f, f ∈ p.free ↔ f ∈ c.pmm.free ∨ f ∈ c.live.flatten := fun f =>
    ⟨hall f, fun h => h.elim (fun hf => hown.free_subset hf) (hown.initially_free f)⟩
  refine ⟨hiff, ?_⟩
  have hunion : p.free = c.pmm.free ∪ c.live.flatten.toFinset := by
    ext f
    rw [hiff, mem_union, mem_toFinset]
  have hdisj : Disjoint c.pmm.free c.live.flatten.toFinset := by
    rw [Finset.disjoint_right]
    intro f hf
    exact hown.in_use f (mem_toFinset.mp hf)
  rw [hown.accounting.free_eq, hp.free_eq, hunion, card_union_of_disjoint hdisj,
    toFinset_card_of_nodup hown.nodup]

/-- One page of a machine with two free ones. -/
theorem pages_conserved_twoPages :
    ∃ p, (BootInput.ranges [⟨0x181000, 0x2000, nmMemAvailable⟩]).boot .atOneMiB zeroed = some p ∧
      (p.pmmAllocPages 1).2.mmStats.freeFrames + 1 = p.mmStats.freeFrames := by
  obtain ⟨p, hp⟩ : ∃ p, p = zeroed.pmmInitFromRanges .atOneMiB
    [⟨0x181000, 0x2000, nmMemAvailable⟩] := ⟨_, rfl⟩
  have hboot : (BootInput.ranges [⟨0x181000, 0x2000, nmMemAvailable⟩]).boot .atOneMiB zeroed =
      some p := congrArg some hp.symm
  have hne : (p.pmmAllocPages 1).1 ≠ 0 := by
    rw [hp]
    decide +kernel
  have h := pages_conserved .atOneMiB zeroed _ hboot (.single (.allocPages ⟨p, []⟩ 1 hne))
  exact ⟨p, hboot, by simpa [framesOf] using h.2⟩

end NeverMind.Pmm
