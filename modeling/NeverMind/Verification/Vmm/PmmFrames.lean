import NeverMind.Verification.Pmm.Accounting
import NeverMind.Verification.Vmm.Hierarchy

/-! # The kernel's allocator as a source of table frames

A sound allocator hands out free pages only, so everything proved about the page tables
holds for the allocator they are built from. -/

namespace NeverMind.Pmm

open Finset

def PageFree (p : Pmm) (a : ℕ) : Prop := a % pageSize = 0 ∧ a / pageSize ∈ p.free

variable {a : ℕ}

theorem div_eq_iff_of_page {f : ℕ} (h : a % pageSize = 0) :
    a / pageSize = f ↔ a = f * pageSize := by
  simp only [pageSize] at *
  omega

variable {p : Pmm}

theorem PageFree.ne_zero (h : Sound p) (ha : p.PageFree a) : a ≠ 0 := by
  rintro rfl
  exact h.zero_used ha.2

/-- The two outcomes of `pmm_alloc_page`. -/
theorem pmmAllocPage_spec (h : Sound p) :
    (∃ f ∈ p.free, p.pmmAllocPage.1 = f * pageSize ∧ Frees p p.pmmAllocPage.2 (p.free.erase f)) ∨
    (p.pmmAllocPage = (0, p) ∧ p.free = ∅) := by
  rcases pmmAllocPages_spec h.toAccounting 1 with ⟨f, -, hrun, haddr, hfrees⟩ | ⟨heq, hnone⟩
  · left
    rw [Nat.Ico_succ_singleton] at hrun hfrees
    rw [sdiff_singleton_eq_erase] at hfrees
    exact ⟨f, hrun (mem_singleton_self f), haddr, hfrees⟩
  · right
    refine ⟨heq, eq_empty_of_forall_notMem fun f hf => ?_⟩
    rcases hnone with hnone | hnone
    · cases hnone
    · exact hnone f (by rwa [Nat.Ico_succ_singleton, singleton_subset_iff])

theorem pageFree_pmmAllocPage (h : Sound p) (a : ℕ) :
    p.pmmAllocPage.2.PageFree a ↔ p.PageFree a ∧ a ≠ p.pmmAllocPage.1 := by
  rcases pmmAllocPage_spec h with ⟨f, -, haddr, hfrees⟩ | ⟨heq, -⟩
  · rw [PageFree, PageFree, hfrees.free_eq, mem_erase, haddr]
    constructor
    · rintro ⟨hmod, hne, hmem⟩
      exact ⟨⟨hmod, hmem⟩, fun heq => hne ((div_eq_iff_of_page hmod).mpr heq)⟩
    · rintro ⟨⟨hmod, hmem⟩, hne⟩
      exact ⟨hmod, fun heq => hne ((div_eq_iff_of_page hmod).mp heq), hmem⟩
  · rw [heq]
    exact (and_iff_left_of_imp fun ha => ha.ne_zero h).symm

theorem pageFree_pmmFreePage (h : Sound p) (ha : p.Freeable a) (b : ℕ) :
    (p.pmmFreePage a).PageFree b ↔ p.PageFree b ∨ b = a := by
  have hfrees := pmmFreePage_frees h.toAccounting a
  rw [if_pos ha] at hfrees
  rw [PageFree, PageFree, hfrees.free_eq, mem_insert]
  constructor
  · rintro ⟨hmod, heq | hmem⟩
    · rw [div_eq_iff_of_page hmod, Nat.div_mul_cancel (Nat.dvd_of_mod_eq_zero ha.2.1)] at heq
      exact Or.inr heq
    · exact Or.inl ⟨hmod, hmem⟩
  · rintro (⟨hmod, hmem⟩ | rfl)
    · exact ⟨hmod, Or.inr hmem⟩
    · exact ⟨ha.2.1, Or.inl rfl⟩

theorem pmmAllocPage_frameLimit (h : Sound p) : p.pmmAllocPage.2.frameLimit = p.frameLimit := by
  rcases pmmAllocPage_spec h with ⟨f, -, -, hfrees⟩ | ⟨heq, -⟩
  · exact hfrees.limit_eq
  · rw [heq]

theorem PageFree.freeable (h : Sound p) (ha : PageFree p a) : Freeable p a :=
  ⟨ha.ne_zero h, ha.1, lt_limit_of_mem_free ha.2⟩

theorem Freeable.page (h : Sound p) (ha : Freeable p a) : a ≠ 0 ∧ a % 4096 = 0 ∧ a < 2 ^ 52 := by
  have hlimit := h.limit_lt
  obtain ⟨hne, hmod, hlt⟩ := ha
  simp only [pageSize] at *
  exact ⟨hne, hmod, by omega⟩

theorem freeable_pmmAllocPage (h : Sound p) (a : ℕ) :
    Freeable p.pmmAllocPage.2 a ↔ Freeable p a := by
  rw [Freeable, Freeable, pmmAllocPage_frameLimit h]

theorem pageFree_of_pmmAllocPage (h : Sound p) (hne : p.pmmAllocPage.1 ≠ 0) :
    PageFree p p.pmmAllocPage.1 := by
  rcases pmmAllocPage_spec h with ⟨f, hf, haddr, -⟩ | ⟨heq, -⟩
  · rw [haddr]
    refine ⟨Nat.mul_mod_left f pageSize, ?_⟩
    rwa [Nat.mul_div_cancel f (by decide)]
  · exact absurd (congrArg Prod.fst heq) hne

theorem freeable_pmmFreePage (h : Sound p) (a b : ℕ) :
    Freeable (p.pmmFreePage a) b ↔ Freeable p b := by
  rw [Freeable, Freeable, (pmmFreePage_frees h.toAccounting a).limit_eq]

/-! ## Counting pages -/

def freeAddrs (p : Pmm) : Finset ℕ := p.free.image (· * pageSize)

theorem mem_freeAddrs : a ∈ p.freeAddrs ↔ p.PageFree a := by
  rw [freeAddrs, mem_image, PageFree]
  constructor
  · rintro ⟨f, hf, rfl⟩
    exact ⟨Nat.mul_mod_left f pageSize, by rwa [Nat.mul_div_cancel f (by decide)]⟩
  · rintro ⟨hmod, hmem⟩
    exact ⟨a / pageSize, hmem, Nat.div_mul_cancel (Nat.dvd_of_mod_eq_zero hmod)⟩

theorem card_freeAddrs (p : Pmm) : p.freeAddrs.card = p.free.card :=
  card_image_of_injective _ fun _ _ h => Nat.eq_of_mul_eq_mul_right (by decide) h

theorem mem_free_iff_pageFree {f : ℕ} : f ∈ p.free ↔ p.PageFree (f * pageSize) := by
  rw [PageFree, Nat.mul_div_cancel f (by decide)]
  exact (and_iff_right (Nat.mul_mod_left f pageSize)).symm

theorem free_eq_empty_of_pmmAllocPage (h : Sound p) (hzero : p.pmmAllocPage.1 = 0) :
    p.free = ∅ := by
  rcases pmmAllocPage_spec h with ⟨f, hf, haddr, -⟩ | ⟨-, hnone⟩
  · have hfree : p.PageFree (f * pageSize) := mem_free_iff_pageFree.mp hf
    exact absurd (haddr.symm.trans hzero) (hfree.ne_zero h)
  · exact hnone

def frameSource : FrameSource Pmm.pages where
  Inv := Sound
  Free := PageFree
  Managed := Freeable
  free_managed _ _ h ha := ha.freeable h
  managed_page _ _ h ha := ha.page h
  alloc_inv _ h := h.pmmAllocPages 1
  alloc_managed _ a h := freeable_pmmAllocPage h a
  alloc_free _ h hne := pageFree_of_pmmAllocPage h hne
  alloc_free_iff _ a h := pageFree_pmmAllocPage h a
  release_inv _ a h _ := h.pmmFreePage a
  release_managed _ a b h _ := freeable_pmmFreePage h a b
  release_free_iff _ _ b h ha := pageFree_pmmFreePage h ha b

end NeverMind.Pmm
