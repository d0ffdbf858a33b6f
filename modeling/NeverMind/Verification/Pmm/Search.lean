import NeverMind.Verification.Pmm.Accounting

/-! # Allocation is a complete search

In every state that the initialisations and the calls lead to, an allocation finds a run of free
frames if there is one, wherever the cursor stands, and changes the bits of this run only. -/

namespace NeverMind.Pmm

open Bitmap Finset Nat

def FreeRun (p : Pmm) (count f : ℕ) : Prop :=
  f + count ≤ p.frameLimit ∧ ∀ g, f ≤ g → g < f + count → testBit p.frameBitmap g = false

variable {p : Pmm} {count : ℕ}

theorem freeRun_iff {f : ℕ} (hcount : 0 < count) :
    p.FreeRun count f ↔ Ico f (f + count) ⊆ p.free := by
  constructor
  · rintro ⟨hfit, hbits⟩ g hg
    rw [mem_Ico] at hg
    exact mem_free.mpr ⟨by omega, hbits g hg.1 hg.2⟩
  · intro hsub
    have hmem (g : ℕ) (hlow : f ≤ g) (hhigh : g < f + count) : g ∈ p.free :=
      hsub (mem_Ico.mpr ⟨hlow, hhigh⟩)
    have hlast := lt_limit_of_mem_free (hmem (f + count - 1) (by omega) (by omega))
    exact ⟨by omega, fun g hlow hhigh => (mem_free.mp (hmem g hlow hhigh)).2⟩

/-- What a search for `count` frames from the state `p` returns and leaves behind. -/
structure CompleteSearch (p : Pmm) (count : ℕ) (r : ℕ × Pmm) : Prop where
  found_iff : r.1 ≠ 0 ↔ 1 ≤ count ∧ ∃ f, p.FreeRun count f
  taken : r.1 ≠ 0 → ∃ f, r.1 = 4096 * f ∧ p.FreeRun count f ∧ (∀ g, testBit r.2.frameBitmap g =
      if f ≤ g ∧ g < f + count then true else testBit p.frameBitmap g) ∧
    r.2.mmStats.freeFrames + count = p.mmStats.freeFrames ∧
    r.2.mmStats.usedFrames = p.mmStats.usedFrames + count
  unchanged : r.1 = 0 → r.2 = p

/-! ## Bits that stand for no frame -/

theorem testBit_setFrame_of_le {f g : ℕ} (hg : p.frameLimit ≤ g) :
    testBit (p.setFrame f).frameBitmap g = testBit p.frameBitmap g := by
  by_cases hf : f < p.frameLimit
  · have hne : g ≠ f := by omega
    simp [setFrame, frameValid, hf, testBit_setBit, hne]
  · simp [setFrame, frameValid, hf]

theorem testBit_takeRun_of_le {frame g : ℕ} (hg : p.frameLimit ≤ g) :
    testBit (p.takeRun frame count).frameBitmap g = testBit p.frameBitmap g := by
  have hloop : (forRange 0 count (fun i p => p.setFrame (frame + i)) p).frameLimit = p.frameLimit ∧
      testBit (forRange 0 count (fun i p => p.setFrame (frame + i)) p).frameBitmap g =
        testBit p.frameBitmap g := by
    apply forRange_rule (fun _ (q : Pmm) => q.frameLimit = p.frameLimit ∧
      testBit q.frameBitmap g = testBit p.frameBitmap g) (zero_le count)
    · exact ⟨rfl, rfl⟩
    · rintro i q - - ⟨hlimit, hbit⟩
      exact ⟨(setFrame_frameLimit _ q).trans hlimit,
        (testBit_setFrame_of_le (hlimit ▸ hg)).trans hbit⟩
  exact hloop.2

theorem frameBitmap_counted (p : Pmm) (stats : MmStats) (c : ℕ) :
    ({ p with mmStats := stats, allocWordCursor := c } : Pmm).frameBitmap = p.frameBitmap :=
  rfl

theorem testBit_allocSinglePageUnlocked_of_le {g : ℕ} (hg : p.frameLimit ≤ g) :
    testBit p.allocSinglePageUnlocked.2.frameBitmap g = testBit p.frameBitmap g := by
  unfold allocSinglePageUnlocked
  cases (List.range p.bitmapWords).findSome? p.probeWord with
  | none => rfl
  | some result =>
    obtain ⟨wordIdx, frame⟩ := result
    rw [frameBitmap_counted, testBit_setFrame_of_le hg]

theorem testBit_pmmAllocPages_of_le {g : ℕ} (hg : p.frameLimit ≤ g) :
    testBit (p.pmmAllocPages count).2.frameBitmap g = testBit p.frameBitmap g := by
  unfold pmmAllocPages
  split
  · rfl
  · split
    · rfl
    · split
      · exact testBit_allocSinglePageUnlocked_of_le hg
      · dsimp only
        split
        · exact testBit_takeRun_of_le hg
        · rfl

/-! ## Both paths -/

/-- The frames that were taken, with the counts they leave, give all bits. -/
theorem CompleteSearch.of_taken (h : Sound p) {f : ℕ} {r : ℕ × Pmm} (hcount : 0 < count)
    (hrun : Ico f (f + count) ⊆ p.free) (haddr : r.1 = f * pageSize)
    (hfrees : Frees p r.2 (p.free \ Ico f (f + count)))
    (habove : ∀ g, p.frameLimit ≤ g → testBit r.2.frameBitmap g = testBit p.frameBitmap g) :
    CompleteSearch p count r := by
  have hfree := (freeRun_iff hcount).mpr hrun
  have hf : f ≠ 0 := by
    rintro rfl
    exact h.zero_used (hrun (mem_Ico.mpr ⟨le_rfl, by omega⟩))
  have hne : r.1 ≠ 0 := by
    rw [haddr]
    exact mul_ne_zero hf (by decide)
  have hcard : (p.free \ Ico f (f + count)).card = p.free.card - count := by
    rw [card_sdiff_of_subset hrun, Nat.card_Ico, Nat.add_sub_cancel_left]
  have hle : count ≤ p.free.card := by
    simpa using card_le_card hrun
  have hmax := card_free_le p
  have hbits (g : ℕ) : testBit r.2.frameBitmap g =
      if f ≤ g ∧ g < f + count then true else testBit p.frameBitmap g := by
    by_cases hg : g < p.frameLimit
    · -- below the limit a bit is clear exactly if the frame is free
      have hclear : testBit r.2.frameBitmap g = false ↔
          testBit p.frameBitmap g = false ∧ ¬ (f ≤ g ∧ g < f + count) := by
        have hmem := mem_free (p := r.2) (f := g)
        rw [hfrees.free_eq, hfrees.limit_eq, mem_sdiff, mem_Ico, mem_free] at hmem
        simpa [hg] using hmem.symm
      split
      · next hin => simpa [hin] using hclear
      · next hout => simpa [hout] using hclear
    · have hfit := hfree.1
      rw [habove g (Nat.le_of_not_lt hg), if_neg (by omega)]
  refine ⟨iff_of_true hne ⟨hcount, f, hfree⟩, fun _ => ⟨f, ?_, hfree, hbits, ?_, ?_⟩, ?_⟩
  · rw [haddr, pageSize, mul_comm]
  · rw [hfrees.accounting.free_eq, hfrees.free_eq, hcard, h.free_eq]
    omega
  · rw [hfrees.accounting.used_eq, hfrees.free_eq, hcard, hfrees.limit_eq, h.used_eq]
    omega
  · exact fun hzero => absurd hzero hne

theorem CompleteSearch.of_none (hnone : count = 0 ∨ ∀ f, ¬ Ico f (f + count) ⊆ p.free) :
    CompleteSearch p count (0, p) := by
  refine ⟨iff_of_false (fun hne => hne rfl) ?_, fun hne => absurd rfl hne, fun _ => rfl⟩
  rintro ⟨hpos, f, hrun⟩
  rcases hnone with hzero | hnone
  · omega
  · exact hnone f ((freeRun_iff hpos).mp hrun)

theorem Sound.completeSearch_pmmAllocPages (h : Sound p) (count : ℕ) :
    CompleteSearch p count (p.pmmAllocPages count) := by
  rcases pmmAllocPages_spec h.toAccounting count with ⟨f, hpos, hrun, haddr, hfrees⟩ | ⟨heq, hnone⟩
  · exact .of_taken h hpos hrun haddr hfrees fun _ hg => testBit_pmmAllocPages_of_le hg
  · rw [heq]
    exact .of_none hnone

theorem Sound.completeSearch_allocSinglePageUnlocked (h : Sound p) :
    CompleteSearch p 1 p.allocSinglePageUnlocked := by
  rcases allocSinglePageUnlocked_spec h.toAccounting with ⟨f, hf, haddr, hfrees⟩ | ⟨heq, hempty⟩
  · have hrun : Ico f (f + 1) ⊆ p.free := by
      rwa [Ico_succ_singleton, singleton_subset_iff]
    rw [← Ico_succ_singleton] at hfrees
    exact .of_taken h one_pos hrun haddr hfrees fun _ hg =>
      testBit_allocSinglePageUnlocked_of_le hg
  · rw [heq]
    refine .of_none (.inr fun f hrun => ?_)
    have hmem := hrun (mem_Ico.mpr ⟨le_rfl, lt_succ_self f⟩)
    simp [hempty] at hmem

/-! ## Every reachable state -/

/-- The states of the static variables that initialisations and calls lead to. -/
inductive Reachable (k : KernelImage) : Pmm → Prop where
  | zeroed : Reachable k zeroed
  | boot (input : BootInput) (p q : Pmm) (hp : Reachable k p) (hboot : input.boot k p = some q) :
      Reachable k q
  | call (c : Call) (p : Pmm) (hp : Reachable k p) : Reachable k (c.run p)

def NoFrames (p : Pmm) : Prop := p.frameLimit = 0 ∧ p.bitmapWords = 0

theorem NoFrames.pmmAllocPages (h : NoFrames p) (count : ℕ) : p.pmmAllocPages count = (0, p) := by
  have hall : count = 0 ∨ count > p.frameLimit := by
    rw [h.1]
    omega
  rw [Pmm.pmmAllocPages, if_pos hall]

theorem NoFrames.allocSinglePageUnlocked (h : NoFrames p) : p.allocSinglePageUnlocked = (0, p) := by
  rw [Pmm.allocSinglePageUnlocked, h.2]
  rfl

theorem NoFrames.run (h : NoFrames p) (c : Call) : c.run p = p := by
  cases c with
  | allocPages count => exact congrArg Prod.snd (h.pmmAllocPages count)
  | freePage physAddr =>
    refine pmmFreePage_of_not_freeable fun hok => ?_
    have hlt := hok.2.2
    rw [h.1] at hlt
    exact not_lt_zero _ hlt

theorem NoFrames.free (h : NoFrames p) : p.free = ∅ := by
  refine eq_empty_of_forall_notMem fun f hf => ?_
  have hlt := lt_limit_of_mem_free hf
  rw [h.1] at hlt
  omega

theorem NoFrames.completeSearch (h : NoFrames p) (count : ℕ) : CompleteSearch p count (0, p) := by
  refine .of_none ((Nat.eq_zero_or_pos count).imp_right fun hpos f hrun => ?_)
  have hmem := hrun (mem_Ico.mpr ⟨le_rfl, by omega⟩ : f ∈ Ico f (f + count))
  simp [h.free] at hmem

theorem Reachable.noFrames_or_sound {k : KernelImage} (h : Reachable k p) :
    NoFrames p ∨ Sound p := by
  induction h with
  | zeroed => exact .inl ⟨rfl, rfl⟩
  | boot input p q hp hboot ih => exact .inr (BootInput.boot_sound hboot)
  | call c p hp ih =>
    rcases ih with hnone | hsound
    · rw [hnone.run c]
      exact .inl hnone
    · exact .inr (hsound.run c)

/-- In every reachable state `pmm_alloc_pages` is a complete search for every count, and so is
the word scan for one page. -/
theorem alloc_complete_search {k : KernelImage} (h : Reachable k p) (count : ℕ) :
    CompleteSearch p count (p.pmmAllocPages count) ∧
      CompleteSearch p 1 p.allocSinglePageUnlocked := by
  rcases h.noFrames_or_sound with hnone | hsound
  · rw [hnone.pmmAllocPages, hnone.allocSinglePageUnlocked]
    exact ⟨hnone.completeSearch count, hnone.completeSearch 1⟩
  · exact ⟨hsound.completeSearch_pmmAllocPages count, hsound.completeSearch_allocSinglePageUnlocked⟩

/-- A run of three frames on a machine of 2 MiB, after a free that moved the cursor back. -/
theorem alloc_complete_search_twoMiB :
    let p := (Call.freePage 0x190000).run ((Call.allocPages 100).run
      (zeroed.pmmInitFromRanges .atOneMiB [⟨0, 0x200000, nmMemAvailable⟩]))
    Reachable .atOneMiB p ∧ CompleteSearch p 3 (p.pmmAllocPages 3) := by
  have hreach := Reachable.call (.freePage 0x190000) _ (.call (.allocPages 100) _
    (.boot (k := .atOneMiB) (.ranges [⟨0, 0x200000, nmMemAvailable⟩]) _ _ .zeroed rfl))
  exact ⟨hreach, (alloc_complete_search hreach 3).1⟩

end NeverMind.Pmm
