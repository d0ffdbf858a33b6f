import NeverMind.Verification.Pmm.Regions

/-! # The counters stay exact

Whatever the callers pass, the counters of `mm_stats` describe the bitmap. -/

namespace NeverMind.Pmm

open Bitmap

/-- The accounting invariant together with the reservation of frame 0, which makes the
address 0 free to stand for failure. -/
structure Sound (p : Pmm) : Prop extends Accounting p where
  zero_used : 0 ∉ p.free

/-- The input of either initialisation path. -/
inductive BootInput where
  | ranges (ranges : List MemRange)
  | multiboot2 (mem : Memory) (mb2InfoPtr : ℕ)

/-- Run the initialisation over the previous contents of the static variables. -/
def BootInput.boot (k : KernelImage) (p : Pmm) : BootInput → Option Pmm
  | .ranges rs => some (p.pmmInitFromRanges k rs)
  | .multiboot2 mem ptr => p.pmmInitFromMultiboot2 k mem ptr

variable {p : Pmm}

theorem BootInput.boot_sound {k : KernelImage} {q : Pmm} {input : BootInput}
    (h : input.boot k p = some q) : Sound q := by
  cases input with
  | ranges rs =>
    have hb := pmmInitFromRanges_booted k rs p
    obtain rfl : p.pmmInitFromRanges k rs = q := by simpa [BootInput.boot] using h
    exact ⟨hb.accounting, hb.zero_notMem_free⟩
  | multiboot2 mem ptr =>
    by_cases hu : Usable mem ptr
    · obtain ⟨events, -, hb⟩ := pmmInitFromMultiboot2_booted hu h
      exact ⟨hb.accounting, hb.zero_notMem_free⟩
    · rw [BootInput.boot, pmmInitFromMultiboot2_of_not_usable hu] at h
      obtain rfl := Option.some.inj h
      obtain ⟨hacc, hempty⟩ := initWithoutInfo_free k p
      exact ⟨hacc, by simp [hempty]⟩

theorem Sound.pmmAllocPages (h : Sound p) (count : ℕ) : Sound (p.pmmAllocPages count).2 := by
  rcases pmmAllocPages_spec h.toAccounting count with ⟨f, -, -, -, hfrees⟩ | ⟨heq, -⟩
  · refine ⟨hfrees.accounting, fun hmem => h.zero_used ?_⟩
    rw [hfrees.free_eq] at hmem
    exact (Finset.mem_sdiff.mp hmem).1
  · rw [heq]
    exact h

theorem Sound.pmmFreePage (h : Sound p) (physAddr : ℕ) : Sound (p.pmmFreePage physAddr) := by
  have hfrees := pmmFreePage_frees h.toAccounting physAddr
  refine ⟨hfrees.accounting, fun hmem => ?_⟩
  rw [hfrees.free_eq] at hmem
  split at hmem
  · rename_i hok
    obtain ⟨hne, hmod, -⟩ := hok
    rcases Finset.mem_insert.mp hmem with hzero | hmem
    · -- a nonzero multiple of the page size has a nonzero frame number
      have := Nat.div_add_mod physAddr pageSize
      simp [← hzero, hmod] at this
      exact hne this.symm
    · exact h.zero_used hmem
  · exact h.zero_used hmem

/-! ## Runs -/

/-- A call into the allocator with arbitrary arguments. -/
inductive Call where
  | allocPages (count : ℕ)
  | freePage (physAddr : ℕ)
  deriving Repr, DecidableEq

def Call.run : Call → Pmm → Pmm
  | .allocPages count, p => (p.pmmAllocPages count).2
  | .freePage physAddr, p => p.pmmFreePage physAddr

theorem Sound.run (h : Sound p) (call : Call) : Sound (call.run p) := by
  cases call with
  | allocPages count => exact h.pmmAllocPages count
  | freePage physAddr => exact h.pmmFreePage physAddr

theorem Sound.runs (h : Sound p) (calls : List Call) :
    Sound (calls.foldl (fun p call => call.run p) p) := by
  induction calls generalizing p with
  | nil => exact h
  | cons call calls ih => exact ih (h.run call)

/-- After either initialisation and any calls, the counters are the exact numbers of
clear and set bits, the padding bits are set, and frame 0 is in use. -/
theorem accounting_after_calls (k : KernelImage) (p₀ p : Pmm) (input : BootInput)
    (hboot : input.boot k p₀ = some p) (calls : List Call) :
    let q := calls.foldl (fun p call => call.run p) p
    q.mmStats.freeFrames =
        ((Finset.range q.frameLimit).filter (fun f => testBit q.frameBitmap f = false)).card ∧
      q.mmStats.freeFrames + q.mmStats.usedFrames = q.mmStats.totalFrames ∧
      q.mmStats.totalFrames = q.frameLimit ∧
      (∀ f, q.frameLimit ≤ f → f < q.bitmapWords * bitmapWordBits →
        testBit q.frameBitmap f = true) ∧
      testBit q.frameBitmap 0 = true := by
  intro q
  have hq : Sound q := (BootInput.boot_sound hboot).runs calls
  have hcard := card_free_le q
  refine ⟨hq.free_eq, ?_, hq.total_eq, hq.padding, ?_⟩
  · rw [hq.free_eq, hq.used_eq, hq.total_eq]
    omega
  · have hzero := hq.zero_used
    rw [mem_free] at hzero
    have hpos := hq.limit_pos
    cases hbit : testBit q.frameBitmap 0 with
    | true => rfl
    | false => exact absurd ⟨hpos, hbit⟩ hzero

/-- The map of a 2 MiB machine, one allocation, and two frees the allocator ignores. -/
theorem accounting_on_two_MiB :
    let q := [Call.allocPages 3, .freePage 0x1001, .freePage 0x40000000].foldl
      (fun p call => call.run p)
      (zeroed.pmmInitFromRanges .atOneMiB [⟨0, 0x200000, nmMemAvailable⟩])
    q.mmStats.freeFrames + q.mmStats.usedFrames = q.mmStats.totalFrames ∧
      testBit q.frameBitmap 0 = true := by
  have h := accounting_after_calls .atOneMiB zeroed _
    (.ranges [⟨0, 0x200000, nmMemAvailable⟩]) rfl
    [.allocPages 3, .freePage 0x1001, .freePage 0x40000000]
  exact ⟨h.2.1, h.2.2.2.2⟩

end NeverMind.Pmm
