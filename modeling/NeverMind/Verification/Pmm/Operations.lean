import NeverMind.Library.Rotation
import NeverMind.Verification.Pmm.FreeSet

/-! # What each allocator operation does to the free set -/

namespace NeverMind.Pmm

open Bitmap Finset BitVec

/-! ## Marking and reserving ranges -/

/-- The frames `mark_range_available` clears: the range rounded inwards. -/
def innerFrames (base length : ℕ) : Finset ℕ :=
  Ico (u64 (base + pageSize - 1) / pageSize) (u64 (base + length) / pageSize)

/-- The frames `reserve_range` sets: the range rounded outwards. -/
def outerFrames (base length : ℕ) : Finset ℕ :=
  Ico (base / pageSize) (u64 (base + length + pageSize - 1) / pageSize)

@[simp] theorem clearFrame_mmStats (f : ℕ) (p : Pmm) : (p.clearFrame f).mmStats = p.mmStats := by
  unfold clearFrame
  split <;> rfl

theorem markFrameAvailable_frees {p : Pmm} (h : Accounting p) {f : ℕ} (hf : f < p.frameLimit) :
    Frees p (p.markFrameAvailable f) (insert f p.free) := by
  by_cases hmem : f ∈ p.free
  · have htest : p.testFrame f = false := testFrame_eq_false.mpr hmem
    rw [insert_eq_of_mem hmem]
    simpa [markFrameAvailable, htest] using h.frees_self
  · have htest : p.testFrame f = true := testFrame_eq_true.mpr hmem
    simpa [markFrameAvailable, htest] using clearFrame_frees h hf hmem

theorem markRangeAvailable_frees {p : Pmm} (h : Accounting p) (base length : ℕ) :
    Frees p (p.markRangeAvailable base length)
      (p.free ∪ (innerFrames base length).filter (· < p.frameLimit)) := by
  unfold markRangeAvailable
  set start := u64 (base + pageSize - 1) / pageSize with hstart
  set stop := u64 (base + length) / pageSize with hstop
  have hclamp : (if stop > p.frameLimit then p.frameLimit else stop) = min stop p.frameLimit := by
    split <;> omega
  have hinner : (innerFrames base length).filter (· < p.frameLimit) =
      Ico start (min stop p.frameLimit) := by
    ext f
    simp only [innerFrames, ← hstart, ← hstop, mem_filter, mem_Ico]
    omega
  simp only [hclamp, hinner]
  rcases Nat.le_total start (min stop p.frameLimit) with hle | hle
  · -- after the frames below `i`, exactly those from `start` on have been added
    apply forRange_rule (fun i q => Frees p q (p.free ∪ Ico start i)) hle
    · simpa using h.frees_self
    · intro i q hi hlt hq
      have hfree := markFrameAvailable_frees hq.accounting (f := i) (by have := hq.limit_eq; omega)
      have hset : insert i q.free = p.free ∪ Ico start (i + 1) := by
        ext g
        simp only [hq.free_eq, mem_insert, mem_union, mem_Ico]
        by_cases hg : g ∈ p.free <;> simp only [hg, true_or, or_true, false_or]
        omega
      exact hset ▸ hq.trans hfree
  · rw [forRange_of_le hle, Ico_eq_empty (by omega), union_empty]
    exact h.frees_self

theorem reserveFrame_frees {p : Pmm} (h : Accounting p) (f : ℕ) :
    Frees p (p.reserveFrame f) (p.free \ {f}) := by
  by_cases hmem : f ∈ p.free
  · have htest : p.testFrame f = false := testFrame_eq_false.mpr hmem
    have hsets := setFrame_onlySets f p
    have hfrees := hsets.frees_countTaken h (t := {f}) (by simpa using hmem)
      (by rw [setFrame_free, sdiff_singleton_eq_erase])
    simpa [reserveFrame, htest, hsets.stats] using hfrees.withReserved
      (u64 ((countTaken 1 p.mmStats).reservedFrames + 1))
  · have htest : p.testFrame f = true := testFrame_eq_true.mpr hmem
    have hsame : p.free \ {f} = p.free := by
      rw [sdiff_singleton_eq_erase, erase_eq_of_notMem hmem]
    rw [hsame]
    simpa [reserveFrame, htest] using h.frees_self

theorem reserveRange_frees {p : Pmm} (h : Accounting p) (base length : ℕ) :
    Frees p (p.reserveRange base length) (p.free \ outerFrames base length) := by
  unfold reserveRange
  set start := base / pageSize with hstart
  set stop := u64 (base + length + pageSize - 1) / pageSize with hstop
  have hclamp : (if stop > p.frameLimit then p.frameLimit else stop) = min stop p.frameLimit := by
    split <;> omega
  -- frames past the limit are not free, so clamping the range removes nothing from it
  have houter : p.free \ outerFrames base length = p.free \ Ico start (min stop p.frameLimit) := by
    ext f
    simp only [outerFrames, ← hstart, ← hstop, mem_sdiff, mem_Ico]
    constructor
    · rintro ⟨hf, hnot⟩
      exact ⟨hf, by omega⟩
    · rintro ⟨hf, hnot⟩
      have := lt_limit_of_mem_free hf
      exact ⟨hf, by omega⟩
  simp only [hclamp, houter]
  rcases Nat.le_total start (min stop p.frameLimit) with hle | hle
  · apply forRange_rule (fun i q => Frees p q (p.free \ Ico start i)) hle
    · simpa using h.frees_self
    · intro i q hi hlt hq
      have hfree := reserveFrame_frees hq.accounting i
      have hset : q.free \ {i} = p.free \ Ico start (i + 1) := by
        ext g
        simp only [hq.free_eq, mem_sdiff, mem_singleton, mem_Ico]
        by_cases hg : g ∈ p.free <;> simp only [hg, true_and, false_and]
        omega
      exact hset ▸ hq.trans hfree
  · rw [forRange_of_le hle, Ico_eq_empty (by omega), sdiff_empty]
    exact h.frees_self

/-! ## Allocating one page -/

theorem probeWord_spec {p : Pmm} (h : Accounting p) {pass wordIdx frame : ℕ}
    (hprobe : p.probeWord pass = some (wordIdx, frame)) :
    frame ∈ p.free ∧ wordIdx < p.bitmapWords := by
  have hwords : 0 < p.bitmapWords := by
    have := h.words_eq
    have := h.limit_pos
    omega
  simp only [probeWord] at hprobe
  set idx := u64 (p.allocWordCursor + pass) % p.bitmapWords with hidx
  have hlt : idx < p.bitmapWords := Nat.mod_lt _ hwords
  split at hprobe
  · cases hprobe
  · rename_i hword
    obtain ⟨hbit, hclear⟩ := ctz_not_spec hword
    split at hprobe
    · cases hprobe
    · split at hprobe
      · rename_i hvalid
        simp only [Option.some.injEq, Prod.mk.injEq] at hprobe
        obtain ⟨rfl, rfl⟩ := hprobe
        refine ⟨mem_free.mpr ⟨by simpa [frameValid] using hvalid, ?_⟩, hlt⟩
        have hdiv :
            (idx * bitmapWordBits + (ctz (~~~p.frameBitmap idx)).toNat) / 64 = idx := by
          simp only [bitmapWordBits]
          omega
        have hmod : (idx * bitmapWordBits + (ctz (~~~p.frameBitmap idx)).toNat) % 64 =
            (ctz (~~~p.frameBitmap idx)).toNat := by
          simp only [bitmapWordBits]
          omega
        unfold testBit
        rw [hdiv, hmod, hclear]
      · cases hprobe

/-- Every word is probed, and a word with a free frame is not skipped: the padding bits
never hide one, because they are set. -/
theorem probeWord_complete {p : Pmm} (h : Accounting p) {f : ℕ} (hf : f ∈ p.free) :
    ∃ pass ∈ List.range p.bitmapWords, p.probeWord pass ≠ none := by
  obtain ⟨hlimit, hclear⟩ := mem_free.mp hf
  have hwords := h.words_eq
  have hbound := h.limit_lt
  have hcursor := h.cursor_le
  have hword : f / 64 < p.bitmapWords := by omega
  obtain ⟨pass, hlt, hreach⟩ := Rotation.exists_add_mod_eq p.allocWordCursor hword
  refine ⟨pass, List.mem_range.mpr hlt, ?_⟩
  have hprobed : u64 (p.allocWordCursor + pass) % p.bitmapWords = f / 64 := by
    rw [u64_of_lt (by omega), hreach]
  have hne : p.frameBitmap (f / 64) ≠ allOnes 64 := by
    intro hall
    have hmod : f % 64 < 64 := Nat.mod_lt f (by decide)
    unfold testBit at hclear
    rw [hall, getLsbD_allOnes] at hclear
    simp [hmod] at hclear
  obtain ⟨hbit, hlow⟩ := ctz_not_spec hne
  have hnz : ~~~p.frameBitmap (f / 64) ≠ 0#64 := fun hz => hne ((not_eq_zero_iff _).mp hz)
  have hvalid : f / 64 * 64 + (ctz (~~~p.frameBitmap (f / 64))).toNat < p.frameLimit := by
    by_contra hge
    have hpad := h.padding _ (Nat.le_of_not_lt hge) (by omega)
    unfold testBit at hpad
    rw [show (f / 64 * 64 + (ctz (~~~p.frameBitmap (f / 64))).toNat) / 64 = f / 64 by omega,
      show (f / 64 * 64 + (ctz (~~~p.frameBitmap (f / 64))).toNat) % 64 =
        (ctz (~~~p.frameBitmap (f / 64))).toNat by omega, hlow] at hpad
    cases hpad
  simp only [probeWord, hprobed, if_neg hne, if_neg hnz, frameValid, bitmapWordBits, hvalid,
    decide_true, if_true, ne_eq, reduceCtorEq, not_false_eq_true]

/-- The one-page path takes some free frame, and fails only when there is none. -/
theorem allocSinglePageUnlocked_spec {p : Pmm} (h : Accounting p) :
    (∃ f ∈ p.free, p.allocSinglePageUnlocked.1 = f * pageSize ∧
      Frees p p.allocSinglePageUnlocked.2 (p.free \ {f})) ∨
    (p.allocSinglePageUnlocked = (0, p) ∧ p.free = ∅) := by
  unfold allocSinglePageUnlocked
  cases hfind : (List.range p.bitmapWords).findSome? p.probeWord with
  | none =>
    right
    refine ⟨rfl, eq_empty_of_forall_notMem fun f hf => ?_⟩
    obtain ⟨pass, hpass, hne⟩ := probeWord_complete h hf
    exact hne (List.findSome?_eq_none_iff.mp hfind pass hpass)
  | some result =>
    left
    obtain ⟨wordIdx, frame⟩ := result
    obtain ⟨pass, -, hprobe⟩ := List.exists_of_findSome?_eq_some hfind
    obtain ⟨hmem, hidx⟩ := probeWord_spec h hprobe
    have hlt := lt_limit_of_mem_free hmem
    have hbound := h.limit_lt
    have hsets := setFrame_onlySets frame p
    have hfrees := hsets.frees_countTaken h (t := {frame}) (by simpa using hmem)
      (by rw [setFrame_free, sdiff_singleton_eq_erase])
    refine ⟨frame, hmem, ?_, ?_⟩
    · simp only
      rw [u64_of_lt (by simp only [pageSize]; omega)]
    · simpa [hsets.stats] using hfrees.withCursor (c := wordIdx)
        (by simpa [hsets.words] using hidx.le)

/-! ## Allocating a run -/

theorem runFree_iff {p : Pmm} {frame count : ℕ} (hcount : 0 < count) :
    p.runFree frame count = true ↔ Ico frame (frame + count) ⊆ p.free := by
  simp only [runFree, Bool.and_eq_true, decide_eq_true_eq, List.all_eq_true, List.mem_range,
    Bool.not_eq_true', testFrame_eq_false]
  constructor
  · rintro ⟨-, hall⟩ f hf
    rw [mem_Ico] at hf
    simpa [show frame + (f - frame) = f by omega] using hall (f - frame) (by omega)
  · intro hsub
    constructor
    · have hlast := hsub (mem_Ico.mpr ⟨by omega, by omega⟩ :
        frame + count - 1 ∈ Ico frame (frame + count))
      have := lt_limit_of_mem_free hlast
      omega
    · intro i hi
      exact hsub (mem_Ico.mpr ⟨by omega, by omega⟩)

theorem takeRun_frees {p : Pmm} (h : Accounting p) {frame count : ℕ}
    (hrun : Ico frame (frame + count) ⊆ p.free) (hfit : frame + count ≤ p.frameLimit) :
    Frees p (p.takeRun frame count) (p.free \ Ico frame (frame + count)) := by
  have hset : OnlySets p (forRange 0 count (fun i p => p.setFrame (frame + i)) p) ∧
      (forRange 0 count (fun i p => p.setFrame (frame + i)) p).free =
        p.free \ Ico frame (frame + count) := by
    apply forRange_rule (fun i q => OnlySets p q ∧ q.free = p.free \ Ico frame (frame + i))
      (Nat.zero_le count)
    · exact ⟨OnlySets.refl p, by simp⟩
    · rintro i q - - ⟨hq, hfree⟩
      refine ⟨hq.trans (setFrame_onlySets _ q), ?_⟩
      rw [setFrame_free, hfree]
      ext g
      simp only [mem_erase, mem_sdiff, mem_Ico]
      by_cases hg : g ∈ p.free <;> simp only [hg, true_and, false_and, and_false]
      omega
  obtain ⟨hsets, hfree⟩ := hset
  have hcard : (Ico frame (frame + count)).card = count := by simp
  have hfrees := hsets.frees_countTaken h hrun hfree
  rw [hcard, ← hsets.stats] at hfrees
  have hwords := h.words_eq
  exact hfrees.withCursor (c := (frame + count) / bitmapWordBits)
    (by simp only [hsets.words, bitmapWordBits]; omega)

theorem no_run_of_card_lt {p : Pmm} {count : ℕ} (h : p.free.card < count) (f : ℕ) :
    ¬ Ico f (f + count) ⊆ p.free := by
  intro hsub
  have hle := card_le_card hsub
  rw [Nat.card_Ico] at hle
  omega

section

variable {p : Pmm} {count start : ℕ}

/-- The frame that the search for a run stops at starts a run of free frames. -/
theorem run_of_find {pass : ℕ} (hpos : 0 < count) (hfind : (List.range p.frameLimit).find?
      (fun pass => p.runFree ((start + pass) % p.frameLimit) count) = some pass) :
    Ico ((start + pass) % p.frameLimit) ((start + pass) % p.frameLimit + count) ⊆ p.free ∧
      (start + pass) % p.frameLimit + count ≤ p.frameLimit := by
  have hok : p.runFree ((start + pass) % p.frameLimit) count = true := by
    simpa using List.find?_some hfind
  have hrun := (runFree_iff hpos).mp hok
  set frame := (start + pass) % p.frameLimit
  have hlast := lt_limit_of_mem_free (hrun (mem_Ico.mpr ⟨by omega, by omega⟩ :
    frame + count - 1 ∈ Ico frame (frame + count)))
  exact ⟨hrun, by omega⟩

theorem no_run_of_find (hpos : 0 < count) (hfind : (List.range p.frameLimit).find?
      (fun pass => p.runFree ((start + pass) % p.frameLimit) count) = none) (f : ℕ) :
    ¬ Ico f (f + count) ⊆ p.free := by
  intro hsub
  have hflt : f < p.frameLimit := lt_limit_of_mem_free (hsub (mem_Ico.mpr ⟨le_rfl, by omega⟩))
  obtain ⟨pass, hlt, hreach⟩ := Rotation.exists_add_mod_eq start hflt
  have hnone := List.find?_eq_none.mp hfind pass (List.mem_range.mpr hlt)
  rw [hreach, runFree_iff hpos] at hnone
  exact hnone hsub

end

/-- Allocation is a complete search: it takes a run of free frames of the requested
length, and returns 0 with the state unchanged only when there is no such run. -/
theorem pmmAllocPages_spec {p : Pmm} (h : Accounting p) (count : ℕ) :
    (∃ f, 0 < count ∧ Ico f (f + count) ⊆ p.free ∧ (p.pmmAllocPages count).1 = f * pageSize ∧
      Frees p (p.pmmAllocPages count).2 (p.free \ Ico f (f + count))) ∨
    (p.pmmAllocPages count = (0, p) ∧ (count = 0 ∨ ∀ f, ¬ Ico f (f + count) ⊆ p.free)) := by
  have hbound := h.limit_lt
  have hcard := card_free_le p
  unfold pmmAllocPages
  split
  · rename_i hbad
    right
    refine ⟨rfl, ?_⟩
    rcases hbad with hzero | hbig
    · exact Or.inl hzero
    · exact Or.inr (no_run_of_card_lt (by omega))
  rename_i hgood
  have hpos : 0 < count := by omega
  split
  · rename_i hfew
    right
    exact ⟨rfl, Or.inr (no_run_of_card_lt (by rw [← h.free_eq]; exact hfew))⟩
  split
  · rename_i hone
    subst hone
    rcases allocSinglePageUnlocked_spec h with ⟨f, hmem, haddr, hfrees⟩ | ⟨heq, hempty⟩
    · left
      have hico : Ico f (f + 1) = {f} := by simp
      exact ⟨f, hpos, by simpa [hico] using hmem, haddr, by simpa [hico] using hfrees⟩
    · right
      refine ⟨heq, Or.inr fun f hsub => ?_⟩
      have hmem : f ∈ p.free := hsub (by simp)
      simp [hempty] at hmem
  · simp only
    set start := u64 (p.allocWordCursor * bitmapWordBits) % p.frameLimit
    cases hfind : (List.range p.frameLimit).find?
        (fun pass => p.runFree ((start + pass) % p.frameLimit) count) with
    | some pass =>
      left
      obtain ⟨hrun, hfit⟩ := run_of_find hpos hfind
      refine ⟨_, hpos, hrun, ?_, takeRun_frees h hrun hfit⟩
      exact u64_of_lt (by simp only [pageSize]; omega)
    | none => exact Or.inr ⟨rfl, Or.inr (no_run_of_find hpos hfind)⟩

/-! ## Freeing a page -/

/-- The addresses `pmm_free_page` acts on: nonzero page addresses below the limit. -/
def Freeable (p : Pmm) (physAddr : ℕ) : Prop :=
  physAddr ≠ 0 ∧ physAddr % pageSize = 0 ∧ physAddr / pageSize < p.frameLimit

instance (p : Pmm) (physAddr : ℕ) : Decidable (p.Freeable physAddr) :=
  inferInstanceAs (Decidable (_ ∧ _ ∧ _))

theorem pmmFreePage_of_not_freeable {p : Pmm} {physAddr : ℕ} (h : ¬ p.Freeable physAddr) :
    p.pmmFreePage physAddr = p := by
  unfold pmmFreePage
  split
  · rfl
  · rename_i hgood
    push Not at hgood
    have hlt : ¬ physAddr / pageSize < p.frameLimit := fun hlt => h ⟨hgood.1, hgood.2, hlt⟩
    simp [frameValid, hlt]

/-- Freeing puts the frame of a freeable address into the free set, whether or not it
was in use, and ignores every other address. -/
theorem pmmFreePage_frees {p : Pmm} (h : Accounting p) (physAddr : ℕ) :
    Frees p (p.pmmFreePage physAddr)
      (if p.Freeable physAddr then insert (physAddr / pageSize) p.free else p.free) := by
  by_cases hok : p.Freeable physAddr
  · obtain ⟨hne, hmod, hlt⟩ := id hok
    rw [if_pos hok]
    by_cases hmem : physAddr / pageSize ∈ p.free
    · have htest := testFrame_eq_false.mpr hmem
      rw [insert_eq_of_mem hmem]
      simpa [pmmFreePage, htest] using h.frees_self
    · have htest := testFrame_eq_true.mpr hmem
      have hwords := h.words_eq
      have hcursor : physAddr / pageSize / bitmapWordBits ≤
          (p.clearFrame (physAddr / pageSize)).bitmapWords := by
        simp only [clearFrame, frameValid, hlt, decide_true, if_true, bitmapWordBits]
        omega
      simpa [pmmFreePage, hne, hmod, frameValid, hlt, htest] using
        (clearFrame_frees h hlt hmem).withCursor hcursor
  · rw [if_neg hok, pmmFreePage_of_not_freeable hok]
    exact h.frees_self

end NeverMind.Pmm
