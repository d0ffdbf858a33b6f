import NeverMind.Model.Pmm
import Mathlib.Order.Interval.Finset.Nat

/-! # The set of free frames

The bitmap represents a finite set, the frames that are free. Every operation of the
allocator is described by what it does to this set; the counters and the padding bits
of the last word follow along. -/

namespace NeverMind.Pmm

open Bitmap

def free (p : Pmm) : Finset ℕ := clearSet p.frameBitmap p.frameLimit

variable {p : Pmm} {f : ℕ}

theorem mem_free : f ∈ p.free ↔ f < p.frameLimit ∧ testBit p.frameBitmap f = false := mem_clearSet

theorem lt_limit_of_mem_free (h : f ∈ p.free) : f < p.frameLimit := (mem_free.mp h).1

theorem testFrame_eq_false : p.testFrame f = false ↔ f ∈ p.free := by
  have hmask := and_one_shiftLeft_ne_zero (p.frameBitmap (f / 64)) (f % 64)
    (Nat.mod_lt f (by decide))
  rw [mem_free]
  by_cases hf : f < p.frameLimit
  · cases hbit : (p.frameBitmap (f / 64)).getLsbD (f % 64) with
    | false => simp_all [testFrame, frameValid, bitmapWordBits, testBit]
    | true => simp_all [testFrame, frameValid, bitmapWordBits, testBit]
  · simp [testFrame, frameValid, hf]

theorem testFrame_eq_true : p.testFrame f = true ↔ f ∉ p.free := by
  rw [← testFrame_eq_false, Bool.not_eq_false]

/-! ## The accounting invariant -/

/-- The counters agree with the set of free frames, and the bits of the last word
that stand for no frame are set. -/
structure Accounting (p : Pmm) : Prop where
  limit_pos : 0 < p.frameLimit
  limit_le : p.frameLimit ≤ maxFrames
  words_eq : p.bitmapWords = (p.frameLimit + 63) / 64
  padding : ∀ f, p.frameLimit ≤ f → f < p.bitmapWords * 64 → testBit p.frameBitmap f = true
  free_eq : p.mmStats.freeFrames = p.free.card
  used_eq : p.mmStats.usedFrames = p.frameLimit - p.free.card
  total_eq : p.mmStats.totalFrames = p.frameLimit
  cursor_le : p.allocWordCursor ≤ p.bitmapWords

theorem card_free_le (p : Pmm) : p.free.card ≤ p.frameLimit := card_clearSet_le _ _

theorem card_free_lt (hf : f < p.frameLimit) (hnot : f ∉ p.free) : p.free.card < p.frameLimit := by
  apply card_clearSet_lt hf
  by_contra hbit
  exact hnot (mem_free.mpr ⟨hf, by simpa using hbit⟩)

theorem Accounting.limit_lt (h : Accounting p) : p.frameLimit ≤ 2 ^ 25 := by
  have := h.limit_le
  simpa [maxFrames, maxPhysMemBytes, pageSize] using this

/-- `q` has the same frames and the same bitmap placement as `p`, sound counters, and
exactly the frames of `s` free. -/
structure Frees (p q : Pmm) (s : Finset ℕ) : Prop where
  accounting : Accounting q
  free_eq : q.free = s
  limit_eq : q.frameLimit = p.frameLimit
  base_eq : q.bitmapPhysBase = p.bitmapPhysBase
  bytes_eq : q.bitmapBytes = p.bitmapBytes

theorem Accounting.frees_self (h : Accounting p) : Frees p p p.free := ⟨h, rfl, rfl, rfl, rfl⟩

theorem Frees.trans {q r : Pmm} {s t : Finset ℕ} (h : Frees p q s) (h' : Frees q r t) :
    Frees p r t :=
  ⟨h'.accounting, h'.free_eq, h'.limit_eq.trans h.limit_eq, h'.base_eq.trans h.base_eq,
    h'.bytes_eq.trans h.bytes_eq⟩

/-- The cursor only chooses where a search starts; moving it changes no frame. -/
theorem Frees.withCursor {q : Pmm} {s : Finset ℕ} (h : Frees p q s) {c : ℕ}
    (hc : c ≤ q.bitmapWords) :
    Frees p { q with allocWordCursor := c } s :=
  have ha := h.accounting
  ⟨⟨ha.limit_pos, ha.limit_le, ha.words_eq, ha.padding, ha.free_eq, ha.used_eq, ha.total_eq, hc⟩,
    h.free_eq, h.limit_eq, h.base_eq, h.bytes_eq⟩

/-- `reserved_frames` is a statistic that no other field depends on. -/
theorem Frees.withReserved {q : Pmm} {s : Finset ℕ} (h : Frees p q s) (n : ℕ) :
    Frees p { q with mmStats := { q.mmStats with reservedFrames := n } } s :=
  have ha := h.accounting
  ⟨⟨ha.limit_pos, ha.limit_le, ha.words_eq, ha.padding, ha.free_eq, ha.used_eq, ha.total_eq,
    ha.cursor_le⟩, h.free_eq, h.limit_eq, h.base_eq, h.bytes_eq⟩

/-! ## Freeing one frame -/

theorem clearFrame_frees (h : Accounting p) (hf : f < p.frameLimit) (hused : f ∉ p.free) :
    Frees p { p.clearFrame f with mmStats := countFreed p.mmStats } (insert f p.free) := by
  have hcard := card_free_lt hf hused
  have hbound := h.limit_lt
  have hfree : clearSet (clearBit p.frameBitmap f) p.frameLimit = insert f p.free :=
    clearSet_clearBit (by decide) _ _ _ hf
  have hclear : p.clearFrame f = { p with frameBitmap := clearBit p.frameBitmap f } := by
    simp [clearFrame, frameValid, hf]
  rw [hclear]
  refine ⟨⟨h.limit_pos, h.limit_le, h.words_eq, ?_, ?_, ?_, h.total_eq, h.cursor_le⟩,
    hfree, rfl, rfl, rfl⟩
  · intro g hg hlt
    have hne : g ≠ f := by
      intro heq
      subst heq
      exact absurd hf (Nat.not_lt.mpr hg)
    simpa [testBit_clearBit, hne] using h.padding g hg hlt
  · change u64 (p.mmStats.freeFrames + 1) = (clearSet _ _).card
    rw [hfree, Finset.card_insert_of_notMem hused, h.free_eq, u64_of_lt (by omega)]
  · change u64Sub p.mmStats.usedFrames 1 = p.frameLimit - (clearSet _ _).card
    rw [hfree, Finset.card_insert_of_notMem hused, h.used_eq, u64Sub_of_le (by omega) (by omega)]
    omega

/-! ## Taking frames -/

@[simp] theorem setFrame_frameLimit (f : ℕ) (p : Pmm) :
    (p.setFrame f).frameLimit = p.frameLimit := by
  unfold setFrame
  split <;> rfl

theorem setFrame_free (f : ℕ) (p : Pmm) : (p.setFrame f).free = p.free.erase f := by
  by_cases hf : f < p.frameLimit
  · simpa [setFrame, frameValid, hf, free] using
      clearSet_setBit (by decide) p.frameBitmap p.frameLimit f
  · have hnot : f ∉ p.free := fun hmem => hf (lt_limit_of_mem_free hmem)
    rw [Finset.erase_eq_of_notMem hnot]
    simp [setFrame, frameValid, hf]

/-- Setting bits touches the bitmap only, and only ever sets. -/
structure OnlySets (p q : Pmm) : Prop where
  stats : q.mmStats = p.mmStats
  limit : q.frameLimit = p.frameLimit
  words : q.bitmapWords = p.bitmapWords
  base : q.bitmapPhysBase = p.bitmapPhysBase
  bytes : q.bitmapBytes = p.bitmapBytes
  cursor : q.allocWordCursor = p.allocWordCursor
  bits : ∀ f, testBit p.frameBitmap f = true → testBit q.frameBitmap f = true

theorem OnlySets.refl (p : Pmm) : OnlySets p p := ⟨rfl, rfl, rfl, rfl, rfl, rfl, fun _ h => h⟩

theorem OnlySets.trans {q r : Pmm} (h : OnlySets p q) (h' : OnlySets q r) : OnlySets p r :=
  ⟨h'.stats.trans h.stats, h'.limit.trans h.limit, h'.words.trans h.words,
    h'.base.trans h.base, h'.bytes.trans h.bytes, h'.cursor.trans h.cursor,
    fun f hf => h'.bits f (h.bits f hf)⟩

theorem setFrame_onlySets (f : ℕ) (p : Pmm) : OnlySets p (p.setFrame f) := by
  by_cases hf : f < p.frameLimit
  · have hset : p.setFrame f = { p with frameBitmap := setBit p.frameBitmap f } := by
      simp [setFrame, frameValid, hf]
    rw [hset]
    refine ⟨rfl, rfl, rfl, rfl, rfl, rfl, ?_⟩
    intro g hg
    simp [testBit_setBit, hg]
  · have hset : p.setFrame f = p := by simp [setFrame, frameValid, hf]
    rw [hset]
    exact OnlySets.refl p

/-- Setting the bits of `n` free frames and counting `n` frames as taken. -/
theorem OnlySets.frees_countTaken {q : Pmm} (h : Accounting p) (hq : OnlySets p q) {t : Finset ℕ}
    (ht : t ⊆ p.free) (hfree : q.free = p.free \ t) :
    Frees p { q with mmStats := countTaken t.card p.mmStats } (p.free \ t) := by
  have hcard : (p.free \ t).card = p.free.card - t.card := Finset.card_sdiff_of_subset ht
  have hle := Finset.card_le_card ht
  have hmax := card_free_le p
  have hbound := h.limit_lt
  refine ⟨⟨?_, ?_, ?_, ?_, ?_, ?_, ?_, ?_⟩, hfree, hq.limit, hq.base, hq.bytes⟩
  · exact hq.limit ▸ h.limit_pos
  · exact hq.limit ▸ h.limit_le
  · simpa [hq.words, hq.limit] using h.words_eq
  · intro g hg hlt
    exact hq.bits g (h.padding g (hq.limit ▸ hg) (hq.words ▸ hlt))
  · change u64Sub p.mmStats.freeFrames t.card = q.free.card
    rw [hfree, hcard, h.free_eq, u64Sub_of_le hle (by omega)]
  · change u64 (p.mmStats.usedFrames + t.card) = q.frameLimit - q.free.card
    rw [hfree, hcard, hq.limit, h.used_eq, u64_of_lt (by omega)]
    omega
  · simpa [countTaken, hq.limit] using h.total_eq
  · simpa [hq.words, hq.cursor] using h.cursor_le

end NeverMind.Pmm
