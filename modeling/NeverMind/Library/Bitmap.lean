import Mathlib.Data.Finset.Card
import Mathlib.Logic.Function.Basic
import Mathlib.Data.Finset.Range

/-! A bitmap of `w`-bit words. The clear bits below a limit form a finite set, and
the two bit operations insert one index into that set or erase it. -/

namespace NeverMind.Bitmap

open BitVec Function Finset

variable {w : ℕ}

/-- Bit `f` of the bitmap. -/
def testBit (bm : ℕ → BitVec w) (f : ℕ) : Bool := (bm (f / w)).getLsbD (f % w)

def setBit (bm : ℕ → BitVec w) (f : ℕ) : ℕ → BitVec w :=
  update bm (f / w) (bm (f / w) ||| 1#w <<< (f % w))

def clearBit (bm : ℕ → BitVec w) (f : ℕ) : ℕ → BitVec w :=
  update bm (f / w) (bm (f / w) &&& ~~~(1#w <<< (f % w)))

theorem getLsbD_one_shiftLeft (k i : ℕ) (hi : i < w) : (1#w <<< k).getLsbD i = decide (i = k) := by
  rw [← twoPow_eq, getLsbD_twoPow]
  by_cases h : i = k
  · subst h; simp [hi]
  · have hk : ¬ k = i := fun hk => h hk.symm
    simp [h, hk]

/-- Masking with a single bit tests that bit. -/
theorem and_one_shiftLeft_ne_zero (x : BitVec w) (k : ℕ) (hk : k < w) :
    x &&& 1#w <<< k ≠ 0#w ↔ x.getLsbD k = true := by
  constructor
  · intro hne
    by_contra hbit
    apply hne
    apply eq_of_getLsbD_eq
    intro i hi
    rw [getLsbD_and, getLsbD_one_shiftLeft k i hi]
    by_cases h : i = k
    · subst h; simp [hbit]
    · simp [h]
  · intro hbit hzero
    have h := congrArg (fun y => y.getLsbD k) hzero
    simp [getLsbD_one_shiftLeft k k hk, hbit] at h

/-- Two indices of the same word with the same offset are the same index. -/
theorem index_ext {f g : ℕ} (hdiv : g / w = f / w) (hmod : g % w = f % w) : g = f := by
  rw [← Nat.div_add_mod g w, ← Nat.div_add_mod f w, hdiv, hmod]

theorem testBit_setBit (hw : 0 < w) (bm : ℕ → BitVec w) (f g : ℕ) :
    testBit (setBit bm f) g = (decide (g = f) || testBit bm g) := by
  have hg : g % w < w := Nat.mod_lt g hw
  unfold testBit setBit
  by_cases hdiv : g / w = f / w
  · rw [hdiv, update_self, getLsbD_or, getLsbD_one_shiftLeft _ _ hg]
    by_cases hgf : g = f
    · simp [hgf]
    · have hmod : ¬ g % w = f % w := fun h => hgf (index_ext hdiv h)
      simp [hgf, hmod]
  · have hgf : g ≠ f := fun h => hdiv (by rw [h])
    simp [update_of_ne hdiv, hgf]

theorem testBit_clearBit (hw : 0 < w) (bm : ℕ → BitVec w) (f g : ℕ) :
    testBit (clearBit bm f) g = (!decide (g = f) && testBit bm g) := by
  have hg : g % w < w := Nat.mod_lt g hw
  unfold testBit clearBit
  by_cases hdiv : g / w = f / w
  · rw [hdiv, update_self, getLsbD_and, getLsbD_not, getLsbD_one_shiftLeft _ _ hg]
    by_cases hgf : g = f
    · simp [hgf]
    · have hmod : ¬ g % w = f % w := fun h => hgf (index_ext hdiv h)
      simp [hgf, hmod, hg]
  · have hgf : g ≠ f := fun h => hdiv (by rw [h])
    simp [update_of_ne hdiv, hgf]

/-! ## The set of clear bits -/

/-- The indices below `limit` whose bit is clear. -/
def clearSet (bm : ℕ → BitVec w) (limit : ℕ) : Finset ℕ :=
  (range limit).filter (fun f => testBit bm f = false)

@[simp] theorem mem_clearSet {bm : ℕ → BitVec w} {limit f : ℕ} :
    f ∈ clearSet bm limit ↔ f < limit ∧ testBit bm f = false := by
  simp [clearSet]

theorem clearSet_subset_range (bm : ℕ → BitVec w) (limit : ℕ) :
    clearSet bm limit ⊆ range limit :=
  filter_subset _ _

theorem card_clearSet_le (bm : ℕ → BitVec w) (limit : ℕ) : (clearSet bm limit).card ≤ limit := by
  simpa using card_le_card (clearSet_subset_range bm limit)

/-- A set bit below the limit leaves room for one more clear bit. -/
theorem card_clearSet_lt {bm : ℕ → BitVec w} {limit f : ℕ} (hf : f < limit)
    (hbit : testBit bm f = true) : (clearSet bm limit).card < limit := by
  have hss : clearSet bm limit ⊂ range limit := by
    refine ⟨clearSet_subset_range bm limit, fun hsub => ?_⟩
    have hmem := hsub (mem_range.mpr hf)
    simp [hbit] at hmem
  simpa using card_lt_card hss

theorem clearSet_setBit (hw : 0 < w) (bm : ℕ → BitVec w) (limit f : ℕ) :
    clearSet (setBit bm f) limit = (clearSet bm limit).erase f := by
  ext g
  rw [mem_erase, mem_clearSet, mem_clearSet, testBit_setBit hw]
  by_cases h : g = f <;> simp [h]

theorem clearSet_clearBit (hw : 0 < w) (bm : ℕ → BitVec w) (limit f : ℕ) (hf : f < limit) :
    clearSet (clearBit bm f) limit = insert f (clearSet bm limit) := by
  ext g
  rw [mem_insert, mem_clearSet, mem_clearSet, testBit_clearBit hw]
  by_cases h : g = f
  · simp [h, hf]
  · simp [h]

/-! ## The lowest clear bit of a word -/

theorem not_eq_zero_iff (x : BitVec w) : ~~~x = 0#w ↔ x = allOnes w := by
  constructor
  · intro h
    rw [← not_not (b := x), h, not_zero]
  · rintro rfl
    simp

/-- Counting the trailing zeros of the complement finds a clear bit of the word. -/
theorem ctz_not_spec {x : BitVec w} (hx : x ≠ allOnes w) :
    (ctz (~~~x)).toNat < w ∧ x.getLsbD (ctz (~~~x)).toNat = false := by
  have hne : ~~~x ≠ 0#w := fun h => hx ((not_eq_zero_iff x).mp h)
  have htrue := getLsbD_true_ctz_of_ne_zero hne
  rw [getLsbD_not] at htrue
  simpa using htrue

end NeverMind.Bitmap
