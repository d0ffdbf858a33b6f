import NeverMind.Verification.Kheap.Runs
import NeverMind.Verification.Pmm.Search

/-! # The bytes behind a pointer

An allocation of any 64-bit size returns a block that holds the request, except for the sizes that
wrap with the header: there the page count is 1 and the block ends after 4080 bytes. -/

namespace NeverMind.Kheap

open List Nat

variable {s : Kheap} {runs : List Run} {used : List (Block × ℕ)} {free : List Block}
  {wanted fuel addr : ℕ} {c : Client}

/-! ## Requests that wrap -/

/-- The bytes of a request that exist. A request that wraps with the header is answered with one
page. -/
def granted (wanted : ℕ) : ℕ := if wanted ≤ 2 ^ 64 - 16 then wanted else 4080

theorem scan_found {prev prev' : Option ℕ} {cur cur' : ℕ}
    (h : s.scan wanted fuel prev cur = some (some (prev', cur'))) : wanted ≤ s.size cur' := by
  induction fuel generalizing prev cur with
  | zero => cases h
  | succ fuel ih =>
    rw [scan] at h
    split at h
    · cases h
    · split at h
      · rename_i hsize
        cases h
        exact hsize
      · exact ih h

theorem size_lt (s : Kheap) (h : ℕ) : s.size h < 2 ^ 32 := by
  have := loadWord_lt 4 (h + 4) s.mem
  unfold size
  omega

theorem pagesFor_of_wrap (hwrap : ¬ wanted ≤ 2 ^ 64 - 16) (hword : wanted < 2 ^ 64) :
    pagesFor wanted = 1 := by
  unfold pagesFor u64 kmallocHeaderSize pageSize
  omega

theorem allocFrames_congr {n w w' : ℕ} (hw : splits n w = false) (hw' : splits n w' = false)
    (s : Kheap) : s.allocFrames n w = s.allocFrames n w' := by
  unfold allocFrames
  simp only [carve_eq, hw, hw', Bool.false_eq_true, if_false]

theorem splits_one_of_le (h : 4080 ≤ wanted) : splits 1 wanted = false := by
  have hsize : runSize 1 = 4080 := by decide
  rw [Bool.eq_false_iff, ne_eq, splits_iff, hsize]
  omega

theorem Layout.kmalloc_granted (h : Layout s runs used free) (hword : wanted < 2 ^ 64)
    {result : ℕ × Kheap} (hk : s.kmalloc fuel wanted = some result) :
    Allocates s runs used free (granted wanted) (obtained fuel wanted s) result := by
  unfold granted
  split
  · rename_i hwanted
    exact h.kmalloc hwanted hk
  · rename_i hwrap
    rcases kmalloc_cases hk with ⟨rfl, -⟩ | ⟨prev, cur, hscan, -⟩ | ⟨-, hobtained, rfl⟩
    · exact absurd (zero_le _) hwrap
    · -- no size field is that large
      have hsize := scan_found hscan
      have hlt := size_lt s cur
      omega
    · rw [hobtained, pagesFor_of_wrap hwrap hword,
        allocFrames_congr (splits_one_of_le (by omega)) (splits_one_of_le le_rfl)]
      exact h.allocFrames fun _ => by decide

variable {r : Run}

theorem obtained_pages (h : obtained fuel wanted s = some r) : r.pages = pagesFor wanted := by
  unfold obtained at h
  split at h
  · cases h
  · split at h
    · dsimp only at h
      split at h
      · cases h
      · cases h
        rfl
    · cases h

theorem headers_of_not_splits (h : splits r.pages wanted = false) :
    headers wanted r = [r.first * 4096] := by
  rw [headers, h]
  rfl

theorem headers_granted (hword : wanted < 2 ^ 64) (fuel : ℕ) (s : Kheap) :
    (obtained fuel wanted s).elim [] (headers wanted) =
      (obtained fuel wanted s).elim [] (headers (granted wanted)) := by
  by_cases hwanted : wanted ≤ 2 ^ 64 - 16
  · rw [granted, if_pos hwanted]
  · rw [granted, if_neg hwanted]
    cases hrun : obtained fuel wanted s with
    | none => simp only [Option.elim_none]
    | some r =>
      have hpages := (obtained_pages hrun).trans (pagesFor_of_wrap hwanted hword)
      have hlarge : 4080 ≤ wanted := by omega
      rw [Option.elim_some, Option.elim_some,
        headers_of_not_splits (hpages ▸ splits_one_of_le hlarge),
        headers_of_not_splits (hpages ▸ splits_one_of_le le_rfl)]

/-! ## Reachable heaps -/

/-- A call of any 64-bit size that returns, a release of a pointer in use, or a write to bytes that
were granted. -/
inductive Use : Client → Client → Prop where
  | kmalloc (c : Client) (fuel wanted addr : ℕ) (heap : Kheap) (hword : wanted < 2 ^ 64)
      (hk : c.heap.kmalloc fuel wanted = some (addr, heap)) :
      Use c
        { heap := heap
          live := if addr = 0 then c.live else (addr, granted wanted) :: c.live
          carved := (obtained fuel wanted c.heap).elim [] (headers wanted) ++ c.carved
          runs := (obtained fuel wanted c.heap).toList ++ c.runs }
  | kfree (c : Client) (addr n : ℕ) (front back : List (ℕ × ℕ))
      (hlive : c.live = front ++ (addr, n) :: back) :
      Use c { c with heap := c.heap.kfree addr, live := front ++ back }
  | write (c : Client) (addr n a : ℕ) (byte : BitVec 8) (hlive : (addr, n) ∈ c.live)
      (hlow : addr ≤ a) (hhigh : a < addr + n) :
      Use c { c with heap := { c.heap with mem := Function.update c.heap.mem a byte } }

variable {heap : Kheap}

theorem Describes.kmalloc_granted (h : Describes c used free) (hword : wanted < 2 ^ 64)
    (hk : c.heap.kmalloc fuel wanted = some (addr, heap)) :
    ∃ used' free', Describes
      { heap := heap
        live := if addr = 0 then c.live else (addr, granted wanted) :: c.live
        carved := (obtained fuel wanted c.heap).elim [] (headers wanted) ++ c.carved
        runs := (obtained fuel wanted c.heap).toList ++ c.runs } used' free' := by
  rw [headers_granted hword]
  exact h.allocates (h.layout.kmalloc_granted hword hk)

theorem Describes.use {c' : Client} (h : Describes c used free) (huse : Use c c') :
    ∃ used' free', Describes c' used' free' := by
  cases huse with
  | kmalloc fuel wanted addr heap hword hk => exact h.kmalloc_granted hword hk
  | kfree addr n front back hlive => exact h.kfree hlive
  | write addr n a byte hlive hlow hhigh => exact ⟨used, free, h.write byte hlive hlow hhigh⟩

theorem describes_of_uses {p : Pmm} (hp : Pmm.Sound p) {mem : ℕ → BitVec 8}
    (hreach : Relation.ReflTransGen Use (Client.atStart mem p) c) :
    ∃ used free, Describes c used free := by
  induction hreach with
  | refl => exact ⟨[], [], .atStart hp mem⟩
  | tail _ huse ih =>
    obtain ⟨used, free, h⟩ := ih
    exact h.use huse

/-! ## What an allocation returns -/

/-- The block was carved from the run that was obtained, or is a block of the free list. -/
def CarvedFrom (c : Client) (fuel wanted addr : ℕ) : Prop :=
  match obtained fuel wanted c.heap with
  | some r => Block.Inside ⟨addr - 16, wanted⟩ r
  | none => wanted ≤ c.heap.size (addr - 16) ∧
      ∃ l, Chain c.heap.link (ptr c.heap.freeList) l ∧ addr - 16 ∈ l

/-- The bytes `[addr, addr + wanted)` that an allocation returned lie in the run or the free block
they were carved from, in frames of the heap, and outside every other block. -/
structure Fits (c : Client) (fuel wanted addr : ℕ) (heap : Kheap) : Prop where
  source : CarvedFrom c fuel wanted addr
  inside : ∃ r ∈ (obtained fuel wanted c.heap).toList ++ c.runs, Block.Inside ⟨addr - 16, wanted⟩ r
  apart : ∀ h ∈ (obtained fuel wanted c.heap).elim [] (headers wanted) ++ c.carved,
    h ≠ addr - 16 → Block.Apart ⟨addr - 16, wanted⟩ ⟨h, heap.size h⟩
  live : ∀ u ∈ c.live, Block.Apart ⟨addr - 16, wanted⟩ ⟨u.1 - 16, u.2⟩

theorem Fits.inside_of_obtained (h : Fits c fuel wanted addr heap)
    (hr : obtained fuel wanted c.heap = some r) : Block.Inside ⟨addr - 16, wanted⟩ r := by
  have hsource := h.source
  rwa [CarvedFrom, hr] at hsource

theorem Block.Apart.shrink {b d : Block} (h : b.Apart d) {n m : ℕ} (hn : n ≤ b.room)
    (hm : m ≤ d.room) : Block.Apart ⟨b.hdr, n⟩ ⟨d.hdr, m⟩ := by
  unfold Block.Apart at *
  dsimp only
  omega

theorem Layout.carvedFrom (h : Layout c.heap c.runs used free) (hwanted : wanted ≤ 2 ^ 64 - 16)
    (hk : c.heap.kmalloc fuel wanted = some (addr, heap)) (hne : addr ≠ 0) :
    CarvedFrom c fuel wanted addr := by
  unfold CarvedFrom
  rcases kmalloc_cases hk with ⟨-, -, hres⟩ | ⟨prev, cur, hscan, hobtained, hres⟩ |
    ⟨-, hobtained, hres⟩
  · cases hres
    exact absurd rfl hne
  · cases hres
    rw [hobtained]
    refine ⟨scan_found hscan, _, h.chain, ?_⟩
    cases h.scan_spec hscan with
    | head hl hsize => simp [hl]
    | after front back a cur hl hsize => simp [hl]
  · rw [hobtained, runOf]
    rw [Kheap.allocFrames] at hres
    rcases Pmm.pmmAllocPages_spec h.runs_ok.sound.toAccounting (pagesFor wanted) with
      ⟨f, hpos, -, hret, -⟩ | ⟨hfail, -⟩
    · have hfit := pagesFor_spec hwanted hpos
      by_cases hzero : f * pageSize = 0
      · rw [hret, if_pos hzero] at hres
        cases hres
        exact absurd rfl hne
      · rw [hret, if_neg hzero] at hres
        cases hres
        rw [hret, if_neg hzero, Nat.mul_div_cancel f (by decide)]
        simp only [Block.Inside, kmallocHeaderSize, pageSize]
        omega
    · rw [hfail, if_pos rfl] at hres
      cases hres
      exact absurd rfl hne

theorem Describes.fits (h : Describes c used free) (hwanted : wanted ≤ 2 ^ 64 - 16)
    (hk : c.heap.kmalloc fuel wanted = some (addr, heap)) (hne : addr ≠ 0) :
    Fits c fuel wanted addr heap := by
  obtain ⟨used', free', h'⟩ := h.kmalloc hwanted hk
  -- the pointer is the first of the pointers in use
  have hlive := h'.live
  rw [if_neg hne] at hlive
  obtain ⟨⟨b, w⟩, rest, rfl, hb, hrest⟩ := map_eq_cons_iff.mp hlive.symm
  obtain ⟨rfl, rfl⟩ : addr = b.hdr + 16 ∧ wanted = w := by
    rw [pointer, Prod.mk.injEq] at hb
    exact ⟨hb.1.symm, hb.2.symm⟩
  have hbs := h'.layout.blocks
  have hroom : wanted ≤ b.room := h'.layout.requested (b, wanted) mem_cons_self
  have hfirst : ∀ d ∈ rest.map Prod.fst ++ free', b.Apart d := (pairwise_cons.mp hbs.apart).1
  refine ⟨h.layout.carvedFrom hwanted hk hne, ?_, ?_, ?_⟩
  · obtain ⟨r, hr, hinside⟩ := hbs.inside b (by simp)
    refine ⟨r, hr, ?_⟩
    simp only [Block.Inside, Nat.add_sub_cancel] at hinside ⊢
    omega
  · intro a ha hother
    obtain ⟨d, hd, rfl⟩ := mem_map.mp (h'.carved.mem_iff.mpr ha)
    rw [Nat.add_sub_cancel] at hother ⊢
    have hsize := hbs.size_le d hd
    rcases mem_cons.mp hd with rfl | hd
    · exact absurd rfl hother
    · exact (hfirst d hd).shrink hroom hsize
  · intro u hu
    rw [← hrest] at hu
    obtain ⟨⟨d, n⟩, hd, rfl⟩ := mem_map.mp hu
    have hn : n ≤ d.room := h'.layout.requested (d, n) (mem_cons_of_mem _ hd)
    have hd' : d ∈ rest.map Prod.fst ++ free' :=
      mem_append_left _ (mem_map.mpr ⟨(d, n), hd, rfl⟩)
    simp only [pointer, Nat.add_sub_cancel]
    exact (hfirst d hd').shrink hroom hn

theorem kmalloc_of_wrap (hwrap : ¬ wanted ≤ 2 ^ 64 - 16) (hword : wanted < 2 ^ 64)
    (hk : s.kmalloc fuel wanted = some (addr, heap)) :
    addr = 0 ↔ (s.pmm.pmmAllocPages 1).1 = 0 := by
  rcases kmalloc_cases hk with ⟨rfl, -⟩ | ⟨prev, cur, hscan, -⟩ | ⟨-, -, hres⟩
  · exact absurd (zero_le _) hwrap
  · have hsize := scan_found hscan
    have hlt := size_lt s cur
    omega
  · rw [pagesFor_of_wrap hwrap hword, Kheap.allocFrames] at hres
    by_cases hpage : (s.pmm.pmmAllocPages 1).1 = 0
    · rw [if_pos hpage] at hres
      exact iff_of_true (congrArg Prod.fst hres) hpage
    · rw [if_neg hpage] at hres
      have haddr : addr = (s.pmm.pmmAllocPages 1).1 + kmallocHeaderSize := congrArg Prod.fst hres
      refine iff_of_false ?_ hpage
      rw [haddr]
      exact succ_ne_zero _

/-- A request that wraps gets a page if there is one, and the page ends long before the request. -/
theorem Describes.not_fits (h : Describes c used free) (hwrap : ¬ wanted ≤ 2 ^ 64 - 16)
    (hword : wanted < 2 ^ 64) (hfree : c.heap.pmm.mmStats.freeFrames ≠ 0) :
    ∃ fuel addr heap, c.heap.kmalloc fuel wanted = some (addr, heap) ∧ addr ≠ 0 ∧
      ¬ Fits c fuel wanted addr heap := by
  have hsome := h.layout.kmalloc_isSome wanted (lt_succ_self free.length)
  obtain ⟨⟨addr, heap⟩, hk⟩ := Option.isSome_iff_exists.mp hsome
  refine ⟨_, addr, heap, hk, ?_, ?_⟩
  · have hsound := h.layout.runs_ok.sound
    rw [hsound.free_eq, Finset.card_ne_zero] at hfree
    obtain ⟨f, hf⟩ := hfree
    have hrun : c.heap.pmm.FreeRun 1 f := (Pmm.freeRun_iff one_pos).mpr (by simpa using hf)
    rw [ne_eq, kmalloc_of_wrap hwrap hword hk]
    exact (hsound.completeSearch_pmmAllocPages 1).found_iff.mpr ⟨le_rfl, f, hrun⟩
  · intro hfits
    obtain ⟨used', free', h'⟩ := h.kmalloc_granted hword hk
    obtain ⟨r, hr, -, hend⟩ := hfits.inside
    have hbound := (h'.layout.runs_ok.bounded r hr).2
    have hlimit := h'.layout.runs_ok.sound.limit_lt
    dsimp only at hbound hend hlimit
    omega

/-- In every heap that allocations of any size lead to, a request is answered with a block that
holds it exactly if it does not wrap with the header or no frame is free. -/
theorem kmalloc_fits_iff {p : Pmm} (hp : Pmm.Sound p) (mem : ℕ → BitVec 8)
    (hreach : Relation.ReflTransGen Use (Client.atStart mem p) c) (hword : wanted < 2 ^ 64) :
    (∀ fuel addr heap, c.heap.kmalloc fuel wanted = some (addr, heap) → addr ≠ 0 →
      Fits c fuel wanted addr heap) ↔
      wanted ≤ 2 ^ 64 - 16 ∨ c.heap.pmm.mmStats.freeFrames = 0 := by
  obtain ⟨used, free, h⟩ := describes_of_uses hp hreach
  constructor
  · intro hall
    by_contra hnot
    push Not at hnot
    obtain ⟨fuel, addr, heap, hk, hne, hbad⟩ := h.not_fits (not_le.mpr hnot.1) hword hnot.2
    exact hbad (hall fuel addr heap hk hne)
  · rintro (hwanted | hnone) fuel addr heap hk hne
    · exact h.fits hwanted hk hne
    · by_cases hwanted : wanted ≤ 2 ^ 64 - 16
      · exact h.fits hwanted hk hne
      · have hpage : (c.heap.pmm.pmmAllocPages 1).1 = 0 := by
          simp [Pmm.pmmAllocPages, hnone]
        exact absurd ((kmalloc_of_wrap hwanted hword hk).mpr hpage) hne

theorem kmalloc_fits_twoFrames :
    ∃ heap, twoFramesHeap.kmalloc 1 100 = some (385 * 4096 + 16, heap) ∧
      Fits (Client.atStart (fun _ => 0) twoFrames) 1 100 (385 * 4096 + 16) heap := by
  have hptr : (twoFramesHeap.allocated 100).1 = 385 * 4096 + 16 := by decide +kernel
  have hk : twoFramesHeap.kmalloc 1 100 =
      some (385 * 4096 + 16, (twoFramesHeap.allocated 100).2) := by
    rw [kmalloc_eq_allocated (by decide +kernel), ← hptr]
  have hfits := (kmalloc_fits_iff sound_twoFrames (fun _ => 0) .refl (by decide : 100 < 2 ^ 64)).mpr
    (.inl (by decide))
  exact ⟨_, hk, hfits 1 _ _ hk (by decide)⟩

/-- A request of `2 ^ 64 - 15` bytes is answered with frame 385. -/
theorem wrapped_request_exceeds_page :
    ∃ heap, twoFramesHeap.kmalloc 1 (2 ^ 64 - 15) = some (385 * 4096 + 16, heap) ∧
      obtained 1 (2 ^ 64 - 15) twoFramesHeap = some ⟨385, 1⟩ ∧
      ¬ Fits (Client.atStart (fun _ => 0) twoFrames) 1 (2 ^ 64 - 15) (385 * 4096 + 16) heap := by
  have hptr : (twoFramesHeap.allocated (2 ^ 64 - 15)).1 = 385 * 4096 + 16 := by decide +kernel
  have hk : twoFramesHeap.kmalloc 1 (2 ^ 64 - 15) =
      some (385 * 4096 + 16, (twoFramesHeap.allocated (2 ^ 64 - 15)).2) := by
    rw [kmalloc_eq_allocated (by decide +kernel), ← hptr]
  have hrun : obtained 1 (2 ^ 64 - 15) twoFramesHeap = some ⟨385, 1⟩ := by decide +kernel
  refine ⟨_, hk, hrun, fun hfits => ?_⟩
  have hend := (hfits.inside_of_obtained hrun).2
  simp at hend

/-! ## A block that is freed and wanted again -/

theorem setNext_setNext (h v w : ℕ) (s : Kheap) : (s.setNext h v).setNext h w = s.setNext h w := by
  simp only [setNext]
  congr 1
  funext x
  simp only [storeWord]
  split <;> rfl

/-- In every reachable heap, a block that is freed is the one that the next request it can hold
gets, and then the heap is as it was before, up to the link in the header of the block. -/
theorem kmalloc_kfree {p : Pmm} (hp : Pmm.Sound p) (mem : ℕ → BitVec 8)
    (hreach : Relation.ReflTransGen Use (Client.atStart mem p) c) {addr n : ℕ}
    (hlive : (addr, n) ∈ c.live) {wanted : ℕ} (hpos : 0 < wanted)
    (hroom : wanted ≤ c.heap.size (addr - 16)) (fuel : ℕ) :
    (c.heap.kfree addr).kmalloc (fuel + 1) wanted = some (addr, c.heap.setNext (addr - 16) 0) := by
  obtain ⟨used, free, h⟩ := describes_of_uses hp hreach
  rw [h.live] at hlive
  obtain ⟨⟨b, w⟩, hu, hptr⟩ := mem_map.mp hlive
  cases hptr
  have hmem : b ∈ used.map Prod.fst ++ free := mem_append_left _ (mem_map.mpr ⟨_, hu, rfl⟩)
  have hmagic := h.layout.blocks.magic b hmem
  have hne : b.hdr ≠ 0 := (h.layout.blocks.hdr_bounds h.layout.runs_ok hmem).1.ne'
  have hlist := h.layout.freeList_lt
  rw [Nat.add_sub_cancel] at hroom ⊢
  obtain ⟨t, ht⟩ : ∃ t : Kheap, t = c.heap.kfree (b.hdr + 16) := ⟨_, rfl⟩
  have hfree : t = { c.heap.setNext b.hdr c.heap.freeList with freeList := b.hdr } := by
    simp [ht, kfree, kmallocHeaderSize, hmagic]
  have hsize : t.size b.hdr = c.heap.size b.hdr := by
    rw [hfree]
    exact size_setNext _ _ _
  have hnext : t.next b.hdr = c.heap.freeList := by
    rw [hfree]
    refine (next_setNext _ _ _).trans (mod_eq_of_lt ?_)
    simpa using hlist
  have hhead : t.freeList = b.hdr := by rw [hfree]
  have hscan : t.scan wanted (fuel + 1) none t.freeList = some (some (none, b.hdr)) := by
    rw [hhead, scan, if_neg hne, hsize, if_pos hroom]
  rw [← ht, kmalloc, if_neg hpos.ne', hscan]
  dsimp only
  rw [setLink_none, hnext, hfree]
  exact congrArg _ (congrArg _ (setNext_setNext _ _ _ _))

theorem kmalloc_kfree_twoFrames :
    ∃ heap, twoFramesHeap.kmalloc 1 100 = some (385 * 4096 + 16, heap) ∧
      (heap.kfree (385 * 4096 + 16)).kmalloc 1 50 =
        some (385 * 4096 + 16, heap.setNext (385 * 4096) 0) := by
  obtain ⟨s, hs⟩ : ∃ s, s = (twoFramesHeap.allocated 100).2 := ⟨_, rfl⟩
  have hk : twoFramesHeap.kmalloc 1 100 = some (385 * 4096 + 16, s) := by
    have hptr : (twoFramesHeap.allocated 100).1 = 385 * 4096 + 16 := by decide +kernel
    rw [kmalloc_eq_allocated (by decide +kernel), hs, ← hptr]
  have huse := Use.kmalloc (Client.atStart (fun _ => 0) twoFrames) 1 100 _ _ (by decide) hk
  have hround := fun hsize => kmalloc_kfree sound_twoFrames (fun _ => 0) (.single huse)
    (by rw [if_neg (by decide)]; exact mem_cons_self) (show 0 < 50 by decide) hsize 0
  rw [Nat.add_sub_cancel] at hround
  exact ⟨s, hk, hround (by rw [hs]; decide +kernel)⟩

end NeverMind.Kheap
