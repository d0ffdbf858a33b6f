import NeverMind.Verification.Kheap.Headers
import NeverMind.Verification.Pmm.Accounting

/-! # Blocks

The invariant of the heap: disjoint blocks inside runs of frames, each live or on the free
list. -/

namespace NeverMind.Kheap

open List

/-- A header and the `room` bytes after it. -/
structure Block where
  hdr : ℕ
  room : ℕ
  deriving Repr, DecidableEq

/-- Consecutive frames that the heap obtained from the allocator of frames. -/
structure Run where
  first : ℕ
  pages : ℕ
  deriving Repr, DecidableEq

def Block.Apart (b c : Block) : Prop := b.hdr + 16 + b.room ≤ c.hdr ∨ c.hdr + 16 + c.room ≤ b.hdr

def Run.Apart (r q : Run) : Prop := r.first + r.pages ≤ q.first ∨ q.first + q.pages ≤ r.first

def Block.Inside (b : Block) (r : Run) : Prop :=
  r.first * 4096 ≤ b.hdr ∧ b.hdr + 16 + b.room ≤ (r.first + r.pages) * 4096

theorem Block.Apart.symm {b c : Block} (h : b.Apart c) : c.Apart b := Or.symm h

instance : Std.Symm Block.Apart := ⟨fun _ _ => Block.Apart.symm⟩

theorem Block.Apart.separate {b c : Block} (h : b.Apart c) : Separate b.hdr c.hdr := by
  unfold Block.Apart at h
  unfold Separate
  omega

theorem Block.Inside.apart {b c : Block} {r q : Run} (hb : b.Inside r) (hc : c.Inside q)
    (hrq : r.Apart q) : b.Apart c := by
  unfold Run.Apart at hrq
  unfold Block.Inside at hb hc
  unfold Block.Apart
  omega

/-- Intact headers of disjoint blocks in runs of frames. -/
structure Blocks (s : Kheap) (runs : List Run) (bs : List Block) : Prop where
  magic : ∀ b ∈ bs, s.magic b.hdr = kmallocMagic
  size_le : ∀ b ∈ bs, s.size b.hdr ≤ b.room
  apart : bs.Pairwise Block.Apart
  inside : ∀ b ∈ bs, ∃ r ∈ runs, b.Inside r

/-- The frames of the runs, against the allocator of frames. -/
structure Runs (s : Kheap) (runs : List Run) : Prop where
  sound : Pmm.Sound s.pmm
  pos : ∀ r ∈ runs, 0 < r.pages
  bounded : ∀ r ∈ runs, 0 < r.first ∧ r.first + r.pages ≤ s.pmm.frameLimit
  taken : ∀ r ∈ runs, Disjoint (Finset.Ico r.first (r.first + r.pages)) s.pmm.free
  apart : runs.Pairwise Run.Apart

/-- The blocks in use, each with the size that was requested for it, and the free blocks in the
order of the list. -/
structure Layout (s : Kheap) (runs : List Run) (used : List (Block × ℕ)) (free : List Block) :
    Prop where
  blocks : Blocks s runs (used.map Prod.fst ++ free)
  runs_ok : Runs s runs
  chain : Chain s.link (ptr s.freeList) (free.map Block.hdr)
  requested : ∀ u ∈ used, u.2 ≤ u.1.room

variable {s s' : Kheap} {runs : List Run} {bs bs' : List Block} {used : List (Block × ℕ)}
  {free : List Block}

theorem Blocks.perm (h : Blocks s runs bs) (hperm : bs.Perm bs') : Blocks s runs bs' where
  magic := fun b hb => h.magic b (hperm.mem_iff.mpr hb)
  size_le := fun b hb => h.size_le b (hperm.mem_iff.mpr hb)
  apart := (hperm.pairwise_iff Block.Apart.symm).mp h.apart
  inside := fun b hb => h.inside b (hperm.mem_iff.mpr hb)

theorem Blocks.keep (h : Blocks s runs bs) (hmagic : ∀ b ∈ bs, s'.magic b.hdr = s.magic b.hdr)
    (hsize : ∀ b ∈ bs, s'.size b.hdr = s.size b.hdr) : Blocks s' runs bs where
  magic := fun b hb => (hmagic b hb).trans (h.magic b hb)
  size_le := fun b hb => (hsize b hb).trans_le (h.size_le b hb)
  apart := h.apart
  inside := h.inside

theorem Blocks.of_mem_eq (h : Blocks s runs bs) (hmem : s'.mem = s.mem) : Blocks s' runs bs :=
  h.keep (fun b _ => (SameHeader.of_mem_eq hmem b.hdr).magic) fun b _ =>
    (SameHeader.of_mem_eq hmem b.hdr).size

theorem Blocks.separate_or_eq (h : Blocks s runs bs) {b c : Block} (hb : b ∈ bs) (hc : c ∈ bs) :
    b = c ∨ Separate b.hdr c.hdr := by
  by_cases hbc : b = c
  · exact .inl hbc
  · exact .inr (h.apart.forall hb hc hbc).separate

theorem Blocks.setNext (h : Blocks s runs bs) {b : Block} (hb : b ∈ bs) (v : ℕ) :
    Blocks (s.setNext b.hdr v) runs bs := by
  apply h.keep
  · intro c hc
    rcases h.separate_or_eq hb hc with rfl | hsep
    · exact magic_setNext _ _ _
    · exact (SameHeader.setNext hsep v s).magic
  · intro c hc
    rcases h.separate_or_eq hb hc with rfl | hsep
    · exact size_setNext _ _ _
    · exact (SameHeader.setNext hsep v s).size

theorem Blocks.nodup (h : Blocks s runs bs) : (bs.map Block.hdr).Nodup := by
  rw [Nodup, pairwise_map]
  apply h.apart.imp
  intro b c hbc heq
  unfold Block.Apart at hbc
  omega

theorem Blocks.hdr_bounds (h : Blocks s runs bs) (hruns : Runs s runs) {b : Block} (hb : b ∈ bs) :
    0 < b.hdr ∧ b.hdr < 2 ^ 64 := by
  obtain ⟨r, hr, hinside⟩ := h.inside b hb
  have hbounded := hruns.bounded r hr
  have hlimit := hruns.sound.limit_lt
  unfold Block.Inside at hinside
  omega

theorem link_setNext_of_ne (h : Blocks s runs bs) {b c : Block} (hb : b ∈ bs) (hc : c ∈ bs)
    (hne : b.hdr ≠ c.hdr) (v : ℕ) : (s.setNext b.hdr v).link c.hdr = s.link c.hdr := by
  rcases h.separate_or_eq hb hc with rfl | hsep
  · exact absurd rfl hne
  · exact (SameHeader.setNext hsep v s).link

theorem Runs.of_pmm_eq (h : Runs s runs) (hpmm : s'.pmm = s.pmm) : Runs s' runs :=
  ⟨hpmm ▸ h.sound, h.pos, hpmm ▸ h.bounded, hpmm ▸ h.taken, h.apart⟩

theorem Layout.freeList_lt (h : Layout s runs used free) : s.freeList < 2 ^ 64 := by
  have hchain := h.chain
  cases free with
  | nil =>
    have hzero := ptr_eq_none (Chain.nil_iff.mp hchain)
    omega
  | cons b free =>
    obtain ⟨heq, -⟩ := ptr_eq_some (Chain.cons_iff.mp hchain).1
    rw [heq]
    exact (h.blocks.hdr_bounds h.runs_ok (by simp)).2

theorem Layout.chain_of_sameHeader (h : Layout s runs used free)
    (hsame : ∀ c ∈ used.map Prod.fst ++ free, SameHeader s s' c.hdr) :
    Chain s'.link (ptr s.freeList) (free.map Block.hdr) := by
  apply h.chain.congr
  intro a ha
  obtain ⟨c, hc, rfl⟩ := mem_map.mp ha
  exact (hsame c (mem_append_right _ hc)).link

/-! ## Reuse of a free block -/

theorem perm_take (used front back : List Block) (b : Block) :
    (used ++ (front ++ b :: back)).Perm (b :: used ++ (front ++ back)) := by
  rw [← append_assoc, cons_append, ← append_assoc]
  exact perm_middle

theorem Layout.reuse_head {b : Block} {back : List Block} {wanted : ℕ}
    (h : Layout s runs used (b :: back)) (hsize : wanted ≤ s.size b.hdr) :
    Layout ((s.setLink none (s.next b.hdr)).setNext b.hdr 0) runs ((b, wanted) :: used) back := by
  have hperm := perm_take (used.map Prod.fst) [] back b
  have hbs : Blocks s runs (b :: (used.map Prod.fst ++ back)) := h.blocks.perm hperm
  have hnodup := hbs.nodup
  rw [setLink_none]
  obtain ⟨t, ht⟩ : ∃ t : Kheap, t = { s with freeList := s.next b.hdr } := ⟨_, rfl⟩
  have hmem : t.mem = s.mem := by rw [ht]
  have hlist : t.freeList = s.next b.hdr := by rw [ht]
  have hpmm : t.pmm = s.pmm := by rw [ht]
  rw [← ht]
  have hbt := hbs.of_mem_eq hmem
  refine ⟨hbt.setNext (by simp) 0, h.runs_ok.of_pmm_eq hpmm, ?_, ?_⟩
  · have hstart : ptr (t.setNext b.hdr 0).freeList = s.link b.hdr := congrArg ptr hlist
    rw [hstart]
    apply h.chain.unlink_head.congr
    intro a ha
    obtain ⟨c, hc, rfl⟩ := mem_map.mp ha
    have hne : b.hdr ≠ c.hdr := by
      intro heq
      rw [map_cons, nodup_cons] at hnodup
      exact hnodup.1 (mem_map.mpr ⟨c, by simp [hc], heq.symm⟩)
    rw [link_setNext_of_ne hbt (by simp) (by simp [hc]) hne]
    exact (SameHeader.of_mem_eq hmem c.hdr).link
  · exact forall_mem_cons.mpr ⟨hsize.trans (hbs.size_le b (by simp)), h.requested⟩

theorem Layout.reuse_after {a b : Block} {front back : List Block} {wanted : ℕ}
    (h : Layout s runs used (front ++ a :: b :: back)) (hsize : wanted ≤ s.size b.hdr) :
    Layout ((s.setLink (some a.hdr) (s.next b.hdr)).setNext b.hdr 0) runs ((b, wanted) :: used)
      (front ++ a :: back) := by
  have hsplit : front ++ a :: b :: back = (front ++ [a]) ++ b :: back := by simp
  have hjoin : (front ++ [a]) ++ back = front ++ a :: back := by simp
  have hperm := perm_take (used.map Prod.fst) (front ++ [a]) back b
  rw [← hsplit, hjoin] at hperm
  have hbs : Blocks s runs (b :: (used.map Prod.fst ++ (front ++ a :: back))) := h.blocks.perm hperm
  have hbs' := hbs.setNext (b := a) (by simp) (s.next b.hdr)
  have hnodup := hbs.nodup
  rw [map_cons, nodup_cons] at hnodup
  -- no other block has the header of `b`
  have hneb : ∀ c ∈ front ++ a :: back, b.hdr ≠ c.hdr := by
    intro c hc heq
    exact hnodup.1 (mem_map.mpr ⟨c, mem_append_right _ hc, heq.symm⟩)
  have hnea : ∀ c ∈ front ++ back, a.hdr ≠ c.hdr := by
    intro c hc heq
    have hfree : ((front ++ a :: back).map Block.hdr).Nodup := by
      have hsub : (front ++ a :: back).Sublist (used.map Prod.fst ++ (front ++ a :: back)) :=
        sublist_append_right _ _
      exact (hsub.map Block.hdr).nodup hnodup.2
    rw [map_append, map_cons, nodup_middle, nodup_cons, ← map_append]
      at hfree
    exact hfree.1 (mem_map.mpr ⟨c, hc, heq.symm⟩)
  rw [setLink_some]
  refine ⟨hbs'.setNext (by simp) 0, h.runs_ok.of_pmm_eq rfl, ?_, ?_⟩
  · have hchain := h.chain
    rw [map_append, map_cons, map_cons] at hchain
    rw [map_append, map_cons]
    apply hchain.unlink_after
    · rw [link_setNext_of_ne hbs' (by simp) (by simp) (hneb a (by simp))]
      exact link_setNext a.hdr (next_lt s b.hdr) s
    · intro x hx
      rw [← map_append] at hx
      obtain ⟨c, hc, rfl⟩ := mem_map.mp hx
      have hmem : c ∈ front ++ a :: back := by
        rcases mem_append.mp hc with hc | hc <;> simp [hc]
      have hmem' : c ∈ b :: (used.map Prod.fst ++ (front ++ a :: back)) :=
        mem_cons_of_mem b (mem_append_right _ hmem)
      rw [link_setNext_of_ne hbs' (by simp) hmem' (hneb c hmem)]
      exact link_setNext_of_ne hbs (by simp) hmem' (hnea c hc) _
  · exact forall_mem_cons.mpr ⟨hsize.trans (hbs.size_le b (by simp)), h.requested⟩

/-! ## Release -/

theorem Layout.release {b : Block} {wanted : ℕ} {front back : List (Block × ℕ)}
    (h : Layout s runs (front ++ (b, wanted) :: back) free) :
    Layout (s.kfree (b.hdr + 16)) runs (front ++ back) (b :: free) := by
  have hmem : b ∈ (front ++ (b, wanted) :: back).map Prod.fst ++ free := by simp
  have hmagic : s.magic b.hdr = kmallocMagic := h.blocks.magic b hmem
  have hfree : s.kfree (b.hdr + 16) = { s.setNext b.hdr s.freeList with freeList := b.hdr } := by
    simp [kfree, kmallocHeaderSize, hmagic]
  have hperm : ((front ++ (b, wanted) :: back).map Prod.fst ++ free).Perm
      ((front ++ back).map Prod.fst ++ b :: free) := by
    rw [map_append, map_cons, map_append, append_assoc, append_assoc]
    exact Perm.append_left _ perm_middle.symm
  have hbs := (h.blocks.setNext hmem s.freeList).perm hperm
  have hbounds := h.blocks.hdr_bounds h.runs_ok hmem
  have hnodup := hbs.nodup
  rw [map_append, nodup_append, map_cons, nodup_cons] at hnodup
  obtain ⟨t, ht⟩ : ∃ t : Kheap, t = { s.setNext b.hdr s.freeList with freeList := b.hdr } :=
    ⟨_, rfl⟩
  have hmemory : t.mem = (s.setNext b.hdr s.freeList).mem := by rw [ht]
  have hlist : t.freeList = b.hdr := by rw [ht]
  have hpmm : t.pmm = s.pmm := by rw [ht]; rfl
  rw [hfree, ← ht]
  refine ⟨hbs.of_mem_eq hmemory, h.runs_ok.of_pmm_eq hpmm, ?_, ?_⟩
  · rw [hlist]
    refine Chain.cons_iff.mpr ⟨ptr_of_ne hbounds.1.ne', ?_⟩
    rw [(SameHeader.of_mem_eq hmemory b.hdr).link, link_setNext b.hdr h.freeList_lt s]
    apply h.chain.congr
    intro a ha
    obtain ⟨c, hc, rfl⟩ := mem_map.mp ha
    rw [(SameHeader.of_mem_eq hmemory c.hdr).link]
    apply link_setNext_of_ne h.blocks hmem (by simp [hc])
    intro heq
    exact hnodup.2.1.1 (heq ▸ ha)
  · intro u hu
    apply h.requested u
    rcases mem_append.mp hu with hu | hu <;> simp [hu]

/-! ## Writes of the clients -/

theorem Blocks.outside (h : Blocks s runs bs) {b c : Block} (hb : b ∈ bs) (hc : c ∈ bs) {a : ℕ}
    (hlow : b.hdr + 16 ≤ a) (hhigh : a < b.hdr + 16 + b.room) : a < c.hdr ∨ c.hdr + 16 ≤ a := by
  by_cases hbc : b = c
  · subst hbc
    exact .inr hlow
  · have hapart := h.apart.forall hb hc hbc
    unfold Block.Apart at hapart
    omega

theorem Layout.write (h : Layout s runs used free) {u : Block × ℕ} (hu : u ∈ used) {a : ℕ}
    (hlow : u.1.hdr + 16 ≤ a) (hhigh : a < u.1.hdr + 16 + u.2) (byte : BitVec 8) :
    Layout { s with mem := Function.update s.mem a byte } runs used free := by
  have hmem : u.1 ∈ used.map Prod.fst ++ free := by
    exact mem_append_left _ (mem_map_of_mem hu)
  have hroom := h.requested u hu
  have hsame : ∀ c ∈ used.map Prod.fst ++ free,
      SameHeader s { s with mem := Function.update s.mem a byte } c.hdr := by
    intro c hc
    apply SameHeader.of_mem
    intro x hxlow hxhigh
    have hout := h.blocks.outside hmem hc hlow (by omega)
    exact Function.update_of_ne (by omega) _ _
  refine ⟨?_, h.runs_ok.of_pmm_eq rfl, ?_, h.requested⟩
  · exact h.blocks.keep (fun c hc => (hsame c hc).magic) fun c hc => (hsame c hc).size
  · exact h.chain_of_sameHeader hsame

end NeverMind.Kheap
