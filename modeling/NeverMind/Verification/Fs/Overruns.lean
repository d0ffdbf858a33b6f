import NeverMind.Verification.Fs.Agreement
import NeverMind.Verification.Fs.Buffers
import NeverMind.Verification.Fs.Tree

/-! # Writes inside and outside of buffers

The writes of the two file systems against the buffers of their files, in every history. The memory
file system doubles a capacity until it is enough, which never ends for a sum of the offset and the
length above `2 ^ 63`. -/

namespace NeverMind

open Option Nat

/-! ## The memory file system -/

namespace Tmpfs

variable {t t' : Tmpfs} {i : NodeRef} {alloc : NmAlloc} {need fuel : ℕ} {v : Vnode}

theorem Buffered.capacity_le (h : Buffered v) : v.capacity ≤ 2 ^ 63 := by
  rcases h.capacity with hzero | ⟨e, he, hcap⟩
  · omega
  · have hpow : 2 ^ e ≤ 2 ^ 57 := Nat.pow_le_pow_right (by decide) he
    omega

theorem le_of_growLoop {cap r : ℕ} (h : growLoop need fuel cap = some r) : need ≤ r := by
  induction fuel generalizing cap with
  | zero => cases h
  | succ fuel ih =>
    rw [growLoop] at h
    split at h
    · exact ih h
    · cases h
      omega

/-- Above `2 ^ 63` the doubled capacity wraps to 0 and stays there. -/
theorem growLoop_diverges {cap : ℕ} (hneed : 2 ^ 63 < need)
    (hcap : cap = 0 ∨ ∃ e ≤ 57, cap = 64 * 2 ^ e) (fuel : ℕ) : growLoop need fuel cap = none := by
  induction fuel generalizing cap with
  | zero => rfl
  | succ fuel ih =>
    rw [growLoop]
    rcases hcap with rfl | ⟨e, he, rfl⟩
    · rw [if_pos (by omega)]
      exact ih (.inl rfl)
    · have hpow : 2 ^ e ≤ 2 ^ 57 := Nat.pow_le_pow_right (by decide) he
      rw [if_pos (by omega)]
      apply ih
      rw [mul_assoc, ← pow_succ]
      rcases eq_or_lt_of_le he with rfl | hlt
      · exact .inl (by decide)
      · have hnext : 2 ^ (e + 1) ≤ 2 ^ 57 := Nat.pow_le_pow_right (by decide) hlt
        exact .inr ⟨e + 1, hlt, u64_of_lt (by omega)⟩

/-- The capacity with which the loop of `tmpfs_reserve` starts. -/
def startCapacity (v : Vnode) : ℕ := if v.capacity = 0 then 64 else v.capacity

theorem Buffered.startCapacity (h : Buffered v) :
    startCapacity v = 0 ∨ ∃ e ≤ 57, startCapacity v = 64 * 2 ^ e := by
  unfold Tmpfs.startCapacity
  split
  · exact .inr ⟨0, by decide, rfl⟩
  · exact h.capacity

theorem tmpfsReserve_mono {more : ℕ} {r : ℤ × Tmpfs} (h : t.tmpfsReserve fuel alloc i need = some r)
    (hle : fuel ≤ more) : t.tmpfsReserve more alloc i need = some r := by
  unfold tmpfsReserve at h ⊢
  dsimp only at h ⊢
  split at h
  · rename_i hfits
    rw [if_pos hfits]
    exact h
  · rename_i hlarge
    rw [if_neg hlarge]
    split at h
    · cases h
    · rename_i cap hgrow
      rw [growLoop_mono hgrow hle]
      exact h

theorem tmpfsReserve_diverges (h : Buffered (t.nodes i)) (hneed : 2 ^ 63 < need) (fuel : ℕ) :
    t.tmpfsReserve fuel alloc i need = none := by
  have hlarge : ¬ need ≤ (t.nodes i).capacity := by
    have hcap := h.capacity_le
    omega
  have hloop := growLoop_diverges hneed h.startCapacity fuel
  unfold startCapacity at hloop
  unfold tmpfsReserve
  dsimp only
  rw [if_neg hlarge, hloop]

/-- At every fuel `tmpfs_reserve` has the result of 64 rounds, or none yet. -/
theorem tmpfsReserve_at (h : Buffered (t.nodes i)) (alloc : NmAlloc) (hneed : need ≤ 2 ^ 63) :
    ∃ r, t.tmpfsReserve 64 alloc i need = some r ∧ Reserves alloc i need t r ∧
      ∀ fuel, t.tmpfsReserve fuel alloc i need = none ∨
        t.tmpfsReserve fuel alloc i need = some r := by
  obtain ⟨r, hrun, hreserves⟩ := tmpfsReserve_spec (le_refl 64) alloc need h hneed
  refine ⟨r, hrun, hreserves, ?_⟩
  intro fuel
  cases hfuel : t.tmpfsReserve fuel alloc i need with
  | none => exact .inl rfl
  | some r' =>
    have hmore := tmpfsReserve_mono hfuel (le_max_left fuel 64)
    rw [tmpfsReserve_mono hrun (le_max_right fuel 64)] at hmore
    exact .inr hmore.symm

/-- The allocator does not have the buffer that a file of `need` bytes asks for: `64 * 2 ^ e` bytes
for the least `e` that is enough. -/
def NoMemory (alloc : NmAlloc) (need : ℕ) : Prop :=
  ∃ e, (∀ k, need ≤ 64 * 2 ^ k ↔ e ≤ k) ∧ alloc (64 * 2 ^ e) = none

/-- The write stores nothing: the loop does not end, or the allocator refuses. -/
def Refuses (alloc : NmAlloc) (need : ℕ) (i : NodeRef) (t : Tmpfs) : Prop :=
  2 ^ 63 < need ∨ (t.nodes i).capacity < need ∧ NoMemory alloc need

theorem granted_eq_false_iff (h : Buffered v) (hneed : need ≤ 2 ^ 63) :
    granted alloc need v = false ↔ v.capacity < need ∧ NoMemory alloc need := by
  by_cases hfits : need ≤ v.capacity
  · have hgranted : granted alloc need v = true := by simp [granted, newCapacity, hfits]
    rw [hgranted]
    refine ⟨fun hfalse => absurd hfalse (by decide), fun hlarge => ?_⟩
    omega
  · obtain ⟨e, -, hleast, hcap⟩ := newCapacity_spec h hneed hfits
    have hgranted : granted alloc need v = (alloc (64 * 2 ^ e)).isSome := by
      simp [granted, hcap]
    rw [hgranted]
    constructor
    · intro hnone
      exact ⟨by omega, e, hleast, by simpa using hnone⟩
    · rintro ⟨-, e', hleast', hnone⟩
      have heq : e' = e := le_antisymm
        ((hleast' e).mp ((hleast e).mpr (le_refl e)))
        ((hleast e').mp ((hleast' e').mpr (le_refl e')))
      rw [← heq, hnone]
      rfl

def buffer (i : NodeRef) (t : Tmpfs) : FileBuffer :=
  ⟨(t.nodes i).data, (t.nodes i).size, (t.nodes i).capacity⟩

def tmpfsStores (fuel : ℕ) (alloc : NmAlloc) (i : NodeRef) (offset len : ℕ) (t : Tmpfs) :
    List ℕ :=
  if (t.nodes i).type ≠ .file then []
  else
    match t.tmpfsReserve fuel alloc i (u64 (offset + len)) with
    | none => []
    | some (ret, _) => if ret ≠ 0 then [] else storeIndices offset len

def buffers : BufferedFs Tmpfs NodeRef :=
  ⟨filesystem, fun i t => (t.nodes i).type, buffer, tmpfsStores, Refuses⟩

/-- Every vnode of the table has its buffer. -/
def AllBuffered (t : Tmpfs) : Prop := ∀ i, Buffered (t.nodes i)

theorem tmpfsWrite_eq {src : ℕ → Byte} {offset len : ℕ} (htype : (t.nodes i).type = .file) :
    t.tmpfsWrite fuel alloc i src offset len =
      match t.tmpfsReserve fuel alloc i (u64 (offset + len)) with
      | none => none
      | some (ret, t) =>
        if ret ≠ 0 then some (nmErr nmEfail, t)
        else some (i64 len, t.setNode i { t.nodes i with
          data := (t.nodes i).data.map (storeBytes offset len src)
          size := ((t.buffer i).store src offset len).size }) := by
  unfold tmpfsWrite
  rw [if_neg (not_not_intro htype)]
  rfl

theorem writes_tmpfsWrite (h : Buffered (t.nodes i)) (htype : (t.nodes i).type = .file)
    (fuel : ℕ) (alloc : NmAlloc) (src : ℕ → Byte) (offset len : ℕ) :
    buffers.Writes alloc i src offset len t (t.tmpfsWrite fuel alloc i src offset len)
      (t.tmpfsStores fuel alloc i offset len) := by
  rw [tmpfsWrite_eq htype, tmpfsStores, if_neg (not_not_intro htype)]
  by_cases hneed : u64 (offset + len) ≤ 2 ^ 63
  · obtain ⟨r, -, hreserves, hat⟩ := tmpfsReserve_at h alloc hneed
    rcases hat fuel with hnone | hsome
    · rw [hnone]
      exact .running
    · rw [hsome]
      cases hreserves with
      | refused hnot => exact .refused (.inr ((granted_eq_false_iff h hneed).mp hnot))
      | reserved hgranted data capacity hle hbuffered hbytes =>
        refine .stored (b := ⟨data, (t.nodes i).size, capacity⟩) ?_ ?_ ?_
        · rintro (hlarge | hrefused)
          · omega
          · rw [(granted_eq_false_iff h hneed).mpr hrefused] at hgranted
            cases hgranted
        · refine ⟨rfl, ?_, hbuffered.fits, hle, hbuffered.capacity_le, hbuffered.present⟩
          intro k hk
          exact List.map_inj_left.mp hbytes k (List.mem_range.mpr hk)
        · simp [buffers, buffer, FileBuffer.store]
  · rw [tmpfsReserve_diverges h (by omega)]
    exact .running

/-! ### The buffers in every history -/

theorem AllBuffered.setNode (h : AllBuffered t) (i : NodeRef) (hv : Buffered v) :
    AllBuffered (t.setNode i v) := by
  intro j
  rw [nodes_setNode]
  by_cases hj : j = i
  · subst hj
    rwa [Function.update_self]
  · rw [Function.update_of_ne hj]
    exact h j

theorem buffered_empty (hsize : v.size = 0) (hcapacity : v.capacity = 0) : Buffered v where
  fits := by omega
  capacity := .inl hcapacity
  present := fun hne => absurd hcapacity hne

theorem AllBuffered.allocNode (h : AllBuffered t) : AllBuffered t.allocNode.2 := by
  obtain ⟨halloc, -⟩ | ⟨i, -, halloc⟩ := allocNode_cases t
  · rw [halloc]
    exact h
  · rw [halloc]
    exact h.setNode i (buffered_empty rfl rfl)

theorem AllBuffered.mountRoot (h : AllBuffered t) : AllBuffered t.tmpfsMountRoot.2 := by
  have hfreed : AllBuffered { t with
      nodes := fun i => { t.nodes i with used := false }, nextIno := 2 } :=
    fun i => ⟨(h i).fits, (h i).capacity, (h i).present⟩
  have hroot := hfreed.allocNode
  unfold tmpfsMountRoot
  dsimp only
  split
  · rename_i t₁ halloc
    rw [halloc] at hroot
    exact hroot
  · rename_i root t₁ halloc
    rw [halloc] at hroot
    exact hroot.setNode root ⟨(hroot root).fits, (hroot root).capacity, (hroot root).present⟩

theorem AllBuffered.create (h : AllBuffered t) {dir : NodeRef} {name : List Byte}
    {type : NodeType} {mode : ℕ} {made : Option NodeRef}
    (hcall : t.tmpfsCreate fuel dir name type mode = some (made, t')) : AllBuffered t' := by
  obtain ⟨-, rfl⟩ | ⟨i, -, -, hnodes⟩ := tmpfsCreate_nodes hcall
  · exact h
  · intro k
    obtain ⟨first, hk⟩ := hnodes k
    rw [hk]
    split
    · exact buffered_empty rfl rfl
    · exact ⟨(h k).fits, (h k).capacity, (h k).present⟩

theorem Buffered.store (h : Buffered v) {offset len : ℕ} (src : ℕ → Byte)
    (hneed : u64 (offset + len) ≤ v.capacity) :
    Buffered { v with
      data := v.data.map (storeBytes offset len src)
      size := if u64 (offset + len) > v.size then u64 (offset + len) else v.size } where
  fits := by
    have hfits := h.fits
    dsimp only
    split <;> omega
  capacity := h.capacity
  present := fun hne => by
    rw [isSome_map]
    exact h.present hne

theorem AllBuffered.write (h : AllBuffered t) {src : ℕ → Byte} {offset len : ℕ} {ret : ℤ}
    (hcall : t.tmpfsWrite fuel alloc i src offset len = some (ret, t')) : AllBuffered t' := by
  by_cases htype : (t.nodes i).type = .file
  · rw [tmpfsWrite_eq htype] at hcall
    by_cases hneed : u64 (offset + len) ≤ 2 ^ 63
    · obtain ⟨r, -, hreserves, hat⟩ := tmpfsReserve_at (h i) alloc hneed
      rcases hat fuel with hnone | hsome
      · rw [hnone] at hcall
        cases hcall
      · rw [hsome] at hcall
        cases hreserves with
        | refused hnot =>
          obtain ⟨-, rfl⟩ := Prod.mk.inj (some.inj hcall)
          exact h
        | reserved hgranted data capacity hle hbuffered hbytes =>
          obtain ⟨-, rfl⟩ := Prod.mk.inj (some.inj hcall)
          have hreserved := h.setNode i hbuffered
          refine hreserved.setNode i ((hreserved i).store src ?_)
          simpa using hle
    · rw [tmpfsReserve_diverges (h i) (by omega)] at hcall
      cases hcall
  · unfold tmpfsWrite at hcall
    rw [if_pos htype] at hcall
    cases hcall
    exact h

/-- A write returns exactly if the end of the file, in 64 bits, is at most `2 ^ 63`. -/
theorem tmpfsWrite_returns_iff (h : Buffered (t.nodes i)) (htype : (t.nodes i).type = .file)
    (alloc : NmAlloc) (src : ℕ → Byte) (offset len : ℕ) :
    (∃ fuel, (t.tmpfsWrite fuel alloc i src offset len).isSome) ↔ u64 (offset + len) ≤ 2 ^ 63 := by
  constructor
  · rintro ⟨fuel, hsome⟩
    by_contra hlarge
    rw [tmpfsWrite_eq htype, tmpfsReserve_diverges h (by omega)] at hsome
    cases hsome
  · intro hneed
    obtain ⟨⟨ret, t'⟩, hrun, -, -⟩ := tmpfsReserve_at h alloc hneed
    refine ⟨64, ?_⟩
    rw [tmpfsWrite_eq htype, hrun]
    dsimp only
    split <;> rfl

theorem buffers_lawful : buffers.Lawful AllBuffered where
  fits := fun i h => (h i).fits
  writes := fun h htype => writes_tmpfsWrite (h _) htype
  returns := by
    intro t i h htype alloc src offset len hgranted
    refine (tmpfsWrite_returns_iff (h i) htype alloc src offset len).mpr ?_
    by_contra hlarge
    exact hgranted (.inl (by omega))

end Tmpfs

/-! ## The second file system -/

namespace Ext2

variable {e e' : Ext2} {r : Ext2Ref} {fuel : ℕ}

def buffer (r : Ext2Ref) (e : Ext2) : FileBuffer :=
  ⟨(e.vnode r).data, (e.vnode r).size, (e.vnode r).capacity⟩

def ext2Stores (r : Ext2Ref) (offset len : ℕ) (e : Ext2) : List ℕ :=
  match (e.vnode r).data with
  | none => []
  | some _ => if u64 (offset + len) > (e.vnode r).capacity then [] else storeIndices offset len

/-- The write stores nothing: the file has no buffer, or it is too small. -/
def Refuses (need : ℕ) (r : Ext2Ref) (e : Ext2) : Prop :=
  (e.vnode r).data = none ∨ (e.vnode r).capacity < need

def buffers (malloc : ℕ → NmAlloc) : BufferedFs Ext2 Ext2Ref where
  fs := filesystem malloc
  type := fun r e => (e.vnode r).type
  buffer := buffer
  stores := fun _ _ r offset len e => e.ext2Stores r offset len
  Refuses := fun _ need r e => Refuses need r e

/-- The size and the capacity of a vnode are within one block of 4096 bytes. -/
structure WithinBlock (v : Ext2Vnode) : Prop where
  fits : v.size ≤ v.capacity
  bounded : v.capacity ≤ 4096

def AllWithinBlock (e : Ext2) : Prop := ∀ r, WithinBlock (e.vnode r)

theorem AllWithinBlock.setVnode (h : AllWithinBlock e) (d : Ext2Ref) {v : Ext2Vnode}
    (hv : WithinBlock v) : AllWithinBlock (e.setVnode d v) := by
  intro r
  rw [vnode_setVnode]
  split
  · exact hv
  · exact h r

theorem AllWithinBlock.mountRoot (h : AllWithinBlock e) : AllWithinBlock e.ext2MountRoot.2 := by
  intro r
  cases r with
  | root => exact ⟨le_refl 0, zero_le _⟩
  | node i => exact h (.node i)

theorem AllWithinBlock.link (h : AllWithinBlock e) (dir : Ext2Ref) (first : Option Ext2Ref) :
    AllWithinBlock (e.setVnode dir { e.vnode dir with children := first }) :=
  h.setVnode dir ⟨(h dir).fits, (h dir).bounded⟩

theorem AllWithinBlock.create (h : AllWithinBlock e) {malloc : ℕ → NmAlloc} {dir : Ext2Ref}
    {name : List Byte} {type : NodeType} {mode : ℕ} {made : Option Ext2Ref}
    (hcall : e.ext2Create malloc fuel dir name type mode = some (made, e')) :
    AllWithinBlock e' := by
  unfold ext2Create at hcall
  split at hcall
  · cases hcall
    exact h
  · split at hcall
    · split at hcall
      · cases hcall
      · cases hcall
        exact h
      · rename_i hcursor _ _
        obtain ⟨-, rfl⟩ := Prod.mk.inj (some.inj hcall)
        have hnext : AllWithinBlock { e with ext2NodeCursor := u32 (e.ext2NodeCursor + 1) } := h
        have hnew := hnext.setVnode (.node ⟨e.ext2NodeCursor, hcursor⟩)
          (v := e.newVnode malloc ⟨e.ext2NodeCursor, hcursor⟩ dir name type mode)
          ⟨zero_le _, le_refl 4096⟩
        apply AllWithinBlock.link
        split <;> exact hnew
    · cases hcall
      exact h

/-- What `ext2_write` can do: it refuses, or it stores and leaves the other vnodes. -/
theorem ext2Write_cases (r : Ext2Ref) (src : ℕ → Byte) (offset len : ℕ) (e : Ext2) :
    (Refuses (u64 (offset + len)) r e ∧ e.ext2Write r src offset len = (nmErr nmEfail, e) ∧
      e.ext2Stores r offset len = []) ∨
    (¬ Refuses (u64 (offset + len)) r e ∧ ∃ e', e.ext2Write r src offset len = (i64 len, e') ∧
      e.ext2Stores r offset len = storeIndices offset len ∧
      ∀ q, e'.vnode q = if q = r then { e.vnode r with
        data := (e.vnode r).data.map (Tmpfs.storeBytes offset len src)
        size := ((e.buffer r).store src offset len).size } else e.vnode q) := by
  unfold ext2Write ext2Stores Refuses
  dsimp only
  cases hdata : (e.vnode r).data with
  | none => exact .inl ⟨.inl rfl, rfl, rfl⟩
  | some data =>
    dsimp only
    by_cases hlarge : u64 (offset + len) > (e.vnode r).capacity
    · rw [if_pos hlarge, if_pos hlarge]
      exact .inl ⟨.inr hlarge, rfl, rfl⟩
    · rw [if_neg hlarge, if_neg hlarge]
      refine .inr ⟨?_, _, rfl, rfl, ?_⟩
      · rintro (hnone | hsmall)
        · cases hnone
        · exact hlarge hsmall
      · intro q
        split <;> exact vnode_setVnode q r _ e

theorem WithinBlock.store {v : Ext2Vnode} (h : WithinBlock v) {offset len : ℕ}
    (hneed : u64 (offset + len) ≤ v.capacity) (data : Option (ℕ → Byte)) :
    WithinBlock { v with
      data := data
      size := if u64 (offset + len) > v.size then u64 (offset + len) else v.size } where
  fits := by
    have hfits := h.fits
    dsimp only
    split <;> omega
  bounded := h.bounded

theorem AllWithinBlock.write (h : AllWithinBlock e) (r : Ext2Ref) (src : ℕ → Byte)
    (offset len : ℕ) : AllWithinBlock (e.ext2Write r src offset len).2 := by
  rcases ext2Write_cases r src offset len e with
    ⟨-, hwrite, -⟩ | ⟨hgranted, e', hwrite, -, hvnode⟩
  · rw [hwrite]
    exact h
  · rw [hwrite]
    intro q
    rw [hvnode]
    split
    · refine (h r).store ?_ _
      by_contra hlarge
      exact hgranted (.inr (by omega))
    · exact h q

theorem buffers_lawful (malloc : ℕ → NmAlloc) : (buffers malloc).Lawful AllWithinBlock where
  fits := fun r h => (h r).fits
  writes := by
    intro e r h _ fuel alloc src offset len
    dsimp only [buffers, filesystem]
    rcases ext2Write_cases r src offset len e with
      ⟨hrefuses, hwrite, hstores⟩ | ⟨hgranted, e', hwrite, hstores, hvnode⟩
    · rw [hwrite, hstores]
      exact .refused hrefuses
    · rw [hwrite, hstores]
      have hpresent : (e.vnode r).data.isSome := by
        rw [isSome_iff_ne_none]
        exact fun hnone => hgranted (.inl hnone)
      have hneed : u64 (offset + len) ≤ (e.vnode r).capacity := by
        by_contra hlarge
        exact hgranted (.inr (by omega))
      have hbounded : (e.vnode r).capacity ≤ 2 ^ 63 := by
        have hblock := (h r).bounded
        omega
      refine .stored (b := e.buffer r) hgranted ?_ ?_
      · exact ⟨rfl, fun _ _ => rfl, (h r).fits, hneed, hbounded, fun _ => hpresent⟩
      · dsimp only
        rw [buffer, hvnode, if_pos rfl]
        rfl
  returns := by
    intro e r _ _ alloc src offset len _
    exact ⟨0, rfl⟩

end Ext2

/-! ## Writes to descriptors -/

namespace Vfs

theorem tmpfs_allBuffered {s : Vfs Tmpfs NodeRef} (h : Reached Tmpfs.filesystem atBoot s) :
    s.nodes.AllBuffered := by
  refine h.nodes ?_ ?_ ?_ ?_
  · exact fun _ => Tmpfs.buffered_empty rfl rfl
  · exact fun _ ht => ht.mountRoot
  · intro fuel dir leaf made t t' ht hcreate
    dsimp only [Tmpfs.filesystem] at hcreate
    exact ht.create hcreate
  · exact fun ht hwrite => ht.write hwrite

theorem ext2_allWithinBlock {malloc : ℕ → NmAlloc} {s : Vfs Ext2 Ext2Ref}
    (h : Reached (Ext2.filesystem malloc) ext2AtBoot s) : s.nodes.AllWithinBlock := by
  refine h.nodes ?_ ?_ ?_ ?_
  · intro r
    cases r <;> exact ⟨le_refl 0, zero_le 4096⟩
  · exact fun _ ht => ht.mountRoot
  · intro fuel dir leaf made e e' ht hcreate
    dsimp only [Ext2.filesystem] at hcreate
    exact ht.create hcreate
  · intro fuel alloc r src offset len ret e e' ht hwrite
    have hwritten := ht.write r src offset len
    rw [some.inj hwrite] at hwritten
    exact hwritten

theorem atBoot_offsetsFit : atBoot.OffsetsFit := by
  intro i
  simp [atBoot]

theorem ext2AtBoot_offsetsFit : ext2AtBoot.OffsetsFit := by
  intro i
  simp [ext2AtBoot]

section

variable {s : Vfs Tmpfs NodeRef} {fd : ℤ} {i : FileRef} {r : NodeRef}

theorem OpenFile.writesInside_tmpfs (h : OpenFile Tmpfs.buffers atBoot s fd i r) (alloc : NmAlloc)
    (src : ℕ → Byte) {len : ℕ} (hlen : len < 2 ^ 64) :
    WritesInside Tmpfs.buffers alloc fd i r src len s ↔
      Tmpfs.Refuses alloc (u64 ((s.fdTable i).offset + len)) r s.nodes ∨
        BufferedFs.EndFits (s.fdTable i).offset src len (s.nodes.buffer r) := by
  have hoffset := h.reached.offsetsFit atBoot_offsetsFit i
  rw [writesInside_iff h.opened]
  exact Tmpfs.buffers_lawful.staysInside_iff (tmpfs_allBuffered h.reached) h.regular hoffset hlen

theorem OpenFile.fsWrite_returns (h : OpenFile Tmpfs.buffers atBoot s fd i r) (alloc : NmAlloc)
    (src : ℕ → Byte) (len : ℕ) :
    (∃ fuel, (s.fsWrite Tmpfs.filesystem fuel alloc fd (some src) len).isSome) ↔
      u64 ((s.fdTable i).offset + len) ≤ 2 ^ 63 := by
  have hopened : s.getVnode Tmpfs.filesystem fd = some (i, r) := h.opened
  simp only [fsWrite_eq hopened, isSome_map]
  exact Tmpfs.tmpfsWrite_returns_iff (tmpfs_allBuffered h.reached r) h.regular alloc src
    (s.fdTable i).offset len

end

/-- In every history, a write to an open regular file stays inside the buffer of the file exactly
if it is refused, or if the sum of the offset and the length does not wrap around; and a length
that is returned as a negative number must be that of the bytes that the file has already. -/
theorem writes_stay_inside_iff (alloc : NmAlloc) (fd : ℤ) (i : FileRef) (src : ℕ → Byte) (len : ℕ) :
    (∀ s r, OpenFile Tmpfs.buffers atBoot s fd i r → len < 2 ^ 64 →
      (WritesInside Tmpfs.buffers alloc fd i r src len s ↔
        Tmpfs.Refuses alloc (u64 ((s.fdTable i).offset + len)) r s.nodes ∨
          BufferedFs.EndFits (s.fdTable i).offset src len (s.nodes.buffer r))) ∧
    ∀ malloc s r, OpenFile (Ext2.buffers malloc) ext2AtBoot s fd i r → len < 2 ^ 64 →
      (WritesInside (Ext2.buffers malloc) alloc fd i r src len s ↔
        Ext2.Refuses (u64 ((s.fdTable i).offset + len)) r s.nodes ∨
          BufferedFs.EndFits (s.fdTable i).offset src len (s.nodes.buffer r)) := by
  refine ⟨fun s r hopen hlen => hopen.writesInside_tmpfs alloc src hlen, ?_⟩
  intro malloc s r hopen hlen
  have hoffset := hopen.reached.offsetsFit ext2AtBoot_offsetsFit i
  rw [writesInside_iff hopen.opened]
  exact (Ext2.buffers_lawful malloc).staysInside_iff (ext2_allWithinBlock hopen.reached)
    hopen.regular hoffset hlen

def seekTo (offset : ℤ) : Vfs Tmpfs NodeRef :=
  runCalls (nextOn Tmpfs.filesystem 512)
    [.openFile (some [47, 97]) nmOCreat, .lseek 0 offset nmSeekSet]
    (atBoot.mountedOn Tmpfs.filesystem).2

def AtOffset (i : FileRef) (r : NodeRef) (offset : ℕ) (s : Vfs Tmpfs NodeRef) : Prop :=
  s.getVnode Tmpfs.buffers.fs 0 = some (i, r) ∧ Tmpfs.buffers.type r s.nodes = .file ∧
    (s.fdTable i).offset = offset

instance (i : FileRef) (r : NodeRef) (offset : ℕ) (s : Vfs Tmpfs NodeRef) :
    Decidable (AtOffset i r offset s) :=
  inferInstanceAs (Decidable (_ ∧ _ ∧ _))

theorem reached_mounted {T R : Type*} (fs : Filesystem T R) (boot : Vfs T R) :
    Reached fs boot (boot.mountedOn fs).2 := .mount (.init .boot)

theorem reached_seekTo (offset : ℤ) : Reached Tmpfs.filesystem atBoot (seekTo offset) :=
  reached_run (reached_mounted Tmpfs.filesystem atBoot) 512 _

theorem AtOffset.openFile {i : FileRef} {r : NodeRef} {offset : ℕ} {distance : ℤ}
    (h : AtOffset i r offset (seekTo distance)) :
    OpenFile Tmpfs.buffers atBoot (seekTo distance) 0 i r :=
  ⟨reached_seekTo distance, h.1, h.2.1⟩

/-- At offset 1, a write of `2 ^ 64 - 1` bytes needs no capacity and stores everywhere. -/
theorem wrapping_write_leaves_buffer :
    OpenFile Tmpfs.buffers atBoot (seekTo 1) 0 0 1 ∧ ∀ alloc src,
      ¬ WritesInside Tmpfs.buffers alloc 0 0 1 src (2 ^ 64 - 1) (seekTo 1) := by
  have hat : AtOffset 0 1 1 (seekTo 1) := by decide +kernel
  have hopen := hat.openFile
  have hone := hat.2.2
  generalize seekTo 1 = s at hopen hone ⊢
  refine ⟨hopen, ?_⟩
  intro alloc src hinside
  have hneed : u64 (1 + (2 ^ 64 - 1)) = 0 := by norm_num [u64]
  rw [hopen.writesInside_tmpfs alloc src (by omega), hone, hneed] at hinside
  rcases hinside with (hlarge | ⟨hlarge, -⟩) | ⟨hend, -⟩
  · omega
  · omega
  · omega

/-- In every history, a write to an open regular file of the memory file system returns exactly if
the end of the write, in 64 bits, is at most `2 ^ 63`; the loop never returns with less than is
needed. -/
theorem write_returns_iff {s : Vfs Tmpfs NodeRef} {fd : ℤ} {i : FileRef} {r : NodeRef}
    (h : OpenFile Tmpfs.buffers atBoot s fd i r) (alloc : NmAlloc) (src : ℕ → Byte) (len : ℕ) :
    ((∃ fuel, (s.fsWrite Tmpfs.filesystem fuel alloc fd (some src) len).isSome) ∧
      ∀ fuel cap, Tmpfs.growLoop (u64 ((s.fdTable i).offset + len)) fuel
          (Tmpfs.startCapacity (s.nodes.nodes r)) = some cap →
        u64 ((s.fdTable i).offset + len) ≤ cap) ↔
      u64 ((s.fdTable i).offset + len) ≤ 2 ^ 63 := by
  rw [← h.fsWrite_returns alloc src len]
  constructor
  · exact fun hleft => hleft.1
  · exact fun hsome => ⟨hsome, fun fuel cap hloop => Tmpfs.le_of_growLoop hloop⟩

theorem write_returns_iff_start :
    OpenFile Tmpfs.buffers atBoot (seekTo 0) 0 0 1 ∧
      ∃ fuel, ((seekTo 0).fsWrite Tmpfs.filesystem fuel (fun _ => some fun _ => 0) 0
        (some fun _ => 7) 2).isSome := by
  have hat : AtOffset 0 1 0 (seekTo 0) := by decide +kernel
  refine ⟨hat.openFile, ?_⟩
  refine ((write_returns_iff hat.openFile _ _ 2).mpr ?_).1
  rw [hat.2.2]
  decide

/-- At offset `2 ^ 63 - 1`, a write of two bytes doubles the capacity forever. -/
theorem two_bytes_never_return :
    OpenFile Tmpfs.buffers atBoot (seekTo (2 ^ 63 - 1)) 0 0 1 ∧ ∀ fuel alloc src,
      (seekTo (2 ^ 63 - 1)).fsWrite Tmpfs.filesystem fuel alloc 0 (some src) 2 = none := by
  have hat : AtOffset 0 1 (2 ^ 63 - 1) (seekTo (2 ^ 63 - 1)) := by decide +kernel
  have hopen := hat.openFile
  have hfar := hat.2.2
  generalize seekTo (2 ^ 63 - 1) = s at hopen hfar ⊢
  refine ⟨hopen, ?_⟩
  intro fuel alloc src
  have hneed : u64 (2 ^ 63 - 1 + 2) = 2 ^ 63 + 1 := by norm_num [u64]
  have hreturns := hopen.fsWrite_returns alloc src 2
  rw [hfar, hneed] at hreturns
  by_contra hsome
  have hle := hreturns.mp ⟨fuel, isSome_iff_ne_none.mpr hsome⟩
  omega

end Vfs

end NeverMind
