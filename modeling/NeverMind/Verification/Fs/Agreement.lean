import NeverMind.Verification.Fs.Ext2Files
import NeverMind.Verification.Fs.Refinement

/-! # Agreement of the two file systems

The memory file system and the second file system give the same outputs for files under the root
that both can hold. -/

namespace NeverMind

namespace Tmpfs

def layout : FileLayout Tmpfs NodeRef := ⟨Holds, nodeOf .root, nodeAt, fun k => k + 2⟩

theorem granted_of_total {alloc : NmAlloc} (halloc : ∀ n, (alloc n).isSome) (need : ℕ)
    (v : Vnode) : granted alloc need v = true := by
  unfold granted
  cases newCapacity need v with
  | none => rfl
  | some cap => exact halloc cap

theorem layout_lawful {fuel : ℕ} (hfuel : 512 ≤ fuel) :
    layout.Lawful filesystem fuel 256 4096 where
  distinct := fun h => h.distinct
  lookup := fun h name => tmpfsLookup_root h hfuel name
  create := by
    intro files t name h _ hshort hnew hfew
    have hroom : files.length < FileStore.maxFiles := Nat.lt_trans hfew (by decide)
    have hcreate := tmpfsCreate_root h hfuel hshort hnew
    rw [if_pos hroom] at hcreate
    refine ⟨t.created name files.length, ?_, h.created hroom hnew⟩
    dsimp only [filesystem, layout, nodeOf]
    exact hcreate
  hasOps := fun h hk => (h.file _ hk).ops
  openNode := fun _ _ _ => rfl
  read := fun h hk offset len => tmpfsRead_file h hk offset len
  write := by
    intro files t k h hk alloc halloc src offset len hoffset hend
    have hgrow : 64 ≤ fuel := by omega
    have hlarge : offset + len < 2 ^ 63 := by omega
    rcases tmpfsWrite_file h hk hgrow alloc src hoffset hlarge with ⟨-, hwrite⟩ | ⟨hrefused, -⟩
    · exact hwrite
    · rw [granted_of_total halloc] at hrefused
      cases hrefused
  stat := fun h hk => congrArg some (tmpfsStat_file h hk)
  size := fun h hk => (h.file _ hk).length.symm

end Tmpfs

namespace Vfs

variable {T R : Type*}

/-- A mount of the root of a layout, and the entries of the file table after it. -/
theorem mountedOn_spec {fs : Filesystem T R} {l : FileLayout T R} {s : Vfs T R} {t : T}
    (hmount : fs.mountRoot s.nodes = (some l.root, t)) (hholds : l.holds [] t) :
    (s.mountedOn fs).1 = 0 ∧ Mounted l [] (s.mountedOn fs).2 ∧
      ∀ i, (s.mountedOn fs).2.fdTable i = ⟨false, 0, 0, none⟩ := by
  have heq : s.mountedOn fs =
      (0, { s.fsInit with nodes := t, rootFs := true, rootVnode := some l.root }) := by
    unfold mountedOn fsMountRoot
    rw [show s.fsInit.nodes = s.nodes from rfl, hmount]
  rw [heq]
  exact ⟨rfl, ⟨rfl, rfl, hholds⟩, fun _ => rfl⟩

/-- After the first mount of each file system, and with allocations that succeed, a run of opens,
writes, reads, seeks, closes and status calls on files directly under the root has the same
outputs on both, apart from the inode numbers: the names have at most 63 bytes, at most 256 files
are created, and the writes start inside their file and end at 4096 bytes at most. -/
theorem tmpfs_ext2_agree (s₀ : Vfs Tmpfs NodeRef) (s₀' : Vfs Ext2 Ext2Ref)
    (hfirst : s₀'.nodes.ext2NodeCursor = 0) (malloc : ℕ → NmAlloc)
    (hmalloc : ∀ k, (malloc k 4096).isSome) {fuel : ℕ} (hfuel : 512 ≤ fuel) (calls : List FsCall)
    (hcalls : EachStep (nextOn Tmpfs.filesystem fuel) (Compared Tmpfs.filesystem 4096) calls
      (s₀.mountedOn Tmpfs.filesystem).2)
    (hfew : (calls.filterMap FsCall.creates).dedup.length ≤ 256) :
    (s₀.mountedOn Tmpfs.filesystem).1 = 0 ∧ (s₀'.mountedOn (Ext2.filesystem malloc)).1 = 0 ∧
      ∃ outs outs' s s',
        (s₀.mountedOn Tmpfs.filesystem).2.runOn Tmpfs.filesystem fuel calls = some (outs, s) ∧
        (s₀'.mountedOn (Ext2.filesystem malloc)).2.runOn (Ext2.filesystem malloc) fuel calls =
          some (outs', s') ∧
        outs'.map FsOut.forgetIno = outs.map FsOut.forgetIno := by
  obtain ⟨t, hmount, hholds⟩ := Tmpfs.tmpfsMountRoot_holds s₀.nodes
  obtain ⟨e, hmount', hholds'⟩ := Ext2.ext2MountRoot_holds hfirst
  have hroot : Tmpfs.filesystem.mountRoot s₀.nodes = (some Tmpfs.layout.root, t) := by
    dsimp only [Tmpfs.filesystem, Tmpfs.layout, Tmpfs.nodeOf]
    exact hmount
  obtain ⟨hret, hleft, htable⟩ := mountedOn_spec hroot hholds
  have hroot' : (Ext2.filesystem malloc).mountRoot s₀'.nodes = (some Ext2.layout.root, e) := hmount'
  obtain ⟨hret', hright, htable'⟩ := mountedOn_spec hroot' hholds'
  have hagree : Agree Tmpfs.layout Ext2.layout [] (s₀.mountedOn Tmpfs.filesystem).2
      (s₀'.mountedOn (Ext2.filesystem malloc)).2 := by
    refine ⟨hleft, hright, ?_⟩
    intro i
    rw [htable, htable']
    exact ⟨rfl, rfl, .inl ⟨rfl, rfl⟩⟩
  have hcreates : ∀ c ∈ calls, ∀ name ∈ c.creates, name ∈ calls.filterMap FsCall.creates :=
    fun c hc name hname => List.mem_filterMap.mpr ⟨c, hc, hname⟩
  exact ⟨hret, hret', hagree.runOn (Tmpfs.layout_lawful hfuel)
    (Ext2.layout_lawful hmalloc (by omega)) hcalls hcreates (by simp) hfew⟩

def ext2AtBoot : Vfs Ext2 Ext2Ref where
  fdTable := fun _ => ⟨false, 0, 0, none⟩
  rootFs := false
  rootVnode := none
  nodes :=
    let zero : Ext2Vnode :=
      { used := false, ino := 0, type := .none, name := [], uid := 0, gid := 0, mode := 0
        parent := none, children := none, nextSibling := none, data := none, size := 0
        capacity := 0, ops := false }
    { inodeMeta := fun _ => ⟨0, 0, 0, 0, 0⟩, ext2Root := zero, ext2Nodes := fun _ => zero
      ext2NodeCursor := 0 }

def writeThenStat : List FsCall := writeThenRead ++ [.stat (some [47, 97]) true]

theorem topLevel_a : ∀ p ∈ some [47, 97], TopLevel p := by
  rintro p ⟨⟩
  exact ⟨[97], by decide, by decide⟩

theorem writeThenStat_compared :
    EachStep (nextOn Tmpfs.filesystem 512) (Compared Tmpfs.filesystem 4096) writeThenStat
      (atBoot.mountedOn Tmpfs.filesystem).2 := by
  refine ⟨topLevel_a, ⟨fun _ => rfl, ?_⟩, trivial, trivial, topLevel_a, trivial⟩
  intro i r hvnode
  have hopened : (nextOn Tmpfs.filesystem 512 (.openFile (some [47, 97]) nmOCreat)
      (atBoot.mountedOn Tmpfs.filesystem).2).getVnode Tmpfs.filesystem 0 = some (0, 1) := by
    decide +kernel
  rw [hopened] at hvnode
  cases hvnode
  decide +kernel

theorem tmpfs_ext2_agree_writeThenStat :
    EachStep (nextOn Tmpfs.filesystem 512) (Compared Tmpfs.filesystem 4096) writeThenStat
      (atBoot.mountedOn Tmpfs.filesystem).2 ∧
    ∃ outs outs' s s',
      (atBoot.mountedOn Tmpfs.filesystem).2.runOn Tmpfs.filesystem 512 writeThenStat =
        some (outs, s) ∧
      (ext2AtBoot.mountedOn (Ext2.filesystem fun _ _ => some fun _ => 0)).2.runOn
        (Ext2.filesystem fun _ _ => some fun _ => 0) 512 writeThenStat = some (outs', s') ∧
      outs'.map FsOut.forgetIno = outs.map FsOut.forgetIno := by
  refine ⟨writeThenStat_compared, ?_⟩
  exact (tmpfs_ext2_agree atBoot ext2AtBoot rfl (fun _ _ => some fun _ => 0) (fun _ => rfl)
    (Nat.le_refl 512) writeThenStat writeThenStat_compared (by decide)).2.2

end Vfs

end NeverMind
