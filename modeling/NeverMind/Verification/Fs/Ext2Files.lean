import NeverMind.Model.Ext2
import NeverMind.Verification.Fs.BackEnds
import NeverMind.Verification.Fs.TmpfsFiles

/-! # Files in the second file system

The table of vnodes represents a list of files: the file of index `k` is vnode `k` and inode
`13 + k`, and the siblings are linked from the newest file to the oldest. -/

namespace NeverMind.Ext2

open Option List Function

def bytesOf (v : Ext2Vnode) : List Byte := frontOf v.size (v.data.getD fun _ => 0)

def slotAt (k : ℕ) : Fin 256 := ⟨k % 256, Nat.mod_lt _ (by decide)⟩

def nodeAt (k : ℕ) : Ext2Ref := .node (slotAt k)

def siblings (n : ℕ) : List Ext2Ref := (range n).reverse.map nodeAt

/-- A vnode and an inode that hold the file of index `k`. -/
structure FileNode (f : List Byte × List Byte) (k : ℕ) (v : Ext2Vnode) (inode : Ext2InodeMeta) :
    Prop where
  ops : v.ops = true
  name : v.name = f.1
  ino : v.ino = 13 + k
  bytes : bytesOf v = f.2
  present : v.data.isSome
  capacity : v.capacity = 4096
  fits : v.size ≤ 4096
  inode : inode = ⟨0o644, 0, 0, 1, (v.size + 511) / 512⟩

/-- The tables hold the files. -/
structure Holds (files : List (List Byte × List Byte)) (e : Ext2) : Prop where
  count : files.length ≤ 256
  cursor : e.ext2NodeCursor = files.length
  root : e.ext2Root.type = .dir
  linked : Chain (fun r => (e.vnode r).nextSibling) e.ext2Root.children (siblings files.length)
  file : ∀ k (hk : k < files.length),
    FileNode files[k] k (e.ext2Nodes (slotAt k)) (e.inodeMeta (13 + k))
  distinct : (files.map Prod.fst).Nodup

variable {files : List (List Byte × List Byte)} {e : Ext2} {k j n fuel : ℕ}

/-! ## The vnodes -/

@[simp] theorem vnode_setMeta (r : Ext2Ref) (ino : ℕ) (m : Ext2InodeMeta) (e : Ext2) :
    (e.setMeta ino m).vnode r = e.vnode r := rfl

theorem vnode_setVnode (r d : Ext2Ref) (v : Ext2Vnode) (e : Ext2) :
    (e.setVnode d v).vnode r = if r = d then v else e.vnode r := by
  cases d with
  | root => cases r <;> simp [setVnode, vnode]
  | node i =>
    cases r with
    | root => simp [setVnode, vnode]
    | node j =>
      by_cases hj : j = i
      · subst hj
        simp [setVnode, vnode]
      · simp [setVnode, vnode, hj]

@[simp] theorem ext2NodeCursor_setVnode (d : Ext2Ref) (v : Ext2Vnode) (e : Ext2) :
    (e.setVnode d v).ext2NodeCursor = e.ext2NodeCursor := by
  cases d <;> rfl

theorem slotAt_eq (hk : k < 256) : slotAt k = ⟨k, hk⟩ := Fin.ext (Nat.mod_eq_of_lt hk)

theorem slotAt_ne (hk : k < 256) (hj : j < 256) (hne : k ≠ j) : slotAt k ≠ slotAt j := by
  intro h
  rw [slotAt_eq hk, slotAt_eq hj] at h
  exact hne (congrArg Fin.val h)

theorem mem_siblings {r : Ext2Ref} : r ∈ siblings n ↔ ∃ k < n, nodeAt k = r := by
  simp [siblings]

theorem siblings_succ (n : ℕ) : siblings (n + 1) = nodeAt n :: siblings n := by
  simp [siblings, range_succ]

theorem Holds.lt (h : Holds files e) (hk : k < files.length) : k < 256 :=
  Nat.lt_of_lt_of_le hk h.count

theorem FileNode.length {f : List Byte × List Byte} {v : Ext2Vnode} {inode : Ext2InodeMeta}
    (h : FileNode f k v inode) : f.2.length = v.size := by
  rw [← h.bytes]
  exact length_frontOf _ _

/-! ## Lookup and creation -/

theorem sameName_iff (a b : List Byte) : sameName a b = true ↔ a = b := by
  induction a generalizing b with
  | nil => cases b <;> simp [sameName]
  | cons x a ih =>
    cases b with
    | nil => simp [sameName]
    | cons y b =>
      by_cases hxy : x = y
      · subst hxy
        simp [sameName, ih]
      · simp [sameName, hxy]

theorem findSibling_eq (e : Ext2) (name : List Byte) (fuel : ℕ) (start : Option Ext2Ref) :
    e.findSibling name fuel start =
      searchLinks (fun r => sameName (e.vnode r).name name) (fun r => (e.vnode r).nextSibling) fuel
        start := by
  induction fuel generalizing start with
  | zero => rfl
  | succ fuel ih =>
    cases start with
    | none => rfl
    | some r => rw [findSibling, searchLinks, ih]

theorem ext2Lookup_root (h : Holds files e) (hfuel : 256 < fuel) (name : List Byte) :
    e.ext2Lookup fuel .root name = some ((files.findIdx? fun f => f.1 == name).map nodeAt) := by
  have hcount := h.count
  have hlen : (siblings files.length).length < fuel := by
    simp only [siblings, length_map, length_reverse, length_range]
    omega
  rw [ext2Lookup, vnode, findSibling_eq, h.linked.searchLinks _ hlen]
  congr 1
  apply Tmpfs.find?_newest h.distinct
  intro k hk
  have hname : (e.vnode (nodeAt k)).name = files[k].1 := (h.file k hk).name
  rw [hname, Bool.eq_iff_iff, sameName_iff, beq_iff_eq]

def newFile (data : ℕ → Byte) (name : List Byte) (n : ℕ) (e : Ext2) : Ext2Vnode :=
  { used := true, ino := 13 + n, type := .file, name := name, uid := 0, gid := 0, mode := 0o644
    parent := some .root, children := none, nextSibling := e.ext2Root.children, data := some data
    size := 0, capacity := 4096, ops := true }

def created (data : ℕ → Byte) (name : List Byte) (n : ℕ) (e : Ext2) : Ext2 :=
  { inodeMeta := update e.inodeMeta (13 + n) ⟨0o644, 0, 0, 1, 0⟩
    ext2Root := { e.ext2Root with children := some (nodeAt n) }
    ext2Nodes := update e.ext2Nodes (slotAt n) (e.newFile data name n)
    ext2NodeCursor := n + 1 }

variable {malloc : ℕ → NmAlloc}

theorem newVnode_eq (hn : n < 256) {data : ℕ → Byte} (hdata : malloc n 4096 = some data)
    {name : List Byte} (hne : name ≠ []) (hshort : name.length ≤ 63) :
    e.newVnode malloc (slotAt n) .root name .file 0o644 = e.newFile data name n := by
  have hino : u32 (12 + u32 (n + 1)) = 13 + n := by
    rw [u32_of_lt (n := n + 1) (by omega), u32_of_lt (by omega)]
    omega
  have hcopy : name.take (nmNameMax - 1) = name := take_of_length_le hshort
  simp only [newVnode, newFile, slotAt_eq hn, hino, copyName, if_neg hne, hcopy, hdata, vnode]

theorem ext2Create_root (h : Holds files e) (hfuel : 256 < fuel) {data : ℕ → Byte}
    (hdata : malloc files.length 4096 = some data) {name : List Byte} (hne : name ≠ [])
    (hshort : name.length ≤ 63) (hnew : files.findIdx? (fun f => f.1 == name) = none)
    (hroom : files.length < 256) :
    e.ext2Create malloc fuel .root name .file 0o644 =
      some (some (nodeAt files.length), e.created data name files.length) := by
  have hcursor : e.ext2NodeCursor < 256 := by rw [h.cursor]; exact hroom
  have hslot : (⟨e.ext2NodeCursor, hcursor⟩ : Fin 256) = slotAt files.length := by
    rw [slotAt_eq hroom]
    exact Fin.ext h.cursor
  have hino : (e.newFile data name files.length).ino = 13 + files.length := rfl
  have hbelow : 13 + files.length < ext2MaxInodes := by
    unfold ext2MaxInodes
    omega
  have hnext : u32 (files.length + 1) = files.length + 1 := u32_of_lt (by omega)
  rw [ext2Create, if_neg (by simp [vnode, h.root]), dif_pos hcursor, ext2Lookup_root h hfuel, hnew]
  dsimp only [map_none]
  rw [hslot, newVnode_eq hroom hdata hne hshort, hino, if_pos hbelow, h.cursor, hnext]
  rfl

section

variable (h : Holds files e) (data : ℕ → Byte) (name : List Byte) (hroom : files.length < 256)

include h hroom

theorem Holds.file_created (hk : k < files.length) :
    FileNode files[k] k ((e.created data name files.length).ext2Nodes (slotAt k))
      ((e.created data name files.length).inodeMeta (13 + k)) := by
  have hslot := slotAt_ne (h.lt hk) hroom (by omega)
  have hino : 13 + k ≠ 13 + files.length := by omega
  dsimp only [created]
  rw [update_of_ne hslot, update_of_ne hino]
  exact h.file k hk

theorem Holds.linked_created :
    Chain (fun r => ((e.created data name files.length).vnode r).nextSibling)
      (e.created data name files.length).ext2Root.children (siblings (files.length + 1)) := by
  rw [siblings_succ]
  refine Chain.cons_iff.mpr ⟨rfl, ?_⟩
  have hnext : ((e.created data name files.length).vnode (nodeAt files.length)).nextSibling =
      e.ext2Root.children := by
    simp [vnode, nodeAt, created, newFile]
  rw [hnext]
  apply h.linked.congr
  intro r hr
  obtain ⟨k, hk, rfl⟩ := mem_siblings.mp hr
  simp [vnode, nodeAt, created, slotAt_ne (h.lt hk) hroom (Nat.ne_of_lt hk)]

end

theorem fileNode_newFile (data : ℕ → Byte) (name : List Byte) (n : ℕ) (e : Ext2) :
    FileNode (name, []) n (e.newFile data name n) ⟨0o644, 0, 0, 1, 0⟩ :=
  ⟨rfl, rfl, rfl, rfl, rfl, rfl, Nat.zero_le _, by simp [newFile]⟩

theorem Holds.created (h : Holds files e) {data : ℕ → Byte} {name : List Byte}
    (hnew : files.findIdx? (fun f => f.1 == name) = none) (hroom : files.length < 256) :
    Holds (files ++ [(name, [])]) (e.created data name files.length) := by
  refine ⟨?_, ?_, h.root, ?_, ?_, ?_⟩
  · rw [length_append]
    exact hroom
  · rw [length_append]
    rfl
  · rw [length_append]
    exact h.linked_created data name hroom
  · intro k hk
    by_cases hlast : k < files.length
    · rw [getElem_append_left hlast]
      exact h.file_created data name hroom hlast
    · have hk' : k = files.length := by
        simp at hk
        omega
      subst hk'
      simpa [Ext2.created] using fileNode_newFile data name files.length e
  · exact nodup_names_append h.distinct hnew []

/-! ## Reads, writes and status -/

theorem ext2Read_file (h : Holds files e) (hk : k < files.length) (offset len : ℕ) :
    e.ext2Read (nodeAt k) offset len =
      ((((files[k].2.drop offset).take len).length : ℤ), (files[k].2.drop offset).take len) := by
  have hfile := h.file k hk
  have hlength := hfile.length
  have hfits := hfile.fits
  have hbytes := hfile.bytes
  obtain ⟨data, hdata⟩ := isSome_iff_exists.mp hfile.present
  rw [bytesOf, hdata, getD_some] at hbytes
  unfold ext2Read
  dsimp only [vnode, nodeAt]
  rw [hdata]
  dsimp only
  by_cases hend : (e.ext2Nodes (slotAt k)).size ≤ offset
  · rw [if_pos hend, drop_of_length_le (by omega)]
    simp
  · have hread := take_drop_frontOf_of_lt len data (not_le.mp hend)
    rw [hbytes] at hread
    rw [if_neg hend, hread, length_frontOf, i64_of_lt (by omega) (by split <;> omega)]
    rfl

def written (offset len : ℕ) (src : ℕ → Byte) (v : Ext2Vnode) : Ext2Vnode :=
  { v with
    data := v.data.map (Tmpfs.storeBytes offset len src), size := max v.size (offset + len) }

def stored (k offset len : ℕ) (src : ℕ → Byte) (e : Ext2) : Ext2 :=
  let v := written offset len src (e.ext2Nodes (slotAt k))
  { e with
    inodeMeta := update e.inodeMeta (13 + k)
      { e.inodeMeta (13 + k) with blocks := (v.size + 511) / 512 }
    ext2Nodes := update e.ext2Nodes (slotAt k) v }

theorem ext2Write_file (h : Holds files e) (hk : k < files.length) (src : ℕ → Byte)
    {offset len : ℕ} (hend : offset + len ≤ 4096) :
    e.ext2Write (nodeAt k) src offset len = ((len : ℤ), e.stored k offset len src) := by
  have hfile := h.file k hk
  have hfits := hfile.fits
  have hcount := h.lt hk
  obtain ⟨data, hdata⟩ := isSome_iff_exists.mp hfile.present
  have hsum : u64 (offset + len) = offset + len := u64_of_lt (by omega)
  have hmax : (if offset + len > (e.ext2Nodes (slotAt k)).size then offset + len
      else (e.ext2Nodes (slotAt k)).size) = max (e.ext2Nodes (slotAt k)).size (offset + len) := by
    split <;> omega
  have hblocks : u32 (u64 (max (e.ext2Nodes (slotAt k)).size (offset + len) + 511) / 512) =
      (max (e.ext2Nodes (slotAt k)).size (offset + len) + 511) / 512 := by
    rw [u64_of_lt (by omega), u32_of_lt (by omega)]
  have hino : 13 + k < ext2MaxInodes := by
    unfold ext2MaxInodes
    omega
  unfold ext2Write
  dsimp only [vnode, nodeAt]
  rw [hdata]
  dsimp only
  rw [hsum, hfile.capacity, if_neg (by omega), hmax, hfile.ino, if_pos hino, hblocks,
    i64_of_lt (by omega) (by omega)]
  simp [stored, written, hdata, hfile.ino, hfile.capacity, setVnode, setMeta]

/-- A write inside the buffer that leaves no gap overwrites the bytes of the file. -/
theorem FileNode.written {f : List Byte × List Byte} {v : Ext2Vnode} {inode : Ext2InodeMeta}
    (h : FileNode f k v inode) (src : ℕ → Byte) {offset len : ℕ} (hoffset : offset ≤ f.2.length)
    (hend : offset + len ≤ 4096) :
    FileNode (f.1, overwrite offset (frontOf len src) f.2) k (written offset len src v)
      { inode with blocks := ((written offset len src v).size + 511) / 512 } := by
  have hfits := h.fits
  have hbytes := h.bytes
  obtain ⟨data, hdata⟩ := isSome_iff_exists.mp h.present
  rw [bytesOf, hdata, getD_some] at hbytes
  rw [h.length] at hoffset
  refine ⟨h.ops, h.name, h.ino, ?_, ?_, h.capacity, ?_, ?_⟩
  · have hlarge : offset + len < 2 ^ 63 := by omega
    have hstored := Tmpfs.frontOf_storeBytes src data hoffset (by omega) hlarge
    rw [hbytes] at hstored
    simpa [bytesOf, Ext2.written, hdata] using hstored
  · simp [Ext2.written, hdata]
  · exact Nat.max_le.mpr ⟨hfits, hend⟩
  · rw [h.inode]

theorem Holds.stored (h : Holds files e) (hk : k < files.length) (src : ℕ → Byte) {offset len : ℕ}
    (hoffset : offset ≤ files[k].2.length) (hend : offset + len ≤ 4096) :
    Holds (files.set k (files[k].1, overwrite offset (frontOf len src) files[k].2))
      (e.stored k offset len src) := by
  have hlen : (files.set k (files[k].1, overwrite offset (frontOf len src) files[k].2)).length =
      files.length := length_set
  refine ⟨?_, ?_, h.root, ?_, ?_, ?_⟩
  · rw [hlen]
    exact h.count
  · rw [hlen]
    exact h.cursor
  · rw [hlen]
    apply h.linked.congr
    intro r hr
    obtain ⟨j, hj, rfl⟩ := mem_siblings.mp hr
    by_cases hjk : j = k
    · subst hjk
      simp [vnode, nodeAt, Ext2.stored, Ext2.written]
    · simp [vnode, nodeAt, Ext2.stored, slotAt_ne (h.lt hj) (h.lt hk) hjk]
  · intro j hj
    rw [hlen] at hj
    by_cases hjk : j = k
    · subst hjk
      simpa [Ext2.stored] using (h.file j hk).written src hoffset hend
    · have hino : 13 + j ≠ 13 + k := by omega
      dsimp only [Ext2.stored]
      rw [getElem_set_ne (Ne.symm hjk), update_of_ne hino,
        update_of_ne (slotAt_ne (h.lt hj) (h.lt hk) hjk)]
      exact h.file j hj
  · rw [names_set hk (f := (files[k].1, overwrite offset (frontOf len src) files[k].2)) rfl]
    exact h.distinct

theorem ext2Stat_file (h : Holds files e) (hk : k < files.length) :
    e.ext2Stat (nodeAt k) =
      some ⟨13 + k, files[k].2.length, 0o644, 0, 0, 1, (files[k].2.length + 511) / 512⟩ := by
  have hfile := h.file k hk
  have hcount := h.lt hk
  have hino : ¬ ext2MaxInodes ≤ 13 + k := by
    unfold ext2MaxInodes
    omega
  unfold ext2Stat
  dsimp only [vnode, nodeAt]
  rw [hfile.ino, if_neg hino, hfile.inode, hfile.length]

/-! ## Mount and layout -/

theorem ext2MountRoot_holds {e : Ext2} (hfirst : e.ext2NodeCursor = 0) :
    ∃ e', e.ext2MountRoot = (some .root, e') ∧ Holds [] e' := by
  refine ⟨_, rfl, Nat.zero_le _, hfirst, rfl, .nil, ?_, nodup_nil⟩
  intro k hk
  cases hk

def layout : FileLayout Ext2 Ext2Ref := ⟨Holds, .root, nodeAt, fun k => 13 + k⟩

theorem layout_lawful (hmalloc : ∀ k, (malloc k 4096).isSome) (hfuel : 256 < fuel)
    : layout.Lawful (filesystem malloc) fuel 256 4096 where
  distinct := fun h => h.distinct
  lookup := fun h name => ext2Lookup_root h hfuel name
  create := by
    intro files e name h hne hshort hnew hroom
    obtain ⟨data, hdata⟩ := isSome_iff_exists.mp (hmalloc files.length)
    exact ⟨_, ext2Create_root h hfuel hdata hne hshort hnew hroom, h.created hnew hroom⟩
  hasOps := fun h hk => (h.file _ hk).ops
  openNode := fun _ _ _ => rfl
  read := fun h hk offset len => ext2Read_file h hk offset len
  write := by
    intro files e k h hk alloc _ src offset len hoffset hend
    exact ⟨_, congrArg some (ext2Write_file h hk src hend), h.stored hk src hoffset hend⟩
  stat := fun h hk => ext2Stat_file h hk
  size := fun h hk => (h.file _ hk).length.symm

end NeverMind.Ext2
