import NeverMind.Library.Run
import NeverMind.Verification.Fs.Store
import Mathlib.Data.List.Dedup

/-! # Two back ends under one virtual file system

The calls of `vfs.c` over any file system, and what they need of one that keeps files in a single
directory. Two file systems that keep the same files give the same outputs. -/

namespace NeverMind

open FileStore List

/-- How a file system keeps a list of files, each a name and its bytes, in the order of their
creation: what its state holds, and the vnode and the number of the file of an index. -/
structure FileLayout (T R : Type*) where
  holds : List (List Byte × List Byte) → T → Prop
  root : R
  node : ℕ → R
  ino : ℕ → ℕ

/-- The operations of a file system compute on its files, up to a number of files and a size. -/
structure FileLayout.Lawful {T R : Type*} (l : FileLayout T R) (fs : Filesystem T R)
    (fuel maxFiles maxSize : ℕ) : Prop where
  distinct : ∀ {files t}, l.holds files t → (files.map Prod.fst).Nodup
  lookup : ∀ {files t}, l.holds files t → ∀ name,
    fs.lookup fuel l.root name t = some ((files.findIdx? fun f => f.1 == name).map l.node)
  create : ∀ {files t name}, l.holds files t → name ≠ [] → name.length ≤ 63 →
    files.findIdx? (fun f => f.1 == name) = none → files.length < maxFiles →
      ∃ t', fs.create fuel l.root name .file 0o644 t = some (some (l.node files.length), t') ∧
        l.holds (files ++ [(name, [])]) t'
  hasOps : ∀ {files t k}, l.holds files t → k < files.length → fs.hasOps (l.node k) t = true
  openNode : ∀ r flags t, fs.openNode r flags t = 0
  read : ∀ {files t k} (_ : l.holds files t) (hk : k < files.length) offset len,
    fs.read (l.node k) offset len t =
      ((((files[k].2.drop offset).take len).length : ℤ), (files[k].2.drop offset).take len)
  write : ∀ {files t k} (_ : l.holds files t) (hk : k < files.length) {alloc : NmAlloc}
    (_ : ∀ n, (alloc n).isSome) src {offset len} (_ : offset ≤ files[k].2.length)
    (_ : offset + len ≤ maxSize),
    ∃ t', fs.write fuel alloc (l.node k) src offset len t = some ((len : ℤ), t') ∧
      l.holds (files.set k (files[k].1, overwrite offset (frontOf len src) files[k].2)) t'
  stat : ∀ {files t k} (_ : l.holds files t) (hk : k < files.length), fs.stat (l.node k) t =
      some ⟨l.ino k, files[k].2.length, 0o644, 0, 0, 1, (files[k].2.length + 511) / 512⟩
  size : ∀ {files t k} (_ : l.holds files t) (hk : k < files.length),
    fs.size (l.node k) t = files[k].2.length

/-- What a call returns, without the number of a file. -/
def FsOut.forgetIno (out : FsOut) : FsOut :=
  { out with stat := out.stat.map fun st => { st with ino := 0 } }

/-- A path that names an entry of the root, of at most 63 bytes. -/
def TopLevel (path : List Byte) : Prop := ∃ name, newName path = some name ∧ name.length ≤ 63

/-- The name under which a call creates a file that is missing. -/
def FsCall.creates : FsCall → Option (List Byte)
  | .openFile (some path) flags => if flags &&& nmOCreat = 0 then none else newName path
  | _ => none

namespace Vfs

variable {T R T' R' : Type*}

/-- The calls in which two back ends are compared: opens and status of entries of the root, and
writes that get their memory, start inside the file and end at `maxSize` at most. -/
def Compared (fs : Filesystem T R) (maxSize : ℕ) (c : FsCall) (s : Vfs T R) : Prop :=
  match c with
  | .openFile path _ | .stat path _ => ∀ p ∈ path, TopLevel p
  | .write alloc fd _ len =>
    (∀ n, (alloc n).isSome) ∧ ∀ i r, s.getVnode fs fd = some (i, r) →
      (s.fdTable i).offset ≤ fs.size r s.nodes ∧ (s.fdTable i).offset + len ≤ maxSize
  | .read _ _ _ | .lseek _ _ _ | .close _ => True

/-! ## One back end -/

/-- The root of a layout is mounted, and the file system keeps the files. -/
structure Mounted (l : FileLayout T R) (files : List (List Byte × List Byte)) (s : Vfs T R) :
    Prop where
  rootFs : s.rootFs = true
  root : s.rootVnode = some l.root
  holds : l.holds files s.nodes

variable {fs : Filesystem T R} {fs' : Filesystem T' R'} {l : FileLayout T R}
  {l' : FileLayout T' R'} {fuel maxFiles maxSize : ℕ} {files : List (List Byte × List Byte)}
  {s : Vfs T R} {s' : Vfs T' R'}

theorem newName_eq_some {path name : List Byte} (h : newName path = some name) :
    path.head? = some slash ∧ components path = [name] := by
  unfold newName at h
  split at h
  · cases h
  · rename_i habs
    refine ⟨not_not.mp habs, ?_⟩
    split at h
    · rename_i hparts
      cases h
      exact hparts
    · cases h

theorem newName_ne_nil {path name : List Byte} (h : newName path = some name) :
    name ≠ [] := by
  have hmem : name ∈ components path := by
    rw [(newName_eq_some h).2]
    exact mem_singleton_self name
  have hnot := (mem_filter.mp hmem).2
  rintro rfl
  simp at hnot

theorem fsPathSplit_topLevel {path name : List Byte} (h : newName path = some name)
    (hshort : name.length ≤ 63) : fsPathSplit path 16 = some [name] := by
  rw [fsPathSplit_eq path (by decide), (newName_eq_some h).2]
  simp [take_of_length_le hshort]

theorem Mounted.resolvePath (hs : Mounted l files s) (hl : l.Lawful fs fuel maxFiles maxSize)
    {path name : List Byte} (hname : newName path = some name)
    (hshort : name.length ≤ 63) :
    s.resolvePath fs fuel path false =
      some ((files.findIdx? fun f => f.1 == name).map fun k => (l.node k, name)) := by
  have habs := (newName_eq_some hname).1
  unfold Vfs.resolvePath
  rw [hs.root]
  dsimp only
  rw [if_neg (by simp [hs.rootFs, habs]), fsPathSplit_topLevel hname hshort]
  have hwalk : lookupAll fs fuel s.nodes l.root [name] =
      some ((files.findIdx? fun f => f.1 == name).map l.node) := by
    rw [lookupAll, hl.lookup hs.holds]
    cases files.findIdx? fun f => f.1 == name with
    | none => rfl
    | some k => rfl
  simp only [Bool.false_eq_true, if_false, hwalk, Option.map_some, Option.map_map]
  congr 2
  funext k
  simp [copyName, nmNameMax, take_of_length_le hshort]

theorem Mounted.resolveParent (hs : Mounted l files s) {path name : List Byte}
    (hname : newName path = some name) (hshort : name.length ≤ 63) :
    s.resolvePath fs fuel path true = some (some (l.root, name)) := by
  have habs := (newName_eq_some hname).1
  unfold Vfs.resolvePath
  rw [hs.root]
  dsimp only
  rw [if_neg (by simp [hs.rootFs, habs]), fsPathSplit_topLevel hname hshort]
  simp [lookupAll, copyName, nmNameMax, take_of_length_le hshort]

theorem Mounted.fsStat (hs : Mounted l files s) (hl : l.Lawful fs fuel maxFiles maxSize)
    {path name : List Byte} (hname : newName path = some name)
    (hshort : name.length ≤ 63) :
    s.fsStat fs fuel (some path) true = some (match files.findIdx? fun f => f.1 == name with
        | none => (nmErr nmEfail, none)
        | some k =>
          let size := (files.getD k ([], [])).2.length
          (0, some ⟨l.ino k, size, 0o644, 0, 0, 1, (size + 511) / 512⟩)) := by
  unfold Vfs.fsStat
  dsimp only
  rw [hs.resolvePath hl hname hshort]
  cases hfind : files.findIdx? fun f => f.1 == name with
  | none => rfl
  | some k =>
    have hk : k < files.length := (findIdx?_eq_some_iff_getElem.mp hfind).1
    simp [hl.hasOps hs.holds hk, hl.stat hs.holds hk, hk]

/-- What an open finds or creates before it takes a descriptor. -/
inductive Opens (fs : Filesystem T R) (l : FileLayout T R) (files : List (List Byte × List Byte))
    (name : List Byte) (flags : ℕ) (s : Vfs T R) : List (List Byte × List Byte) →
      ℤ × Vfs T R → Prop where
  | found {k : ℕ} (hfind : files.findIdx? (fun f => f.1 == name) = some k) :
      Opens fs l files name flags s files (s.openVnode fs (l.node k) flags)
  | missing (hfind : files.findIdx? (fun f => f.1 == name) = none)
      (hflag : flags &&& nmOCreat = 0) :
      Opens fs l files name flags s files (nmErr nmEfail, s)
  | created {t : T} (hfind : files.findIdx? (fun f => f.1 == name) = none)
      (hflag : flags &&& nmOCreat ≠ 0) (hholds : l.holds (files ++ [(name, [])]) t) :
      Opens fs l files name flags s (files ++ [(name, [])])
        ({ s with nodes := t }.openVnode fs (l.node files.length) flags)

theorem Mounted.fsOpen (hs : Mounted l files s) (hl : l.Lawful fs fuel maxFiles maxSize)
    {path name : List Byte} (hname : newName path = some name) (hshort : name.length ≤ 63)
    (flags : ℕ) (hroom : files.findIdx? (fun f => f.1 == name) = none → flags &&& nmOCreat ≠ 0 →
      files.length < maxFiles) :
    ∃ files₁ r, s.fsOpen fs fuel (some path) flags = some r ∧
      Opens fs l files name flags s files₁ r := by
  unfold Vfs.fsOpen
  dsimp only
  rw [hs.resolvePath hl hname hshort]
  cases hfind : files.findIdx? fun f => f.1 == name with
  | some k => exact ⟨files, _, rfl, .found hfind⟩
  | none =>
    by_cases hflag : flags &&& nmOCreat = 0
    · rw [if_pos hflag]
      exact ⟨files, _, rfl, .missing hfind hflag⟩
    · obtain ⟨t, hcreate, hholds⟩ := hl.create hs.holds (newName_ne_nil hname) hshort hfind
        (hroom hfind hflag)
      rw [if_neg hflag, hs.resolveParent hname hshort]
      dsimp only
      rw [hcreate]
      exact ⟨_, _, rfl, .created hfind hflag hholds⟩

/-! ## Two back ends -/

/-- Two entries of the file table that agree: with `n` files, they refer to the same one. -/
structure SameEntry (l : FileLayout T R) (l' : FileLayout T' R') (n : ℕ) (f : NmFile R)
    (f' : NmFile R') : Prop where
  used : f'.used = f.used
  offset : f'.offset = f.offset
  vnode : (f.vnode = none ∧ f'.vnode = none) ∨
    ∃ k < n, f.vnode = some (l.node k) ∧ f'.vnode = some (l'.node k)

/-- Two states that keep the same files and the same descriptors. -/
structure Agree (l : FileLayout T R) (l' : FileLayout T' R')
    (files : List (List Byte × List Byte)) (s : Vfs T R) (s' : Vfs T' R') : Prop where
  left : Mounted l files s
  right : Mounted l' files s'
  entry : ∀ i, SameEntry l l' files.length (s.fdTable i) (s'.fdTable i)

theorem SameEntry.mono {n m : ℕ} {f : NmFile R} {f' : NmFile R'} (h : SameEntry l l' n f f')
    (hle : n ≤ m) : SameEntry l l' m f f' := by
  refine ⟨h.used, h.offset, ?_⟩
  rcases h.vnode with hnone | ⟨k, hk, hnodes⟩
  · exact .inl hnone
  · exact .inr ⟨k, Nat.lt_of_lt_of_le hk hle, hnodes⟩

theorem Agree.setFile (h : Agree l l' files s s') (i : FileRef) {f : NmFile R} {f' : NmFile R'}
    (he : SameEntry l l' files.length f f') :
    Agree l l' files (s.setFile i f) (s'.setFile i f') := by
  refine ⟨⟨h.left.rootFs, h.left.root, h.left.holds⟩, ⟨h.right.rootFs, h.right.root, h.right.holds⟩,
    ?_⟩
  intro j
  by_cases hj : j = i
  · subst hj
    simpa [Vfs.setFile] using he
  · simpa [Vfs.setFile, hj] using h.entry j

theorem Agree.setNodes (h : Agree l l' files s s') {files₁ : List (List Byte × List Byte)} {t : T}
    {t' : T'} (hleft : l.holds files₁ t) (hright : l'.holds files₁ t')
    (hle : files.length ≤ files₁.length) :
    Agree l l' files₁ { s with nodes := t } { s' with nodes := t' } :=
  ⟨⟨h.left.rootFs, h.left.root, hleft⟩, ⟨h.right.rootFs, h.right.root, hright⟩,
    fun i => (h.entry i).mono hle⟩

theorem Agree.getFile (h : Agree l l' files s s') (fd : ℤ) : s'.getFile fd = s.getFile fd := by
  unfold Vfs.getFile
  split
  · dsimp only
    rw [(h.entry _).used]
  · rfl

/-- A descriptor has no vnode in either state, or the vnodes of one file. -/
theorem Agree.getVnode (h : Agree l l' files s s') (hl : l.Lawful fs fuel maxFiles maxSize)
    (hl' : l'.Lawful fs' fuel maxFiles maxSize) (fd : ℤ) :
    (s.getVnode fs fd = none ∧ s'.getVnode fs' fd = none) ∨
      ∃ i, ∃ k < files.length, s.getVnode fs fd = some (i, l.node k) ∧
        s'.getVnode fs' fd = some (i, l'.node k) := by
  unfold Vfs.getVnode
  rw [h.getFile]
  cases s.getFile fd with
  | none => exact .inl ⟨rfl, rfl⟩
  | some i =>
    rcases (h.entry i).vnode with ⟨hnone, hnone'⟩ | ⟨k, hk, hnode, hnode'⟩
    · exact .inl (by simp [hnone, hnone'])
    · refine .inr ⟨i, k, hk, ?_⟩
      simp [hnode, hnode', hl.hasOps h.left.holds hk, hl'.hasOps h.right.holds hk]

theorem Agree.advance (h : Agree l l' files s s') (i : FileRef) (n : ℤ) :
    Agree l l' files (s.advance i n) (s'.advance i n) := by
  have he := h.entry i
  unfold Vfs.advance
  split
  · exact h.setFile i ⟨he.used, by rw [he.offset], he.vnode⟩
  · exact h

theorem Agree.fsRead (h : Agree l l' files s s') (hl : l.Lawful fs fuel maxFiles maxSize)
    (hl' : l'.Lawful fs' fuel maxFiles maxSize) (fd : ℤ) (buf : Bool) (len : ℕ) :
    (s'.fsRead fs' fd buf len).1 = (s.fsRead fs fd buf len).1 ∧
      Agree l l' files (s.fsRead fs fd buf len).2 (s'.fsRead fs' fd buf len).2 := by
  unfold Vfs.fsRead
  rcases h.getVnode hl hl' fd with ⟨hnone, hnone'⟩ | ⟨i, k, hk, hsome, hsome'⟩
  · rw [hnone, hnone']
    exact ⟨rfl, h⟩
  · rw [hsome, hsome']
    cases buf with
    | false => exact ⟨rfl, h⟩
    | true =>
      dsimp only
      rw [(h.entry i).offset, hl.read h.left.holds hk, hl'.read h.right.holds hk]
      exact ⟨rfl, h.advance i _⟩

theorem Agree.fsWrite (h : Agree l l' files s s') (hl : l.Lawful fs fuel maxFiles maxSize)
    (hl' : l'.Lawful fs' fuel maxFiles maxSize) {alloc : NmAlloc} {fd : ℤ}
    {buf : Option (ℕ → Byte)} {len : ℕ} (hc : Compared fs maxSize (.write alloc fd buf len) s) :
    ∃ ret s₁ s₁' files₁, s.fsWrite fs fuel alloc fd buf len = some (ret, s₁) ∧
      s'.fsWrite fs' fuel alloc fd buf len = some (ret, s₁') ∧ Agree l l' files₁ s₁ s₁' ∧
      files₁.map Prod.fst = files.map Prod.fst := by
  unfold Vfs.fsWrite
  rcases h.getVnode hl hl' fd with ⟨hnone, hnone'⟩ | ⟨i, k, hk, hsome, hsome'⟩
  · rw [hnone, hnone']
    exact ⟨_, _, _, files, rfl, rfl, h, rfl⟩
  · rw [hsome, hsome']
    cases buf with
    | none => exact ⟨_, _, _, files, rfl, rfl, h, rfl⟩
    | some src =>
      obtain ⟨hoffset, hend⟩ := hc.2 i (l.node k) hsome
      rw [hl.size h.left.holds hk] at hoffset
      obtain ⟨t, hwrite, hholds⟩ := hl.write h.left.holds hk hc.1 src hoffset hend
      obtain ⟨t', hwrite', hholds'⟩ := hl'.write h.right.holds hk hc.1 src hoffset hend
      have hset := h.setNodes hholds hholds' (by simp)
      dsimp only
      rw [(h.entry i).offset, hwrite, hwrite']
      exact ⟨_, _, _, _, rfl, rfl, hset.advance i _, names_set hk rfl⟩

theorem Agree.seekBase (h : Agree l l' files s s') (hl : l.Lawful fs fuel maxFiles maxSize)
    (hl' : l'.Lawful fs' fuel maxFiles maxSize) (i : FileRef) (whence : ℤ) :
    s'.seekBase fs' i whence = s.seekBase fs i whence := by
  unfold Vfs.seekBase
  rw [(h.entry i).offset]
  rcases (h.entry i).vnode with ⟨hnone, hnone'⟩ | ⟨k, hk, hnode, hnode'⟩
  · rw [hnone, hnone']
  · rw [hnode, hnode']
    dsimp only
    rw [hl.size h.left.holds hk, hl'.size h.right.holds hk]

theorem Agree.fsLseek (h : Agree l l' files s s') (hl : l.Lawful fs fuel maxFiles maxSize)
    (hl' : l'.Lawful fs' fuel maxFiles maxSize) (fd offset whence : ℤ) :
    (s'.fsLseek fs' fd offset whence).1 = (s.fsLseek fs fd offset whence).1 ∧
      Agree l l' files (s.fsLseek fs fd offset whence).2 (s'.fsLseek fs' fd offset whence).2 := by
  unfold Vfs.fsLseek
  rw [h.getFile]
  cases s.getFile fd with
  | none => exact ⟨rfl, h⟩
  | some i =>
    dsimp only
    rw [h.seekBase hl hl']
    cases s.seekBase fs i whence with
    | none => exact ⟨rfl, h⟩
    | some base =>
      have he := h.entry i
      dsimp only
      split
      · exact ⟨rfl, h⟩
      · exact ⟨rfl, h.setFile i ⟨he.used, rfl, he.vnode⟩⟩

theorem Agree.fsClose (h : Agree l l' files s s') (fd : ℤ) :
    (s'.fsClose fd).1 = (s.fsClose fd).1 ∧ Agree l l' files (s.fsClose fd).2 (s'.fsClose fd).2 := by
  unfold Vfs.fsClose
  rw [h.getFile]
  cases s.getFile fd with
  | none => exact ⟨rfl, h⟩
  | some i => exact ⟨rfl, h.setFile i ⟨rfl, rfl, .inl ⟨rfl, rfl⟩⟩⟩

theorem Agree.openVnode (h : Agree l l' files s s') (hl : l.Lawful fs fuel maxFiles maxSize)
    (hl' : l'.Lawful fs' fuel maxFiles maxSize) {k : ℕ} (hk : k < files.length) (flags : ℕ) :
    (s'.openVnode fs' (l'.node k) flags).1 = (s.openVnode fs (l.node k) flags).1 ∧
      Agree l l' files (s.openVnode fs (l.node k) flags).2
        (s'.openVnode fs' (l'.node k) flags).2 := by
  have hfree : (finRange 64).find? (fun i => !(s'.fdTable i).used) =
      (finRange 64).find? fun i => !(s.fdTable i).used := by
    congr 1
    funext i
    rw [(h.entry i).used]
  have hops := hl.hasOps h.left.holds hk
  have hops' := hl'.hasOps h.right.holds hk
  unfold Vfs.openVnode allocFd
  simp only [hops, hops', Bool.true_eq_false, if_false, hfree]
  cases (finRange 64).find? fun i => !(s.fdTable i).used with
  | none => exact ⟨rfl, h⟩
  | some i =>
    have he : SameEntry l l' files.length ⟨true, flags, 0, some (l.node k)⟩
        ⟨true, flags, 0, some (l'.node k)⟩ := ⟨rfl, rfl, .inr ⟨k, hk, rfl, rfl⟩⟩
    simpa [Vfs.setFile, hl.openNode, hl'.openNode] using h.setFile i he

theorem Agree.fsOpen (h : Agree l l' files s s') (hl : l.Lawful fs fuel maxFiles maxSize)
    (hl' : l'.Lawful fs' fuel maxFiles maxSize) {path : Option (List Byte)} {flags : ℕ}
    (hpath : ∀ p ∈ path, TopLevel p) (hroom : ∀ name ∈ (FsCall.openFile path flags).creates,
      files.findIdx? (fun f => f.1 == name) = none → files.length < maxFiles) :
    ∃ ret s₁ s₁' files₁, s.fsOpen fs fuel path flags = some (ret, s₁) ∧
      s'.fsOpen fs' fuel path flags = some (ret, s₁') ∧ Agree l l' files₁ s₁ s₁' ∧
      ∀ name ∈ files₁.map Prod.fst, name ∈ files.map Prod.fst ∨
        name ∈ (FsCall.openFile path flags).creates := by
  cases path with
  | none => exact ⟨_, s, s', files, rfl, rfl, h, fun _ hname => .inl hname⟩
  | some path =>
    obtain ⟨name, hname, hshort⟩ := hpath path rfl
    have hcreates : flags &&& nmOCreat ≠ 0 →
        (FsCall.openFile (some path) flags).creates = some name := by
      intro hflag
      rw [FsCall.creates, if_neg hflag, hname]
    have hroom' : files.findIdx? (fun f => f.1 == name) = none → flags &&& nmOCreat ≠ 0 →
        files.length < maxFiles :=
      fun hfind hflag => hroom name (hcreates hflag) hfind
    obtain ⟨files₁, r, hcall, hopens⟩ := h.left.fsOpen hl hname hshort flags hroom'
    obtain ⟨files₁', r', hcall', hopens'⟩ := h.right.fsOpen hl' hname hshort flags hroom'
    rw [hcall, hcall']
    -- Both sides take the same way, since it depends on the files and the flags only.
    cases hopens with
    | @found k hfind =>
      cases hopens' with
      | found hfind' =>
        rw [hfind] at hfind'
        cases hfind'
        have hk := (findIdx?_eq_some_iff_getElem.mp hfind).1
        obtain ⟨hret, hnext⟩ := h.openVnode hl hl' hk flags
        refine ⟨(s.openVnode fs (l.node k) flags).1, _, _, files, rfl, ?_, hnext,
          fun _ hmem => .inl hmem⟩
        rw [← hret]
      | missing hfind' => simp [hfind] at hfind'
      | created hfind' => simp [hfind] at hfind'
    | missing hfind hflag =>
      cases hopens' with
      | found hfind' => simp [hfind] at hfind'
      | missing => exact ⟨_, _, _, files, rfl, rfl, h, fun _ hmem => .inl hmem⟩
      | created _ hflag' => exact absurd hflag hflag'
    | @created t hfind hflag hholds =>
      cases hopens' with
      | found hfind' => simp [hfind] at hfind'
      | missing _ hflag' => exact absurd hflag' hflag
      | created _ _ hholds' =>
        have hset := h.setNodes hholds hholds' (by simp)
        obtain ⟨hret, hnext⟩ := hset.openVnode hl hl' (k := files.length) (by simp) flags
        refine ⟨({ s with nodes := t }.openVnode fs (l.node files.length) flags).1, _, _, _,
          rfl, ?_, hnext, ?_⟩
        · rw [← hret]
        · intro other hmem
          rw [hcreates hflag]
          simpa [eq_comm] using hmem

theorem Agree.fsStat (h : Agree l l' files s s') (hl : l.Lawful fs fuel maxFiles maxSize)
    (hl' : l'.Lawful fs' fuel maxFiles maxSize) {path : Option (List Byte)}
    (hpath : ∀ p ∈ path, TopLevel p) (st : Bool) :
    ∃ r r', s.fsStat fs fuel path st = some r ∧ s'.fsStat fs' fuel path st = some r' ∧
      r'.1 = r.1 ∧ r'.2.map (fun st => { st with ino := 0 }) =
        r.2.map fun st => { st with ino := 0 } := by
  cases path with
  | none => exact ⟨_, _, rfl, rfl, rfl, rfl⟩
  | some path =>
    cases st with
    | false => exact ⟨_, _, rfl, rfl, rfl, rfl⟩
    | true =>
      obtain ⟨name, hname, hshort⟩ := hpath path rfl
      refine ⟨_, _, h.left.fsStat hl hname hshort, h.right.fsStat hl' hname hshort, ?_⟩
      cases files.findIdx? fun f => f.1 == name with
      | none => exact ⟨rfl, rfl⟩
      | some k => exact ⟨rfl, rfl⟩

/-! ## Calls and runs -/

/-- One call has the same output on both sides, up to the number of a file. -/
theorem Agree.callOn (h : Agree l l' files s s') (hl : l.Lawful fs fuel maxFiles maxSize)
    (hl' : l'.Lawful fs' fuel maxFiles maxSize) {c : FsCall} (hc : Compared fs maxSize c s)
    (hroom : ∀ name ∈ c.creates, files.findIdx? (fun f => f.1 == name) = none →
      files.length < maxFiles) :
    ∃ out out' s₁ s₁' files₁, s.callOn fs fuel c = some (out, s₁) ∧
      s'.callOn fs' fuel c = some (out', s₁') ∧ out'.forgetIno = out.forgetIno ∧
      Agree l l' files₁ s₁ s₁' ∧
      ∀ name ∈ files₁.map Prod.fst, name ∈ files.map Prod.fst ∨ name ∈ c.creates := by
  cases c with
  | openFile path flags =>
    obtain ⟨ret, s₁, s₁', files₁, hcall, hcall', hnext, hnames⟩ := h.fsOpen hl hl' hc hroom
    exact ⟨_, _, s₁, s₁', files₁, by rw [Vfs.callOn, hcall]; rfl, by rw [Vfs.callOn, hcall']; rfl,
      rfl, hnext, hnames⟩
  | read fd buf len =>
    obtain ⟨hret, hnext⟩ := h.fsRead hl hl' fd buf len
    refine ⟨_, _, _, _, files, rfl, rfl, ?_, hnext, fun _ hmem => .inl hmem⟩
    rw [hret]
  | write alloc fd buf len =>
    obtain ⟨ret, s₁, s₁', files₁, hcall, hcall', hnext, hnames⟩ := h.fsWrite hl hl' hc
    refine ⟨_, _, s₁, s₁', files₁, by rw [Vfs.callOn, hcall]; rfl,
      by rw [Vfs.callOn, hcall']; rfl, rfl, hnext, ?_⟩
    intro name hmem
    rw [hnames] at hmem
    exact .inl hmem
  | lseek fd offset whence =>
    obtain ⟨hret, hnext⟩ := h.fsLseek hl hl' fd offset whence
    refine ⟨_, _, _, _, files, rfl, rfl, ?_, hnext, fun _ hmem => .inl hmem⟩
    rw [hret]
  | close fd =>
    obtain ⟨hret, hnext⟩ := h.fsClose fd
    refine ⟨_, _, _, _, files, rfl, rfl, ?_, hnext, fun _ hmem => .inl hmem⟩
    rw [hret]
  | stat path st =>
    obtain ⟨r, r', hcall, hcall', hret, hstat⟩ := h.fsStat hl hl' hc st
    refine ⟨_, _, s, s', files, by rw [Vfs.callOn, hcall]; rfl, by rw [Vfs.callOn, hcall']; rfl,
      ?_, h, fun _ hmem => .inl hmem⟩
    simp only [FsOut.forgetIno, hret, hstat]

theorem length_le_dedup {α : Type*} [DecidableEq α] {l all : List α} (hnodup : l.Nodup)
    (hsub : ∀ a ∈ l, a ∈ all) : l.length ≤ all.dedup.length :=
  (subperm_of_subset hnodup fun a ha => mem_dedup.mpr (hsub a ha)).length_le

/-- A run that creates files under at most `maxFiles` names has the same outputs on both sides,
up to the numbers of the files. -/
theorem Agree.runOn (h : Agree l l' files s s') (hl : l.Lawful fs fuel maxFiles maxSize)
    (hl' : l'.Lawful fs' fuel maxFiles maxSize) {calls : List FsCall} {all : List (List Byte)}
    (hc : EachStep (nextOn fs fuel) (Compared fs maxSize) calls s)
    (hall : ∀ c ∈ calls, ∀ name ∈ c.creates, name ∈ all)
    (hfiles : ∀ name ∈ files.map Prod.fst, name ∈ all) (hfew : all.dedup.length ≤ maxFiles) :
    ∃ outs outs' s₁ s₁', s.runOn fs fuel calls = some (outs, s₁) ∧
      s'.runOn fs' fuel calls = some (outs', s₁') ∧
      outs'.map FsOut.forgetIno = outs.map FsOut.forgetIno := by
  induction calls generalizing files s s' with
  | nil => exact ⟨[], [], s, s', rfl, rfl, rfl⟩
  | cons c calls ih =>
    have hcreates : ∀ name ∈ c.creates, name ∈ all := hall c mem_cons_self
    have hroom : ∀ name ∈ c.creates, files.findIdx? (fun f => f.1 == name) = none →
        files.length < maxFiles := by
      intro name hname hfind
      have hsub : ∀ other ∈ name :: files.map Prod.fst, other ∈ all := by
        intro other hmem
        rcases mem_cons.mp hmem with rfl | hmem
        · exact hcreates other hname
        · exact hfiles other hmem
      have hle := length_le_dedup
        (nodup_cons.mpr ⟨notMem_names hfind, hl.distinct h.left.holds⟩) hsub
      rw [length_cons, length_map] at hle
      omega
    obtain ⟨out, out', s₁, s₁', files₁, hcall, hcall', hout, hnext, hnames⟩ :=
      h.callOn hl hl' hc.1 hroom
    have hstep : nextOn fs fuel c s = s₁ := by
      rw [nextOn, hcall]
    have hrest := hc.2
    rw [hstep] at hrest
    have hfiles₁ : ∀ name ∈ files₁.map Prod.fst, name ∈ all := by
      intro name hmem
      rcases hnames name hmem with hmem | hmem
      · exact hfiles name hmem
      · exact hcreates name hmem
    obtain ⟨outs, outs', s₂, s₂', hrun, hrun', houts⟩ := ih hnext hrest
      (fun c' hmem => hall c' (mem_cons_of_mem c hmem)) hfiles₁
    refine ⟨out :: outs, out' :: outs', s₂, s₂', ?_, ?_, ?_⟩
    · rw [Vfs.runOn, hcall]
      dsimp only
      rw [hrun]
      rfl
    · rw [Vfs.runOn, hcall']
      dsimp only
      rw [hrun']
      rfl
    · rw [map_cons, map_cons, hout, houts]

end Vfs

end NeverMind
