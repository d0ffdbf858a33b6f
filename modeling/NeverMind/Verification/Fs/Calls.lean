import NeverMind.Verification.Fs.TmpfsFiles

/-! # Calls of the file system

The file table and the table of vnodes represent a file store, and every call computes what the
store computes. -/

namespace NeverMind

open Tmpfs FileStore Option

def Target.Within (n : ℕ) : Target → Prop
  | .root => True
  | .file k => k < n

theorem Target.Within.mono {n m : ℕ} {t : Target} (h : t.Within n) (hle : n ≤ m) : t.Within m := by
  cases t with
  | root => trivial
  | file k => exact Nat.lt_of_lt_of_le h hle

namespace Vfs

/-- An entry of the file table that holds an open descriptor, with `n` files. -/
structure Opened (n : ℕ) (f : NmFile NodeRef) (d : Handle) : Prop where
  used : f.used = true
  vnode : f.vnode = some (nodeOf d.target)
  offset : f.offset = d.offset
  small : d.offset < 2 ^ 63
  within : d.target.Within n

/-- An entry of the file table, and the descriptor it represents. -/
inductive Entry (n : ℕ) (f : NmFile NodeRef) : Option Handle → Prop where
  | closed (hunused : f.used = false) : Entry n f none
  | opened {d : Handle} (hopened : Opened n f d) : Entry n f (some d)

/-- The state of `vfs.c` over the memory file system represents a store. -/
structure Refines (a : FileStore) (s : Vfs Tmpfs NodeRef) : Prop where
  mounted : s.rootFs = true
  root : s.rootVnode = some 0
  files : Holds a.files s.nodes
  entry : ∀ i, Entry a.files.length (s.fdTable i) (a.handles i)

variable {a : FileStore} {s : Vfs Tmpfs NodeRef} {n m : ℕ}

theorem Opened.mono {f : NmFile NodeRef} {d : Handle} (h : Opened n f d) (hle : n ≤ m) :
    Opened m f d :=
  ⟨h.used, h.vnode, h.offset, h.small, h.within.mono hle⟩

theorem Entry.mono {f : NmFile NodeRef} {d : Option Handle} (h : Entry n f d) (hle : n ≤ m) :
    Entry m f d := by
  cases h with
  | closed hunused => exact .closed hunused
  | opened hopened => exact .opened (hopened.mono hle)

theorem Entry.isNone {f : NmFile NodeRef} {d : Option Handle} (h : Entry n f d) :
    (!f.used) = d.isNone := by
  cases h with
  | closed hunused => simp [hunused]
  | opened hopened => simp [hopened.used]

theorem Refines.setFile (h : Refines a s) (i : FileRef) {f : NmFile NodeRef} {d : Option Handle}
    (he : Entry a.files.length f d) : Refines (a.setHandle i d) (s.setFile i f) := by
  refine ⟨h.mounted, h.root, h.files, ?_⟩
  intro j
  by_cases hj : j = i
  · subst hj
    simpa [Vfs.setFile, setHandle] using he
  · simpa [Vfs.setFile, setHandle, hj] using h.entry j

theorem Refines.setNodes (h : Refines a s) {files : List (List Byte × List Byte)} {t : Tmpfs}
    (hfiles : Holds files t) (hle : a.files.length ≤ files.length) :
    Refines { a with files := files } { s with nodes := t } :=
  ⟨h.mounted, h.root, hfiles, fun i => (h.entry i).mono hle⟩

/-! ## Descriptors -/

theorem handle_cases (fd : ℤ) (a : FileStore) :
    a.handle fd = none ∨ ∃ i d, a.handle fd = some (i, d) ∧ a.handles i = some d := by
  unfold handle
  split
  · dsimp only
    cases hd : a.handles ⟨fd.toNat, _⟩ with
    | none => exact .inl rfl
    | some d => exact .inr ⟨_, d, rfl, hd⟩
  · exact .inl rfl

theorem Refines.opened (h : Refines a s) {i : FileRef} {d : Handle} (hd : a.handles i = some d) :
    Opened a.files.length (s.fdTable i) d := by
  have hentry := h.entry i
  rw [hd] at hentry
  cases hentry with
  | opened hopened => exact hopened

theorem Refines.getFile (h : Refines a s) (fd : ℤ) : s.getFile fd = (a.handle fd).map Prod.fst := by
  unfold Vfs.getFile handle
  split
  · rename_i hrange
    dsimp only
    have hnone := (h.entry ⟨fd.toNat, by omega⟩).isNone
    cases hd : a.handles ⟨fd.toNat, by omega⟩ with
    | none =>
      rw [hd] at hnone
      simpa using hnone
    | some d =>
      rw [hd] at hnone
      simpa using hnone
  · rfl

theorem Refines.ops (h : Refines a s) {t : Target} (ht : t.Within a.files.length) :
    (s.nodes.nodes (nodeOf t)).ops = true := by
  cases t with
  | root => exact h.files.root.ops
  | file k => exact (h.files.file k ht).ops

theorem Refines.getVnode (h : Refines a s) (fd : ℤ) :
    s.getVnode filesystem fd = (a.handle fd).map fun r => (r.1, nodeOf r.2.target) := by
  unfold Vfs.getVnode
  rw [h.getFile]
  rcases handle_cases fd a with hnone | ⟨i, d, hsome, hd⟩
  · rw [hnone]
    rfl
  · have hopened := h.opened hd
    have hops := h.ops hopened.within
    simp [hsome, hopened.vnode, filesystem, hops]

/-- The entry after a transfer of `n` bytes. -/
theorem advance_eq {i : FileRef} {n : ℕ} (hend : (s.fdTable i).offset + n < 2 ^ 64) :
    s.advance i n = s.setFile i { s.fdTable i with offset := (s.fdTable i).offset + n } := by
  unfold advance
  by_cases hn : 0 < (n : ℤ)
  · rw [if_pos hn, Int.toNat_natCast, u64_of_lt hend]
  · have hzero : n = 0 := by omega
    subst hzero
    rw [if_neg hn]
    simp [Vfs.setFile]

theorem advance_of_neg {i : FileRef} {r : ℤ} (h : r < 0) : s.advance i r = s := by
  rw [advance, if_neg (by omega)]

theorem Refines.advance (h : Refines a s) {i : FileRef} {d : Handle} (hd : a.handles i = some d)
    {n : ℕ} (hend : d.offset + n < 2 ^ 63) :
    Refines (a.setHandle i (some ⟨d.target, d.offset + n⟩)) (s.advance i n) := by
  have hopened := h.opened hd
  rw [advance_eq (by rw [hopened.offset]; omega), hopened.offset]
  apply h.setFile
  exact .opened ⟨hopened.used, hopened.vnode, rfl, hend, hopened.within⟩

/-! ## Reads and writes -/

theorem contents_file {a : FileStore} {k : ℕ} (hk : k < a.files.length) :
    a.contents (.file k) = a.files[k].2 := by
  simp [contents, hk]

theorem length_take_drop_le {l : List Byte} {offset bound : ℕ} (len : ℕ) (hl : l.length < bound)
    (hoffset : offset < bound) : offset + ((l.drop offset).take len).length < bound := by
  rw [List.length_take, List.length_drop]
  omega

theorem Refines.fsRead (h : Refines a s) (fd : ℤ) (buf : Bool) (len : ℕ) :
    (s.fsRead filesystem fd buf len).1 = (a.read fd buf len).1 ∧
      Refines (a.read fd buf len).2 (s.fsRead filesystem fd buf len).2 := by
  unfold Vfs.fsRead FileStore.read
  rw [h.getVnode]
  cases buf with
  | false =>
    rcases handle_cases fd a with hnone | ⟨i, d, hsome, _⟩
    · simp [hnone, h]
    · simp [hsome, h]
  | true =>
    rcases handle_cases fd a with hnone | ⟨i, ⟨target, offset⟩, hsome, hd⟩
    · simp [hnone, h]
    · have hopened := h.opened hd
      rw [hsome]
      dsimp only [map_some]
      rw [hopened.offset]
      cases target with
      | root =>
        have hread := tmpfsRead_root h.files offset len
        simp only [filesystem, nodeOf, hread, true_and]
        rw [advance_of_neg nmErr_nmEfail_neg]
        exact h
      | file k =>
        have hk : k < a.files.length := hopened.within
        have hread := tmpfsRead_file h.files hk offset len
        have hlength := (h.files.file k hk).length
        have hsmall := (h.files.file k hk).small
        simp only [filesystem, nodeOf, hread, contents_file hk, true_and]
        exact h.advance hd (length_take_drop_le len (by omega) hopened.small)

def grants (c : FsCall) (s : Vfs Tmpfs NodeRef) : Bool :=
  match c with
  | .write alloc fd _ len =>
    match s.getVnode filesystem fd with
    | some (i, node) => granted alloc ((s.fdTable i).offset + len) (s.nodes.nodes node)
    | none => true
  | _ => true

variable {fuel : ℕ}

theorem Refines.fsWrite_file (h : Refines a s) (hfuel : 64 ≤ fuel) (alloc : NmAlloc) {fd : ℤ}
    {i : FileRef} {k offset len : ℕ} (src : ℕ → Byte)
    (hsome : a.handle fd = some (i, ⟨.file k, offset⟩)) (hd : a.handles i = some ⟨.file k, offset⟩)
    (hoffset : offset ≤ (a.contents (.file k)).length) (hend : offset + len < 2 ^ 63) :
    ∃ s', s.fsWrite filesystem fuel alloc fd (some src) len =
        some ((a.write (s.grants (.write alloc fd (some src) len)) fd (some src) len).1, s') ∧
      Refines (a.write (s.grants (.write alloc fd (some src) len)) fd (some src) len).2 s' ∧
      (s.grants (.write alloc fd (some src) len) = false → s' = s) := by
  have hopened := h.opened hd
  have hk : k < a.files.length := hopened.within
  rw [contents_file hk] at hoffset
  have hgrants : s.grants (.write alloc fd (some src) len) =
      granted alloc (offset + len) (s.nodes.nodes (nodeAt k)) := by
    simp [grants, h.getVnode, hsome, hopened.offset, nodeOf]
  have hwrite := tmpfsWrite_file h.files hk hfuel alloc src hoffset hend
  unfold Vfs.fsWrite write
  rw [hgrants, h.getVnode, hsome]
  dsimp only [map_some, filesystem, nodeOf]
  rw [hopened.offset]
  rcases hwrite with ⟨hgranted, t, hcall, hfiles⟩ | ⟨hrefused, hcall⟩
  · rw [hcall, hgranted]
    refine ⟨_, rfl, ?_, nofun⟩
    have hmoved := (h.setNodes hfiles (by simp)).advance (i := i) (d := ⟨.file k, offset⟩) hd hend
    simpa [hk] using hmoved
  · rw [hcall, hrefused]
    refine ⟨_, rfl, ?_, ?_⟩
    · simp only [Bool.false_eq_true, if_false]
      rw [advance_of_neg nmErr_nmEfail_neg]
      exact h
    · intro _
      exact advance_of_neg nmErr_nmEfail_neg

theorem Refines.fsWrite (h : Refines a s) (hfuel : 64 ≤ fuel) (alloc : NmAlloc) (fd : ℤ)
    (buf : Option (ℕ → Byte)) (len : ℕ) (hallowed : Allowed (.write alloc fd buf len) a) :
    ∃ s', s.fsWrite filesystem fuel alloc fd buf len =
        some ((a.write (s.grants (.write alloc fd buf len)) fd buf len).1, s') ∧
      Refines (a.write (s.grants (.write alloc fd buf len)) fd buf len).2 s' ∧
      (s.grants (.write alloc fd buf len) = false → s' = s) := by
  rcases handle_cases fd a with hnone | ⟨i, ⟨target, offset⟩, hsome, hd⟩
  · refine ⟨s, ?_, ?_, fun _ => rfl⟩
    · simp [Vfs.fsWrite, write, h.getVnode, hnone]
    · simpa [write, hnone] using h
  · cases buf with
    | none =>
      refine ⟨s, ?_, ?_, fun _ => rfl⟩
      · simp [Vfs.fsWrite, write, h.getVnode, hsome]
      · simpa [write, hsome] using h
    | some src =>
      cases target with
      | file k =>
        obtain ⟨hoffset, hend⟩ := hallowed i k offset hsome
        exact h.fsWrite_file hfuel alloc src hsome hd hoffset hend
      | root =>
        have hwrite := tmpfsWrite_root h.files fuel alloc src
          (s.fdTable i).offset len
        refine ⟨s, ?_, ?_, fun _ => rfl⟩
        · simp only [Vfs.fsWrite, write, h.getVnode, hsome, map_some]
          simp [filesystem, nodeOf, hwrite, advance_of_neg nmErr_nmEfail_neg]
        · simpa [write, hsome] using h

/-! ## Seeks and closes -/

theorem Refines.seekBase (h : Refines a s) {i : FileRef} {d : Handle} (hd : a.handles i = some d)
    (whence : ℤ) : s.seekBase filesystem i whence = a.seekBase d whence := by
  have hopened := h.opened hd
  have hsmall := hopened.small
  have hsize : i64 (s.nodes.nodes (nodeOf d.target)).size = (a.contents d.target).length := by
    have hwithin := hopened.within
    cases htarget : d.target with
    | root => simp [contents, nodeOf, h.files.root.size, i64]
    | file k =>
      rw [htarget] at hwithin
      have hfile := h.files.file k hwithin
      have hbound : (s.nodes.nodes (nodeOf (.file k))).size < 2 ^ 63 := hfile.small
      rw [contents_file hwithin, hfile.length]
      exact i64_of_lt (by omega) (by omega)
  unfold Vfs.seekBase FileStore.seekBase
  rw [hopened.offset, hopened.vnode, i64_of_lt (by omega) (by omega)]
  dsimp only [filesystem]
  rw [hsize]

theorem Refines.seekBase_bounds (h : Refines a s) {i : FileRef} {d : Handle}
    (hd : a.handles i = some d) {whence base : ℤ} (hbase : a.seekBase d whence = some base) :
    0 ≤ base ∧ base < 2 ^ 63 := by
  have hopened := h.opened hd
  have hsmall := hopened.small
  have hlength : (a.contents d.target).length < 2 ^ 63 := by
    have hwithin := hopened.within
    cases htarget : d.target with
    | root => simp [contents]
    | file k =>
      rw [htarget] at hwithin
      have hfile := h.files.file k hwithin
      rw [contents_file hwithin, hfile.length]
      exact hfile.small
  unfold FileStore.seekBase at hbase
  split at hbase
  · cases hbase
    omega
  · split at hbase
    · cases hbase
      omega
    · split at hbase
      · cases hbase
        omega
      · cases hbase

theorem Refines.fsLseek (h : Refines a s) (fd : ℤ) {offset : ℤ} (whence : ℤ)
    (hlow : -2 ^ 63 ≤ offset) (hhigh : offset < 2 ^ 63) :
    (s.fsLseek filesystem fd offset whence).1 = (a.lseek fd offset whence).1 ∧
      Refines (a.lseek fd offset whence).2 (s.fsLseek filesystem fd offset whence).2 := by
  unfold Vfs.fsLseek lseek
  rw [h.getFile]
  rcases handle_cases fd a with hnone | ⟨i, d, hsome, hd⟩
  · simp [hnone, h]
  · rw [hsome]
    dsimp only [map_some]
    rw [h.seekBase hd]
    cases hbase : a.seekBase d whence with
    | none => simp [h]
    | some base =>
      obtain ⟨hnonneg, hlt⟩ := h.seekBase_bounds hd hbase
      dsimp only
      by_cases hfits : base + offset < 2 ^ 63
      · rw [i64_of_lt (by omega) hfits]
        by_cases hneg : base + offset < 0
        · rw [if_pos hneg, if_neg (by omega)]
          exact ⟨rfl, h⟩
        · rw [if_neg hneg, if_pos ⟨by omega, hfits⟩]
          refine ⟨rfl, ?_⟩
          have hopened := h.opened hd
          apply h.setFile
          exact .opened ⟨hopened.used, hopened.vnode, rfl, by dsimp only; omega, hopened.within⟩
      · -- The sum wraps to a negative number.
        rw [if_pos (i64_neg_of_le (by omega) (by omega)), if_neg (by omega)]
        exact ⟨rfl, h⟩

theorem Refines.fsClose (h : Refines a s) (fd : ℤ) :
    (s.fsClose fd).1 = (a.close fd).1 ∧ Refines (a.close fd).2 (s.fsClose fd).2 := by
  unfold Vfs.fsClose close
  rw [h.getFile]
  rcases handle_cases fd a with hnone | ⟨i, d, hsome, _⟩
  · simp [hnone, h]
  · rw [hsome]
    exact ⟨rfl, h.setFile i (.closed rfl)⟩

/-! ## Paths -/

theorem lookupAll_file {k : ℕ} (h : Refines a s) (hk : k < a.files.length) (fuel : ℕ)
    (parts : List (List Byte)) :
    lookupAll filesystem fuel s.nodes (nodeAt k) parts =
      some (if parts = [] then some (nodeAt k) else none) := by
  cases parts with
  | nil => rfl
  | cons part parts =>
    have hlookup := tmpfsLookup_file h.files hk fuel part
    simp [lookupAll, filesystem, hlookup]

theorem indexOf_lt {name : List Byte} {k : ℕ} (h : a.indexOf name = some k) : k < a.files.length :=
  (List.findIdx?_eq_some_iff_getElem.mp h).1

/-- The directory has no directories in it, so that a walk of two parts fails. -/
theorem lookupAll_root (h : Refines a s) (hfuel : 512 ≤ fuel) (part : List Byte)
    (parts : List (List Byte)) :
    lookupAll filesystem fuel s.nodes 0 (part :: parts) =
      some (if parts = [] then (a.indexOf part).map nodeAt else none) := by
  have hlookup := tmpfsLookup_root h.files hfuel part
  change s.nodes.tmpfsLookup fuel 0 part = some ((a.indexOf part).map nodeAt) at hlookup
  rw [lookupAll]
  dsimp only [filesystem]
  rw [hlookup]
  cases hindex : a.indexOf part with
  | none => simp
  | some k =>
    have hwalk := lookupAll_file h (indexOf_lt hindex) fuel parts
    simpa [filesystem] using hwalk

def leafOf (path : List Byte) : List Byte := copyName ((components path).getLastD [])

variable {path : List Byte}

theorem Refines.resolvePath (h : Refines a s) (hfuel : 512 ≤ fuel) (hshort : ShortParts path) :
    s.resolvePath filesystem fuel path false =
      some ((a.find path).map fun t => (nodeOf t, leafOf path)) := by
  unfold Vfs.resolvePath find
  rw [h.root]
  dsimp only
  by_cases habs : path.head? = some slash
  · rw [if_neg (by simp [h.mounted, habs]), if_neg (by simp [habs]),
      fsPathSplit_eq path (by decide), map_take_of_shortParts hshort]
    unfold leafOf
    cases hparts : components path with
    | nil => simp [copyName, nodeOf]
    | cons part parts =>
      have hwalk := lookupAll_root h hfuel part parts
      cases parts with
      | nil =>
        simp only [List.length_singleton, Nat.one_le_ofNat, if_true, Bool.false_eq_true,
          if_false, hwalk, map_some, map_map]
        rfl
      | cons next parts => split <;> simp_all
  · rw [if_pos (.inr habs), if_pos habs]
    rfl

theorem Refines.resolveParent (h : Refines a s) (hfuel : 512 ≤ fuel) (hshort : ShortParts path)
    (hmissing : a.find path = none) :
    (∃ name, newName path = some name ∧ name.length ≤ 63 ∧ a.indexOf name = none ∧
      s.resolvePath filesystem fuel path true = some (some (0, name))) ∨
    (newName path = none ∧ (s.resolvePath filesystem fuel path true = some none ∨
        ∃ k < a.files.length, s.resolvePath filesystem fuel path true =
            some (some (nodeAt k, leafOf path)))) := by
  unfold Vfs.resolvePath newName
  rw [h.root]
  dsimp only
  by_cases habs : path.head? = some slash
  · have hguard : ¬ (s.rootFs = false ∨ path.head? ≠ some slash) := by simp [h.mounted, habs]
    rw [if_neg hguard, if_neg (not_not_intro habs), fsPathSplit_eq path (by decide),
      map_take_of_shortParts hshort]
    unfold leafOf
    rw [find, if_neg (not_not_intro habs)] at hmissing
    cases hparts : components path with
    | nil => simp [hparts] at hmissing
    | cons part parts =>
      cases parts with
      | nil =>
        have hlen := hshort part (by simp [hparts])
        refine .inl ⟨part, rfl, hlen, by simpa [hparts] using hmissing, ?_⟩
        simp [lookupAll, copyName, nmNameMax, List.take_of_length_le hlen]
      | cons next parts =>
        refine .inr ⟨rfl, ?_⟩
        have hwalk := lookupAll_root h hfuel part (next :: parts).dropLast
        by_cases hmany : (part :: next :: parts).length ≤ 16
        · rw [if_pos hmany]
          simp only [if_true, List.dropLast_cons_cons, hwalk]
          by_cases hlast : (next :: parts).dropLast = []
          · cases hindex : a.indexOf part with
            | none => simp
            | some k => exact .inr ⟨k, indexOf_lt hindex, by simp [hlast]⟩
          · simp [hlast]
        · rw [if_neg hmany]
          exact .inl rfl
  · have hguard : s.rootFs = false ∨ path.head? ≠ some slash := .inr habs
    rw [if_pos hguard, if_pos habs]
    exact .inr ⟨rfl, .inl rfl⟩

theorem find_within {t : Target} (h : a.find path = some t) : t.Within a.files.length := by
  unfold find at h
  split at h
  · cases h
  · split at h
    · cases h
      trivial
    · rw [map_eq_some_iff] at h
      obtain ⟨k, hindex, rfl⟩ := h
      exact indexOf_lt hindex
    · cases h

/-! ## Opens and status -/

theorem Refines.openVnode (h : Refines a s) (t : Target) (ht : t.Within a.files.length)
    (flags : ℕ) :
    (s.openVnode filesystem (nodeOf t) flags).1 = (a.grant t).1 ∧
      Refines (a.grant t).2 (s.openVnode filesystem (nodeOf t) flags).2 := by
  have hfree : (List.finRange 64).find? (fun i => !(s.fdTable i).used) = a.freeHandle := by
    unfold freeHandle
    congr 1
    funext i
    exact (h.entry i).isNone
  unfold Vfs.openVnode grant allocFd
  have hops : filesystem.hasOps (nodeOf t) s.nodes = true := h.ops ht
  rw [hfree, if_neg (by simp [hops])]
  cases a.freeHandle with
  | none => exact ⟨rfl, h⟩
  | some i =>
    refine ⟨rfl, ?_⟩
    have hgranted := h.setFile i (f := ⟨true, flags, 0, some (nodeOf t)⟩)
      (d := some ⟨t, 0⟩) (.opened ⟨rfl, rfl, rfl, by norm_num, ht⟩)
    have hopen : filesystem.openNode (nodeOf t) flags s.nodes = 0 := rfl
    simpa [Vfs.setFile, hopen] using hgranted

theorem indexOf_of_newName {name : List Byte} (hfind : a.find path = none)
    (hname : newName path = some name) : a.indexOf name = none := by
  unfold find at hfind
  unfold newName at hname
  split at hname
  · cases hname
  · rename_i habs
    rw [if_neg habs] at hfind
    split at hname
    · rename_i hparts
      cases hname
      simpa [hparts] using hfind
    · cases hname

/-- What a call of `fs_open` does: it opens what the path names, or a new file. -/
theorem Refines.fsOpen_eq (h : Refines a s) (hfuel : 512 ≤ fuel) {path : List Byte}
    (hshort : ShortParts path) (flags : ℕ) :
    s.fsOpen filesystem fuel (some path) flags = some (match a.find path with
        | some t => s.openVnode filesystem (nodeOf t) flags
        | none =>
          match decide (flags &&& nmOCreat ≠ 0), newName path with
          | true, some name =>
            if a.files.length < maxFiles then
              { s with nodes := s.nodes.created name a.files.length }.openVnode
                filesystem (nodeAt a.files.length) flags
            else (nmErr nmEfail, s)
          | _, _ => (nmErr nmEfail, s)) := by
  unfold Vfs.fsOpen
  dsimp only
  rw [h.resolvePath hfuel hshort]
  cases hfind : a.find path with
  | some t => rfl
  | none =>
    dsimp only [map_none]
    by_cases hcreate : flags &&& nmOCreat = 0
    · simp only [hcreate, if_true]
      rfl
    · have hflag : decide (flags &&& nmOCreat ≠ 0) = true := by simpa using hcreate
      rw [if_neg hcreate, hflag]
      rcases h.resolveParent hfuel hshort hfind with
        ⟨name, hname, hlen, hnew, hdir⟩ | ⟨hname, hnone | ⟨k, hk, hdir⟩⟩
      · have hmake := tmpfsCreate_root h.files hfuel hlen hnew
        rw [hdir, hname]
        dsimp only [filesystem]
        rw [hmake]
        by_cases hroom : a.files.length < maxFiles
        · rw [if_pos hroom, if_pos hroom]
        · rw [if_neg hroom, if_neg hroom]
      · rw [hnone, hname]
      · have hmake := tmpfsCreate_file h.files hk fuel (leafOf path) .file 0o644
        rw [hdir, hname]
        dsimp only [filesystem]
        rw [hmake]

theorem Refines.fsOpen (h : Refines a s) (hfuel : 512 ≤ fuel) {path : Option (List Byte)}
    (hshort : ∀ p ∈ path, ShortParts p) (flags : ℕ) :
    ∃ s', s.fsOpen filesystem fuel path flags =
        some ((a.openFile path (flags &&& nmOCreat ≠ 0)).1, s') ∧
      Refines (a.openFile path (flags &&& nmOCreat ≠ 0)).2 s' := by
  cases path with
  | none => exact ⟨s, rfl, h⟩
  | some path =>
    rw [h.fsOpen_eq hfuel (hshort path rfl)]
    unfold openFile
    dsimp only
    cases hfind : a.find path with
    | some t =>
      obtain ⟨hret, hnext⟩ := h.openVnode t (find_within hfind) flags
      exact ⟨_, by rw [← hret], hnext⟩
    | none =>
      dsimp only
      cases decide (flags &&& nmOCreat ≠ 0) with
      | false => exact ⟨s, rfl, h⟩
      | true =>
        cases hname : newName path with
        | none => exact ⟨s, rfl, h⟩
        | some name =>
          dsimp only
          by_cases hroom : a.files.length < maxFiles
          · rw [if_pos hroom, if_pos hroom]
            have hmade := h.setNodes
              (h.files.created hroom (indexOf_of_newName hfind hname)) (by simp)
            obtain ⟨hret, hnext⟩ := hmade.openVnode (.file a.files.length)
              (by simp [Target.Within]) flags
            exact ⟨_, by rw [← hret]; rfl, hnext⟩
          · rw [if_neg hroom, if_neg hroom]
            exact ⟨s, rfl, h⟩

theorem Refines.statOf (h : Refines a s) {t : Target} (ht : t.Within a.files.length) :
    s.nodes.tmpfsStat (nodeOf t) = a.statOf t := by
  cases t with
  | root => exact tmpfsStat_root h.files
  | file k =>
    have hk : k < a.files.length := ht
    rw [FileStore.statOf, contents_file hk]
    exact tmpfsStat_file h.files hk

theorem Refines.fsStat (h : Refines a s) (hfuel : 512 ≤ fuel) {path : Option (List Byte)}
    (hshort : ∀ p ∈ path, ShortParts p) (st : Bool) :
    s.fsStat filesystem fuel path st = some (a.stat path st) := by
  unfold Vfs.fsStat stat
  cases path with
  | none => rfl
  | some path =>
    cases st with
    | false => rfl
    | true =>
      dsimp only
      rw [h.resolvePath hfuel (hshort path rfl)]
      cases hfind : a.find path with
      | none => rfl
      | some t =>
        have hwithin := find_within hfind
        simp [filesystem, h.ops hwithin, h.statOf hwithin]

end Vfs

end NeverMind
