import NeverMind.Library.Overwrite
import NeverMind.Verification.Fs.Paths

/-! # The abstract file store

What the virtual file system over the memory file system is for: files that are lists of bytes,
kept under names in one directory, and descriptors with an offset each. -/

namespace NeverMind

open List

/-- What a descriptor refers to. -/
inductive Target where
  | root
  | file (index : ℕ)
  deriving Repr, DecidableEq

/-- An open descriptor. -/
structure Handle where
  target : Target
  offset : ℕ
  deriving Repr, DecidableEq

/-- The files, each with its name, in the order of their creation, and the descriptors. -/
structure FileStore where
  files : List (List Byte × List Byte)
  handles : FileRef → Option Handle

/-! ## The names of a list of files -/

variable {files : List (List Byte × List Byte)} {name : List Byte}

theorem names_set {k : ℕ} (hk : k < files.length) {f : List Byte × List Byte}
    (hname : f.1 = files[k].1) : (files.set k f).map Prod.fst = files.map Prod.fst := by
  have hmap : k < (files.map Prod.fst).length := by simpa using hk
  have hget : files[k].1 = (files.map Prod.fst)[k] := by simp
  rw [map_set, hname, hget, set_getElem_self]

theorem notMem_names (hnew : files.findIdx? (fun f => f.1 == name) = none) :
    name ∉ files.map Prod.fst := by
  intro hmem
  obtain ⟨f, hf, rfl⟩ := mem_map.mp hmem
  simpa using findIdx?_eq_none_iff.mp hnew f hf

theorem nodup_names_append (hnodup : (files.map Prod.fst).Nodup)
    (hnew : files.findIdx? (fun f => f.1 == name) = none) (bytes : List Byte) :
    ((files ++ [(name, bytes)]).map Prod.fst).Nodup := by
  rw [map_append, nodup_append]
  refine ⟨hnodup, by simp, ?_⟩
  rintro a ha b hb rfl
  obtain rfl := mem_singleton.mp hb
  exact notMem_names hnew ha

/-- The calls of `vfs.c`. -/
inductive FsCall where
  | openFile (path : Option (List Byte)) (flags : ℕ)
  | read (fd : ℤ) (buf : Bool) (len : ℕ)
  | write (alloc : NmAlloc) (fd : ℤ) (buf : Option (ℕ → Byte)) (len : ℕ)
  | lseek (fd offset whence : ℤ)
  | close (fd : ℤ)
  | stat (path : Option (List Byte)) (st : Bool)

/-- What a call returns: its result, the bytes it stored and the status it stored. -/
structure FsOut where
  ret : ℤ
  bytes : List Byte
  stat : Option NmStat
  deriving Repr, DecidableEq

def FsOut.number (ret : ℤ) : FsOut := ⟨ret, [], none⟩

namespace FileStore

def empty : FileStore := ⟨[], fun _ => none⟩

def maxFiles : ℕ := 511

def indexOf (name : List Byte) (a : FileStore) : Option ℕ := a.files.findIdx? fun f => f.1 == name

/-- The contents of what a descriptor refers to; the directory has none. -/
def contents (t : Target) (a : FileStore) : List Byte :=
  match t with
  | .root => []
  | .file i => (a.files.getD i ([], [])).2

def find (path : List Byte) (a : FileStore) : Option Target :=
  if path.head? ≠ some slash then none
  else
    match components path with
    | [] => some .root
    | [name] => (a.indexOf name).map .file
    | _ => none

/-- The name under which a missing file can be created. -/
def newName (path : List Byte) : Option (List Byte) :=
  if path.head? ≠ some slash then none
  else
    match components path with
    | [name] => some name
    | _ => none

def setHandle (i : FileRef) (h : Option Handle) (a : FileStore) : FileStore :=
  { a with handles := Function.update a.handles i h }

def freeHandle (a : FileStore) : Option FileRef :=
  (finRange 64).find? fun i => (a.handles i).isNone

def grant (t : Target) (a : FileStore) : ℤ × FileStore :=
  match a.freeHandle with
  | none => (nmErr nmEfail, a)
  | some i => ((i.val : ℤ), a.setHandle i (some ⟨t, 0⟩))

def openFile (path : Option (List Byte)) (create : Bool) (a : FileStore) : ℤ × FileStore :=
  match path with
  | none => (nmErr nmEfail, a)
  | some path =>
    match a.find path with
    | some t => a.grant t
    | none =>
      match create, newName path with
      | true, some name =>
        if a.files.length < maxFiles then
          { a with files := a.files ++ [(name, [])] }.grant (.file a.files.length)
        else (nmErr nmEfail, a)
      | _, _ => (nmErr nmEfail, a)

def handle (fd : ℤ) (a : FileStore) : Option (FileRef × Handle) :=
  if h : 0 ≤ fd ∧ fd < 64 then
    let i : FileRef := ⟨fd.toNat, toNat_lt_nmFdMax h⟩
    (a.handles i).map fun handle => (i, handle)
  else none

def read (fd : ℤ) (buf : Bool) (len : ℕ) (a : FileStore) : (ℤ × List Byte) × FileStore :=
  match a.handle fd, buf with
  | some (i, ⟨.file k, offset⟩), true =>
    let bytes := ((a.contents (.file k)).drop offset).take len
    ((bytes.length, bytes), a.setHandle i (some ⟨.file k, offset + bytes.length⟩))
  | _, _ => ((nmErr nmEfail, []), a)

/-- A write that is not granted the memory it needs has no effect. -/
def write (granted : Bool) (fd : ℤ) (buf : Option (ℕ → Byte)) (len : ℕ) (a : FileStore) :
    ℤ × FileStore :=
  match a.handle fd, buf with
  | some (i, ⟨.file k, offset⟩), some src =>
    if granted then
      let f := a.files.getD k ([], [])
      let a := { a with files := a.files.set k (f.1, overwrite offset (frontOf len src) f.2) }
      (len, a.setHandle i (some ⟨.file k, offset + len⟩))
    else (nmErr nmEfail, a)
  | _, _ => (nmErr nmEfail, a)

def seekBase (h : Handle) (whence : ℤ) (a : FileStore) : Option ℤ :=
  if whence = nmSeekCur then some h.offset
  else if whence = nmSeekEnd then some (a.contents h.target).length
  else if whence = nmSeekSet then some 0
  else none

def lseek (fd offset whence : ℤ) (a : FileStore) : ℤ × FileStore :=
  match a.handle fd with
  | none => (nmErr nmEfail, a)
  | some (i, h) =>
    match a.seekBase h whence with
    | none => (nmErr nmEfail, a)
    | some base =>
      if 0 ≤ base + offset ∧ base + offset < 2 ^ 63 then
        (base + offset, a.setHandle i (some { h with offset := (base + offset).toNat }))
      else (nmErr nmEfail, a)

def close (fd : ℤ) (a : FileStore) : ℤ × FileStore :=
  match a.handle fd with
  | none => (nmErr nmEfail, a)
  | some (i, _) => (0, a.setHandle i none)

/-- The status of the directory or of a file. Files are numbered from 2. -/
def statOf (t : Target) (a : FileStore) : NmStat :=
  match t with
  | .root => ⟨1, 0, 0o755, 0, 0, 1, 0⟩
  | .file i =>
    let size := (a.contents (.file i)).length
    ⟨i + 2, size, 0o644, 0, 0, 1, (size + 511) / 512⟩

def stat (path : Option (List Byte)) (st : Bool) (a : FileStore) : ℤ × Option NmStat :=
  match path, st with
  | some path, true =>
    match a.find path with
    | none => (nmErr nmEfail, none)
    | some t => (0, some (a.statOf t))
  | _, _ => (nmErr nmEfail, none)

/-- One call. `granted` says whether a write gets the memory it needs. -/
def call (granted : Bool) (c : FsCall) (a : FileStore) : FsOut × FileStore :=
  match c with
  | .openFile path flags =>
    let r := a.openFile path (flags &&& nmOCreat ≠ 0)
    (.number r.1, r.2)
  | .read fd buf len =>
    let r := a.read fd buf len
    (⟨r.1.1, r.1.2, none⟩, r.2)
  | .write _ fd buf len =>
    let r := a.write granted fd buf len
    (.number r.1, r.2)
  | .lseek fd offset whence =>
    let r := a.lseek fd offset whence
    (.number r.1, r.2)
  | .close fd =>
    let r := a.close fd
    (.number r.1, r.2)
  | .stat path st =>
    let r := a.stat path st
    (⟨r.1, [], r.2⟩, a)

def run : List (FsCall × Bool) → FileStore → List FsOut × FileStore
  | [], a => ([], a)
  | (c, granted) :: cs, a =>
    let r := a.call granted c
    let rest := run cs r.2
    (r.1 :: rest.1, rest.2)

/-- The calls that are considered: components that fit a name, opens without truncation while a
descriptor is free, seeks by a signed 64-bit distance, and writes that start inside the file and
end below `2 ^ 63`. -/
def Allowed (c : FsCall) (a : FileStore) : Prop :=
  match c with
  | .openFile path flags =>
    flags &&& nmOTrunc = 0 ∧ (∀ p ∈ path, ShortParts p) ∧ a.freeHandle.isSome
  | .write _ fd _ len =>
    ∀ i k offset, a.handle fd = some (i, ⟨.file k, offset⟩) →
      offset ≤ (a.contents (.file k)).length ∧ offset + len < 2 ^ 63
  | .lseek _ offset _ => -2 ^ 63 ≤ offset ∧ offset < 2 ^ 63
  | .stat path _ => ∀ p ∈ path, ShortParts p
  | .read _ _ _ | .close _ => True

def AllowedRun : List (FsCall × Bool) → FileStore → Prop
  | [], _ => True
  | (c, granted) :: cs, a => Allowed c a ∧ AllowedRun cs (a.call granted c).2

end FileStore

/-! ## Runs on a file system -/

namespace Vfs

variable {T R : Type*}

def mountedOn (fs : Filesystem T R) (s : Vfs T R) : ℤ × Vfs T R := s.fsInit.fsMountRoot fs

def callOn (fs : Filesystem T R) (fuel : ℕ) (c : FsCall) (s : Vfs T R) :
    Option (FsOut × Vfs T R) :=
  match c with
  | .openFile path flags => (s.fsOpen fs fuel path flags).map fun r => (.number r.1, r.2)
  | .read fd buf len =>
    let r := s.fsRead fs fd buf len
    some (⟨r.1.1, r.1.2, none⟩, r.2)
  | .write alloc fd buf len => (s.fsWrite fs fuel alloc fd buf len).map fun r => (.number r.1, r.2)
  | .lseek fd offset whence =>
    let r := s.fsLseek fs fd offset whence
    some (.number r.1, r.2)
  | .close fd =>
    let r := s.fsClose fd
    some (.number r.1, r.2)
  | .stat path st => (s.fsStat fs fuel path st).map fun r => (⟨r.1, [], r.2⟩, s)

def runOn (fs : Filesystem T R) (fuel : ℕ) : List FsCall → Vfs T R →
    Option (List FsOut × Vfs T R)
  | [], s => some ([], s)
  | c :: cs, s =>
    match s.callOn fs fuel c with
    | none => none
    | some (out, s) => (runOn fs fuel cs s).map fun r => (out :: r.1, r.2)

def nextOn (fs : Filesystem T R) (fuel : ℕ) (c : FsCall) (s : Vfs T R) : Vfs T R :=
  match s.callOn fs fuel c with
  | none => s
  | some (_, s) => s

end Vfs

end NeverMind
