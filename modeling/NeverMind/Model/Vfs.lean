import NeverMind.Library.Fields
import NeverMind.Model.Fd

/-! # The virtual file system

`kernel/fs/vfs.c` over the operations of any file system. A path is the list of bytes before
its terminator. `fs_lock` is released before every call returns. Calls that follow links or grow
a buffer take fuel, and `none` says that they have not returned. -/

namespace NeverMind

def nmNameMax : ℕ := 64

theorem toNat_lt_nmFdMax {fd : ℤ} (h : 0 ≤ fd ∧ fd < 64) : fd.toNat < 64 := by
  omega

/-- `enum nm_node_type`. -/
inductive NodeType where
  | none
  | file
  | dir
  deriving Repr, DecidableEq

def nmORdonly : ℕ := 0

def nmOWronly : ℕ := 1

def nmORdwr : ℕ := 2

def nmOCreat : ℕ := 0x40

def nmOTrunc : ℕ := 0x200

def nmSeekSet : ℤ := 0

def nmSeekCur : ℤ := 1

def nmSeekEnd : ℤ := 2

/-- `struct nm_stat`. -/
structure NmStat where
  ino : ℕ
  size : ℕ
  mode : ℕ
  uid : ℕ
  gid : ℕ
  nlink : ℕ
  blocks : ℕ
  deriving Repr, DecidableEq

/-- `struct nm_file`, over the vnodes `R`. -/
structure NmFile (R : Type*) where
  used : Bool
  flags : ℕ
  offset : ℕ
  vnode : Option R
  deriving Repr, DecidableEq

/-- What `NM_ALLOC` returns for a size: null, or a buffer that holds what the memory held. -/
abbrev NmAlloc := ℕ → Option (ℕ → Byte)

/-- `struct nm_filesystem` and the operations of its vnodes, over the state `T` of the file
system and the vnodes `R`. Both file systems of the kernel set all four file operations. -/
structure Filesystem (T R : Type*) where
  mountRoot : T → Option R × T
  lookup : ℕ → R → List Byte → T → Option (Option R)
  create : ℕ → R → List Byte → NodeType → ℕ → T → Option (Option R × T)
  hasOps : R → T → Bool
  openNode : R → ℕ → T → ℤ
  read : R → ℕ → ℕ → T → ℤ × List Byte
  write : ℕ → NmAlloc → R → (ℕ → Byte) → ℕ → ℕ → T → Option (ℤ × T)
  stat : R → T → Option NmStat
  size : R → T → ℕ

/-- A descriptor of the file table. -/
abbrev FileRef := Fin 64

/-- The static variables of `vfs.c`, and the state of the file system. -/
structure Vfs (T R : Type*) where
  fdTable : FileRef → NmFile R
  rootFs : Bool
  rootVnode : Option R
  nodes : T

def slash : Byte := 47

/-- One part a round: skip slashes, copy at most 63 bytes, skip the rest of the part. A round
consumes a byte, so that as many rounds as the path has bytes are enough. -/
def splitLoop (maxParts : ℕ) : ℕ → ℕ → List Byte → Option (List (List Byte))
  | rounds, count, path =>
    match path.dropWhile (· == slash) with
    | [] => some []
    | b :: rest =>
      if maxParts ≤ count then none
      else
        match rounds with
        | 0 => none
        | rounds + 1 =>
          (splitLoop maxParts rounds (count + 1)
            ((b :: rest).dropWhile (· != slash))).map fun parts =>
              ((b :: rest).takeWhile (· != slash)).take (nmNameMax - 1) :: parts

def fsPathSplit (path : List Byte) (maxParts : ℕ) : Option (List (List Byte)) :=
  if maxParts = 0 then none else splitLoop maxParts path.length 0 path

/-- `fs_path_split` on the buffer of the path and the rows of `out_parts`. -/
def fsPathSplitRows (path : Option (List Byte)) (outParts : Option (List (List Byte)))
    (maxParts : ℤ) : Option (ℤ × List (List Byte)) :=
  match path, outParts with
  | some path, some parts =>
    if maxParts ≤ 0 then some (nmErr nmEfail, parts)
    else
      (splitFields (· == slash) 0 nmNameMax maxParts.toNat path.length path 0 parts).map fun r =>
        match r.1 with
        | some count => ((count : ℤ), r.2)
        | none => (nmErr nmEfail, r.2)
  | _, parts => some (nmErr nmEfail, parts.getD [])

namespace Vfs

variable {T R : Type*}

def copyName (src : List Byte) : List Byte := src.take (nmNameMax - 1)

/-- The loop of lookups in `resolve_path`. -/
def lookupAll (fs : Filesystem T R) (fuel : ℕ) (nodes : T) : R → List (List Byte) →
    Option (Option R)
  | cur, [] => some (some cur)
  | cur, part :: parts =>
    match fs.lookup fuel cur part nodes with
    | none => none
    | some none => some none
    | some (some next) => lookupAll fs fuel nodes next parts

/-- The vnode and the name of the last part. -/
def resolvePath (fs : Filesystem T R) (fuel : ℕ) (path : List Byte) (parentOnly : Bool)
    (s : Vfs T R) : Option (Option (R × List Byte)) :=
  match s.rootVnode with
  | none => some none
  | some root =>
    if s.rootFs = false ∨ path.head? ≠ some slash then some none
    else
      match fsPathSplit path 16 with
      | none => some none
      | some [] => some (some (root, []))
      | some (part :: parts) =>
        let all := part :: parts
        let walk := if parentOnly then all.dropLast else all
        (lookupAll fs fuel s.nodes root walk).map fun found =>
          found.map fun node => (node, copyName (all.getLastD []))

def setFile (fd : FileRef) (f : NmFile R) (s : Vfs T R) : Vfs T R :=
  { s with fdTable := Function.update s.fdTable fd f }

def allocFd (s : Vfs T R) : Option FileRef × Vfs T R :=
  match (List.finRange 64).find? fun i => !(s.fdTable i).used with
  | none => (none, s)
  | some i => (some i, s.setFile i ⟨true, 0, 0, none⟩)

def fsInit (s : Vfs T R) : Vfs T R :=
  { s with fdTable := fun _ => ⟨false, 0, 0, none⟩, rootFs := false, rootVnode := none }

def fsMountRoot (fs : Filesystem T R) (s : Vfs T R) : ℤ × Vfs T R :=
  match fs.mountRoot s.nodes with
  | (none, nodes) => (nmErr nmEfail, { s with nodes := nodes })
  | (some root, nodes) => (0, { s with nodes := nodes, rootFs := true, rootVnode := some root })

/-- The second half of `fs_open`: a descriptor for the vnode. -/
def openVnode (fs : Filesystem T R) (node : R) (flags : ℕ) (s : Vfs T R) : ℤ × Vfs T R :=
  if fs.hasOps node s.nodes = false then (nmErr nmEfail, s)
  else
    match s.allocFd with
    | (none, s) => (nmErr nmEfail, s)
    | (some fd, s) =>
      if fs.openNode node flags s.nodes ≠ 0 then
        (nmErr nmEfail, s.setFile fd { s.fdTable fd with used := false })
      else
        ((fd.val : ℤ),
          s.setFile fd { s.fdTable fd with vnode := some node, flags := flags, offset := 0 })

def fsOpen (fs : Filesystem T R) (fuel : ℕ) (path : Option (List Byte)) (flags : ℕ)
    (s : Vfs T R) : Option (ℤ × Vfs T R) :=
  match path with
  | none => some (nmErr nmEfail, s)
  | some path =>
    match s.resolvePath fs fuel path false with
    | none => none
    | some (some (node, _)) => some (s.openVnode fs node flags)
    | some none =>
      if flags &&& nmOCreat = 0 then some (nmErr nmEfail, s)
      else
        match s.resolvePath fs fuel path true with
        | none => none
        | some none => some (nmErr nmEfail, s)
        | some (some (dir, leaf)) =>
          match fs.create fuel dir leaf .file 0o644 s.nodes with
          | none => none
          | some (none, nodes) => some (nmErr nmEfail, { s with nodes := nodes })
          | some (some node, nodes) => some ({ s with nodes := nodes }.openVnode fs node flags)

/-- The entry of a descriptor in use. -/
def getFile (fd : ℤ) (s : Vfs T R) : Option FileRef :=
  if h : 0 ≤ fd ∧ fd < 64 then
    let i : FileRef := ⟨fd.toNat, toNat_lt_nmFdMax h⟩
    if (s.fdTable i).used then some i else none
  else none

/-- The entry and the vnode of a descriptor whose vnode has operations. -/
def getVnode (fs : Filesystem T R) (fd : ℤ) (s : Vfs T R) : Option (FileRef × R) :=
  match s.getFile fd with
  | none => none
  | some i =>
    match (s.fdTable i).vnode with
    | none => none
    | some node => if fs.hasOps node s.nodes then some (i, node) else none

/-- `if (n > 0) file->offset += n`. -/
def advance (i : FileRef) (n : ℤ) (s : Vfs T R) : Vfs T R :=
  if 0 < n then
    s.setFile i { s.fdTable i with offset := u64 ((s.fdTable i).offset + n.toNat) }
  else s

/-- The result is the count or an error, and the bytes stored to the buffer. -/
def fsRead (fs : Filesystem T R) (fd : ℤ) (buf : Bool) (len : ℕ) (s : Vfs T R) :
    (ℤ × List Byte) × Vfs T R :=
  match s.getVnode fs fd, buf with
  | some (i, node), true =>
    let r := fs.read node (s.fdTable i).offset len s.nodes
    (r, s.advance i r.1)
  | _, _ => ((nmErr nmEfail, []), s)

def fsWrite (fs : Filesystem T R) (fuel : ℕ) (alloc : NmAlloc) (fd : ℤ)
    (buf : Option (ℕ → Byte)) (len : ℕ) (s : Vfs T R) : Option (ℤ × Vfs T R) :=
  match s.getVnode fs fd, buf with
  | some (i, node), some src =>
    (fs.write fuel alloc node src (s.fdTable i).offset len s.nodes).map fun r =>
      (r.1, { s with nodes := r.2 }.advance i r.1)
  | _, _ => some (nmErr nmEfail, s)

/-- The base of a seek. -/
def seekBase (fs : Filesystem T R) (i : FileRef) (whence : ℤ) (s : Vfs T R) : Option ℤ :=
  if whence = nmSeekCur then some (i64 (s.fdTable i).offset)
  else if whence = nmSeekEnd then
    some (i64 (match (s.fdTable i).vnode with
      | some node => fs.size node s.nodes
      | none => 0))
  else if whence = nmSeekSet then some 0
  else none

/-- The sum wraps, as it does on the machine. -/
def fsLseek (fs : Filesystem T R) (fd offset whence : ℤ) (s : Vfs T R) : ℤ × Vfs T R :=
  match s.getFile fd with
  | none => (nmErr nmEfail, s)
  | some i =>
    match s.seekBase fs i whence with
    | none => (nmErr nmEfail, s)
    | some base =>
      let next := i64 (base + offset)
      if next < 0 then (nmErr nmEfail, s)
      else (next, s.setFile i { s.fdTable i with offset := next.toNat })

def fsClose (fd : ℤ) (s : Vfs T R) : ℤ × Vfs T R :=
  match s.getFile fd with
  | none => (nmErr nmEfail, s)
  | some i => (0, s.setFile i ⟨false, 0, 0, none⟩)

/-- The result, and what is stored to `*st`. -/
def fsStat (fs : Filesystem T R) (fuel : ℕ) (path : Option (List Byte)) (st : Bool) (s : Vfs T R) :
    Option (ℤ × Option NmStat) :=
  match path, st with
  | some path, true =>
    match s.resolvePath fs fuel path false with
    | none => none
    | some none => some (nmErr nmEfail, none)
    | some (some (node, _)) =>
      if fs.hasOps node s.nodes = false then some (nmErr nmEfail, none)
      else
        match fs.stat node s.nodes with
        | none => some (nmErr nmEfail, none)
        | some stat => some (0, some stat)
  | _, _ => some (nmErr nmEfail, none)

end Vfs

end NeverMind
