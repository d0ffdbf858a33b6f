import NeverMind.Model.Tmpfs

/-! # The second file system

`kernel/fs/ext2.c`: a table of 256 vnodes that are handed out in order and never given back, and
the attributes of the files apart from them in a table of inodes. The contents of a file are a
buffer of 4096 bytes, which the host build takes from `malloc` and the kernel build never gets. -/

namespace NeverMind

def ext2MaxInodes : ℕ := 1024

/-- `struct ext2_inode_meta`. -/
structure Ext2InodeMeta where
  mode : ℕ
  uid : ℕ
  gid : ℕ
  links : ℕ
  blocks : ℕ
  deriving Repr, DecidableEq

/-- A pointer to `ext2_root` or into `ext2_nodes`. -/
inductive Ext2Ref where
  | root
  | node (i : Fin 256)
  deriving Repr, DecidableEq

/-- `struct nm_vnode`. `ops` says that it points to `ext2_file_ops`. -/
structure Ext2Vnode where
  used : Bool
  ino : ℕ
  type : NodeType
  name : List Byte
  uid : ℕ
  gid : ℕ
  mode : ℕ
  parent : Option Ext2Ref
  children : Option Ext2Ref
  nextSibling : Option Ext2Ref
  data : Option (ℕ → Byte)
  size : ℕ
  capacity : ℕ
  ops : Bool

/-- The static variables of `ext2.c`. The table of inodes is accessed below 1024 only. -/
structure Ext2 where
  inodeMeta : ℕ → Ext2InodeMeta
  ext2Root : Ext2Vnode
  ext2Nodes : Fin 256 → Ext2Vnode
  ext2NodeCursor : ℕ

namespace Ext2

def vnode (r : Ext2Ref) (e : Ext2) : Ext2Vnode :=
  match r with
  | .root => e.ext2Root
  | .node i => e.ext2Nodes i

def setVnode (r : Ext2Ref) (v : Ext2Vnode) (e : Ext2) : Ext2 :=
  match r with
  | .root => { e with ext2Root := v }
  | .node i => { e with ext2Nodes := Function.update e.ext2Nodes i v }

def setMeta (ino : ℕ) (m : Ext2InodeMeta) (e : Ext2) : Ext2 :=
  { e with inodeMeta := Function.update e.inodeMeta ino m }

def ext2Read (r : Ext2Ref) (offset len : ℕ) (e : Ext2) : ℤ × List Byte :=
  let node := e.vnode r
  match node.data with
  | none => (0, [])
  | some data =>
    if node.size ≤ offset then (0, [])
    else
      let remain := node.size - offset
      let n := if len < remain then len else remain
      (i64 n, (List.range n).map fun k => data (offset + k))

def ext2Write (r : Ext2Ref) (src : ℕ → Byte) (offset len : ℕ) (e : Ext2) : ℤ × Ext2 :=
  let node := e.vnode r
  match node.data with
  | none => (nmErr nmEfail, e)
  | some data =>
    if u64 (offset + len) > node.capacity then (nmErr nmEfail, e)
    else
      let size := if u64 (offset + len) > node.size then u64 (offset + len) else node.size
      let e := e.setVnode r
        { node with data := some (Tmpfs.storeBytes offset len src data), size := size }
      let e :=
        if node.ino < ext2MaxInodes then
          e.setMeta node.ino
            { e.inodeMeta node.ino with blocks := u32 (u64 (size + 511) / 512) }
        else e
      (i64 len, e)

def ext2Stat (r : Ext2Ref) (e : Ext2) : Option NmStat :=
  let node := e.vnode r
  if ext2MaxInodes ≤ node.ino then none
  else
    let inode := e.inodeMeta node.ino
    some ⟨node.ino, node.size, inode.mode, inode.uid, inode.gid, inode.links, inode.blocks⟩

/-- The vnodes that were handed out before stay handed out. -/
def ext2MountRoot (e : Ext2) : Option Ext2Ref × Ext2 :=
  let root := { e.ext2Root with
    used := true, ino := 2, type := .dir, mode := 0o755, uid := 0, gid := 0, parent := none
    children := none, nextSibling := none, data := none, size := 0, capacity := 0, ops := true
    name := [slash] }
  (some .root, { e with ext2Root := root }.setMeta 2 ⟨0o755, 0, 0, 1, 0⟩)

/-- The comparison in the loop of `ext2_lookup`: advance while both names go on and agree, and
see whether both have ended. -/
def sameName : List Byte → List Byte → Bool
  | a :: as, b :: bs => if a = b then sameName as bs else false
  | [], [] => true
  | _, _ => false

/-- The loop of `ext2_lookup` over the siblings. -/
def findSibling (e : Ext2) (name : List Byte) : ℕ → Option Ext2Ref → Option (Option Ext2Ref)
  | 0, _ => none
  | _ + 1, none => some none
  | fuel + 1, some cur =>
    if sameName (e.vnode cur).name name then some (some cur)
    else findSibling e name fuel (e.vnode cur).nextSibling

def ext2Lookup (fuel : ℕ) (dir : Ext2Ref) (name : List Byte) (e : Ext2) :
    Option (Option Ext2Ref) :=
  e.findSibling name fuel (e.vnode dir).children

/-- The loop that copies a name writes nothing if the name is empty. -/
def copyName (old name : List Byte) : List Byte :=
  if name = [] then old else name.take (nmNameMax - 1)

/-- The table entry that a creation takes, filled in. -/
def newVnode (malloc : ℕ → NmAlloc) (i : Fin 256) (dir : Ext2Ref) (name : List Byte)
    (type : NodeType) (mode : ℕ) (e : Ext2) : Ext2Vnode :=
  { used := true, ino := u32 (12 + u32 (i.val + 1)), type := type
    name := copyName (e.ext2Nodes i).name name, uid := 0, gid := 0, mode := mode
    parent := some dir, children := none, nextSibling := (e.vnode dir).children
    data := malloc i.val 4096, size := 0, capacity := 4096, ops := true }

/-- `malloc k` is the allocator at the creation of the vnode of index `k`; in the kernel build
it grants nothing. -/
def ext2Create (malloc : ℕ → NmAlloc) (fuel : ℕ) (dir : Ext2Ref) (name : List Byte)
    (type : NodeType) (mode : ℕ) (e : Ext2) : Option (Option Ext2Ref × Ext2) :=
  if (e.vnode dir).type ≠ .dir then some (none, e)
  else if h : e.ext2NodeCursor < 256 then
    match e.ext2Lookup fuel dir name with
    | none => none
    | some (some _) => some (none, e)
    | some none =>
      let i : Fin 256 := ⟨e.ext2NodeCursor, h⟩
      let node := e.newVnode malloc i dir name type mode
      let e := { e with ext2NodeCursor := u32 (e.ext2NodeCursor + 1) }.setVnode (.node i) node
      let e := if node.ino < ext2MaxInodes then e.setMeta node.ino ⟨mode, 0, 0, 1, 0⟩ else e
      some (some (.node i), e.setVnode dir { e.vnode dir with children := some (.node i) })
  else some (none, e)

/-- `ext2_filesystem`. A vnode is never null, so that `ext2_open` returns 0. -/
def filesystem (malloc : ℕ → NmAlloc) : Filesystem Ext2 Ext2Ref where
  mountRoot := ext2MountRoot
  lookup := ext2Lookup
  create := ext2Create malloc
  hasOps := fun r e => (e.vnode r).ops
  openNode := fun _ _ _ => 0
  read := ext2Read
  write := fun _ _ r src offset len e => some (e.ext2Write r src offset len)
  stat := ext2Stat
  size := fun r e => (e.vnode r).size

end Ext2

end NeverMind
