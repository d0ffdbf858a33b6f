import NeverMind.Model.Vfs

/-! # The memory file system

`kernel/fs/tmpfs.c`: a table of 512 vnodes, directories as lists of siblings, and file contents
in buffers that double. The buffers come from `kmalloc` and are never given back. -/

namespace NeverMind

/-- A pointer into the table of vnodes. -/
abbrev NodeRef := Fin 512

/-- `struct nm_vnode`. `ops` says that it points to `tmpfs_file_ops`. -/
structure Vnode where
  used : Bool
  ino : ℕ
  type : NodeType
  name : List Byte
  uid : ℕ
  gid : ℕ
  mode : ℕ
  parent : Option NodeRef
  children : Option NodeRef
  nextSibling : Option NodeRef
  data : Option (ℕ → Byte)
  size : ℕ
  capacity : ℕ
  ops : Bool

/-- The static variables of `tmpfs.c`. -/
structure Tmpfs where
  nodes : NodeRef → Vnode
  nextIno : ℕ
  tmpfsRoot : Option NodeRef

/-- The names are equal byte by byte. -/
def nameEq : List Byte → List Byte → Bool
  | a :: as, b :: bs => if a ≠ b then false else nameEq as bs
  | [], [] => true
  | _, _ => false

namespace Tmpfs

def copyName (src : List Byte) : List Byte := src.take (nmNameMax - 1)

def setNode (i : NodeRef) (v : Vnode) (t : Tmpfs) : Tmpfs :=
  { t with nodes := Function.update t.nodes i v }

def allocNode (t : Tmpfs) : Option NodeRef × Tmpfs :=
  match (List.finRange 512).find? fun i => !(t.nodes i).used with
  | none => (none, t)
  | some i =>
    (some i, t.setNode i { t.nodes i with
      used := true, children := none, nextSibling := none, parent := none, data := none
      size := 0, capacity := 0, uid := 0, gid := 0 })

def tmpfsMountRoot (t : Tmpfs) : Option NodeRef × Tmpfs :=
  let t := { t with nodes := fun i => { t.nodes i with used := false }, nextIno := 2 }
  match t.allocNode with
  | (none, t) => (none, { t with tmpfsRoot := none })
  | (some root, t) =>
    (some root, { t.setNode root { t.nodes root with
      ino := 1, type := .dir, mode := 0o755, name := copyName [slash], ops := true } with
        tmpfsRoot := some root })

/-- The loop of `tmpfs_lookup` over the siblings. -/
def findSibling (t : Tmpfs) (name : List Byte) : ℕ → Option NodeRef → Option (Option NodeRef)
  | 0, _ => none
  | _ + 1, none => some none
  | fuel + 1, some cur =>
    if nameEq (t.nodes cur).name name then some (some cur)
    else findSibling t name fuel (t.nodes cur).nextSibling

def tmpfsLookup (fuel : ℕ) (dir : NodeRef) (name : List Byte) (t : Tmpfs) :
    Option (Option NodeRef) :=
  if (t.nodes dir).type ≠ .dir then some none else t.findSibling name fuel (t.nodes dir).children

def tmpfsCreate (fuel : ℕ) (dir : NodeRef) (name : List Byte) (type : NodeType) (mode : ℕ)
    (t : Tmpfs) : Option (Option NodeRef × Tmpfs) :=
  if (t.nodes dir).type ≠ .dir then some (none, t)
  else
    match t.tmpfsLookup fuel dir name with
    | none => none
    | some (some _) => some (none, t)
    | some none =>
      match t.allocNode with
      | (none, t) => some (none, t)
      | (some i, t) =>
        let t := { t.setNode i { t.nodes i with
            ino := t.nextIno, type := type, mode := mode, parent := some dir, ops := true
            name := copyName name, nextSibling := (t.nodes dir).children } with
          nextIno := u64 (t.nextIno + 1) }
        some (some i, t.setNode dir { t.nodes dir with children := some i })

def tmpfsRead (i : NodeRef) (offset len : ℕ) (t : Tmpfs) : ℤ × List Byte :=
  let node := t.nodes i
  if node.type ≠ .file then (nmErr nmEfail, [])
  else if node.size ≤ offset then (0, [])
  else
    let remain := node.size - offset
    let n := if len < remain then len else remain
    (i64 n, (List.range n).map fun k => node.data.getD (fun _ => 0) (offset + k))

/-- `while (cap < need) cap *= 2`. -/
def growLoop (need : ℕ) : ℕ → ℕ → Option ℕ
  | 0, _ => none
  | fuel + 1, cap => if cap < need then growLoop need fuel (u64 (cap * 2)) else some cap

def tmpfsReserve (fuel : ℕ) (alloc : NmAlloc) (i : NodeRef) (need : ℕ) (t : Tmpfs) :
    Option (ℤ × Tmpfs) :=
  let node := t.nodes i
  if need ≤ node.capacity then some (0, t)
  else
    match growLoop need fuel (if node.capacity = 0 then 64 else node.capacity) with
    | none => none
    | some cap =>
      match alloc cap with
      | none => some (nmErr nmEnomem, t)
      | some newBuf =>
        let buf := fun k =>
          if k < node.size then (match node.data with | some data => data k | none => 0)
          else newBuf k
        some (0, t.setNode i { node with data := some buf, capacity := cap })

/-- `data[offset + i] = src[i]` for `i < len`, with the index computed in 64 bits. -/
def storeBytes (offset len : ℕ) (src data : ℕ → Byte) : ℕ → Byte := fun k =>
  if u64Sub k offset < len then src (u64Sub k offset) else data k

/-- A write through a null buffer leaves no trace in the vnode. -/
def tmpfsWrite (fuel : ℕ) (alloc : NmAlloc) (i : NodeRef) (src : ℕ → Byte) (offset len : ℕ)
    (t : Tmpfs) : Option (ℤ × Tmpfs) :=
  if (t.nodes i).type ≠ .file then some (nmErr nmEfail, t)
  else
    match t.tmpfsReserve fuel alloc i (u64 (offset + len)) with
    | none => none
    | some (ret, t) =>
      if ret ≠ 0 then some (nmErr nmEfail, t)
      else
        let node := t.nodes i
        let node := { node with data := node.data.map (storeBytes offset len src) }
        let size := if u64 (offset + len) > node.size then u64 (offset + len) else node.size
        some (i64 len, t.setNode i { node with size := size })

def tmpfsStat (i : NodeRef) (t : Tmpfs) : NmStat :=
  let node := t.nodes i
  ⟨node.ino, node.size, node.mode, node.uid, node.gid, 1, u64 (node.size + 511) / 512⟩

/-- `tmpfs_filesystem`. A vnode is never null, so that `tmpfs_open` returns 0. -/
def filesystem : Filesystem Tmpfs NodeRef where
  mountRoot := tmpfsMountRoot
  lookup := tmpfsLookup
  create := tmpfsCreate
  hasOps := fun i t => (t.nodes i).ops
  openNode := fun _ _ _ => 0
  read := tmpfsRead
  write := tmpfsWrite
  stat := fun i t => some (t.tmpfsStat i)
  size := fun i t => (t.nodes i).size

end Tmpfs

end NeverMind
