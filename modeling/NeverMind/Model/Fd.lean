import NeverMind.Model.Task

/-! # File descriptors and pipes

`kernel/proc/fd.c`: descriptors of a task name reference-counted objects, which are ends
of pipes or files. A function that gets a task by pointer returns the task as it leaves it.
The file system is used through the three calls of `FsOps`. A buffer is null or a function
from offsets to bytes; a read returns the bytes it stores. -/

namespace NeverMind

def nmMaxFds : ℕ := 32

instance neZeroPipeBuf : NeZero 512 := ⟨by decide⟩

abbrev Byte := BitVec 8

/-- `enum nm_fdobj_kind`. -/
inductive FdobjKind where
  | none
  | fs
  | pipeR
  | pipeW
  deriving Repr, DecidableEq

/-- `struct nm_pipe`. -/
structure Pipe where
  used : Bool
  buf : Fin 512 → Byte
  readPos : ℕ
  writePos : ℕ
  readers : ℕ
  writers : ℕ

/-- `struct nm_fdobj`. -/
structure Fdobj where
  used : Bool
  refcnt : ℕ
  kind : FdobjKind
  fsFd : ℤ
  pipeId : ℤ
  deriving Repr, DecidableEq

/-- The file-system calls of this layer over a file-system state. -/
structure FsOps (F : Type*) where
  fsRead : ℤ → ℕ → F → (ℤ × List Byte) × F
  fsWrite : ℤ → (ℕ → Byte) → ℕ → F → ℤ × F
  fsClose : ℤ → F → F

/-- The tables of `fd.c` and the file system. -/
structure FdLayer (F : Type*) where
  pipeTable : Fin 16 → Pipe
  fdobjTable : Fin 128 → Fdobj
  fs : F

/-- The static variables at the start of the kernel. -/
def FdLayer.atStart {F : Type*} (fs : F) : FdLayer F where
  pipeTable := fun _ => ⟨false, fun _ => 0, 0, 0, 0, 0⟩
  fdobjTable := fun _ => ⟨false, 0, .none, 0, 0⟩
  fs := fs

/-- The check `0 <= fd && fd < NM_MAX_FDS`. -/
def fdIndex (fd : ℤ) : Option (Fin 32) :=
  if h : 0 ≤ fd ∧ fd < 32 then some ⟨fd.toNat, by omega⟩ else none

/-- The check `0 <= id && id < NM_FDOBJ_MAX`. -/
def fdobjIndex (id : ℤ) : Option (Fin 128) :=
  if h : 0 ≤ id ∧ id < 128 then some ⟨id.toNat, by omega⟩ else none

/-- The check `0 <= id && id < NM_PIPE_MAX`. -/
def pipeIndex (id : ℤ) : Option (Fin 16) :=
  if h : 0 ≤ id ∧ id < 16 then some ⟨id.toNat, by omega⟩ else none

/-- `1U << fd`. -/
def fdBit (fd : Fin 32) : BitVec 32 := 1#32 <<< fd.val

/-- `task->fd_table[fd] = id`. -/
def Task.setFd (fd : Fin 32) (id : ℤ) (task : Task) : Task :=
  { task with fdTable := Function.update task.fdTable fd id }

/-- `task->fd_cloexec_mask &= ~(1U << fd)`. -/
def Task.clearCloexec (fd : Fin 32) (task : Task) : Task :=
  { task with fdCloexecMask := task.fdCloexecMask &&& ~~~fdBit fd }

/-- The first free descriptor. -/
def allocTaskFd (task : Task) : Option (Fin 32) :=
  (List.finRange 32).find? fun i => task.fdTable i == -1

def taskFdobjId (task : Task) (fd : ℤ) : ℤ :=
  match fdIndex fd with
  | none => nmErr nmEinval
  | some i => task.fdTable i

def taskInstallFdobj (task : Task) (fd : ℤ) (objId : ℤ) : ℤ × Task :=
  match fdIndex fd with
  | none => (nmErr nmEinval, task)
  | some i => (0, task.setFd i objId)

namespace FdLayer

variable {F : Type*} (ops : FsOps F)

def setPipe (k : Fin 16) (pipe : Pipe) (L : FdLayer F) : FdLayer F :=
  { L with pipeTable := Function.update L.pipeTable k pipe }

def setFdobj (i : Fin 128) (obj : Fdobj) (L : FdLayer F) : FdLayer F :=
  { L with fdobjTable := Function.update L.fdobjTable i obj }

/-! ## Objects -/

def allocFdobj (L : FdLayer F) : Option (Fin 128) × FdLayer F :=
  match (List.finRange 128).find? fun i => !(L.fdobjTable i).used with
  | some i => (some i, L.setFdobj i ⟨true, 0, .none, -1, -1⟩)
  | none => (none, L)

def fdobjGet (id : ℤ) (L : FdLayer F) : Option (Fin 128) :=
  match fdobjIndex id with
  | none => none
  | some i => if (L.fdobjTable i).used then some i else none

def pipeOnEndpointAcquire (kind : FdobjKind) (pipeId : ℤ) (L : FdLayer F) : FdLayer F :=
  match pipeIndex pipeId with
  | none => L
  | some k =>
    let pipe := L.pipeTable k
    if !pipe.used then L
    else
      match kind with
      | .pipeR => L.setPipe k { pipe with readers := u32 (pipe.readers + 1) }
      | .pipeW => L.setPipe k { pipe with writers := u32 (pipe.writers + 1) }
      | _ => L

/-- The counters after an end was given up. -/
def dropEnd (kind : FdobjKind) (pipe : Pipe) : Pipe :=
  match kind with
  | .pipeR => if pipe.readers > 0 then { pipe with readers := pipe.readers - 1 } else pipe
  | .pipeW => if pipe.writers > 0 then { pipe with writers := pipe.writers - 1 } else pipe
  | _ => pipe

def pipeOnEndpointRelease (kind : FdobjKind) (pipeId : ℤ) (L : FdLayer F) : FdLayer F :=
  match pipeIndex pipeId with
  | none => L
  | some k =>
    let pipe := L.pipeTable k
    if !pipe.used then L
    else
      let pipe := dropEnd kind pipe
      if pipe.readers = 0 ∧ pipe.writers = 0 then
        L.setPipe k { pipe with used := false, readPos := 0, writePos := 0 }
      else L.setPipe k pipe

def fdobjRetain (id : ℤ) (L : FdLayer F) : ℤ × FdLayer F :=
  match L.fdobjGet id with
  | none => (nmErr nmEnoent, L)
  | some i =>
    let obj := L.fdobjTable i
    let L := L.setFdobj i { obj with refcnt := u32 (obj.refcnt + 1) }
    (0, L.pipeOnEndpointAcquire obj.kind obj.pipeId)

def fdobjRelease (id : ℤ) (L : FdLayer F) : ℤ × FdLayer F :=
  match L.fdobjGet id with
  | none => (nmErr nmEnoent, L)
  | some i =>
    let obj := L.fdobjTable i
    if obj.refcnt = 0 then (nmErr nmEnoent, L)
    else
      let L := L.pipeOnEndpointRelease obj.kind obj.pipeId
      let L := L.setFdobj i { obj with refcnt := obj.refcnt - 1 }
      if obj.refcnt - 1 > 0 then (0, L)
      else
        let L :=
          if obj.kind = .fs ∧ obj.fsFd ≥ 0 then { L with fs := ops.fsClose obj.fsFd L.fs } else L
        (0, L.setFdobj i ⟨false, 0, .none, -1, -1⟩)

def createPipeEndpointObj (kind : FdobjKind) (pipeId : ℤ) (L : FdLayer F) :
    Option (Fin 128) × FdLayer F :=
  match L.allocFdobj with
  | (none, L) => (none, L)
  | (some i, L) =>
    (some i, L.setFdobj i { L.fdobjTable i with kind := kind, pipeId := pipeId, refcnt := 1 })

def createFsObj (fsFd : ℤ) (L : FdLayer F) : Option (Fin 128) × FdLayer F :=
  match L.allocFdobj with
  | (none, L) => (none, L)
  | (some i, L) =>
    (some i, L.setFdobj i { L.fdobjTable i with kind := .fs, fsFd := fsFd, refcnt := 1 })

def taskCloseFd (task : Task) (fd : ℤ) (L : FdLayer F) : ℤ × Task × FdLayer F :=
  match fdIndex fd with
  | none => (nmErr nmEinval, task, L)
  | some i =>
    if task.fdTable i = -1 then (nmErr nmEnoent, task, L)
    else
      match L.fdobjRelease ops (task.fdTable i) with
      | (ret, L) =>
        if ret ≠ 0 then (nmErr nmEnoent, task, L)
        else (0, (task.setFd i (-1)).clearCloexec i, L)

/-! ## Pipes -/

/-- The slot of the ring that a position falls into. -/
def ringSlot (pos : ℕ) : Fin 512 := ⟨pos % 512, Nat.mod_lt _ (by decide)⟩

/-- The loop of `read_from_pipe` with `n` bytes still wanted. -/
def readLoop : ℕ → Pipe → List Byte × Pipe
  | 0, pipe => ([], pipe)
  | n + 1, pipe =>
    if pipe.readPos < pipe.writePos then
      let (bytes, rest) := readLoop n { pipe with readPos := u64 (pipe.readPos + 1) }
      (pipe.buf (ringSlot pipe.readPos) :: bytes, rest)
    else ([], pipe)

/-- The result is the count or an error, and the bytes stored to the buffer. -/
def readFromPipe (pipe : Pipe) (len : ℕ) : (ℤ × List Byte) × Pipe :=
  if !pipe.used then ((nmErr nmEfail, []), pipe)
  else
    let (bytes, pipe) := readLoop len pipe
    ((bytes.length, bytes), pipe)

/-- The loop of `write_to_pipe` with `n` bytes left of which `written` are done. -/
def writeLoop (data : ℕ → Byte) : ℕ → ℕ → Pipe → ℕ × Pipe
  | 0, written, pipe => (written, pipe)
  | n + 1, written, pipe =>
    if u64Sub pipe.writePos pipe.readPos < 512 then
      writeLoop data n (written + 1)
        { pipe with
          buf := Function.update pipe.buf (ringSlot pipe.writePos) (data written)
          writePos := u64 (pipe.writePos + 1) }
    else (written, pipe)

def writeToPipe (pipe : Pipe) (data : ℕ → Byte) (len : ℕ) : ℤ × Pipe :=
  if !pipe.used then (nmErr nmEfail, pipe)
  else
    let (written, pipe) := writeLoop data len 0 pipe
    (written, pipe)

def readFromFdobj (i : Fin 128) (len : ℕ) (L : FdLayer F) : (ℤ × List Byte) × FdLayer F :=
  let obj := L.fdobjTable i
  match obj.kind with
  | .pipeR =>
    match pipeIndex obj.pipeId with
    | none => ((nmErr nmEfail, []), L)
    | some k =>
      let (ret, pipe) := readFromPipe (L.pipeTable k) len
      (ret, L.setPipe k pipe)
  | .fs =>
    let (ret, fs) := ops.fsRead obj.fsFd len L.fs
    (ret, { L with fs := fs })
  | _ => ((nmErr nmEfail, []), L)

def writeToFdobj (i : Fin 128) (data : ℕ → Byte) (len : ℕ) (L : FdLayer F) : ℤ × FdLayer F :=
  let obj := L.fdobjTable i
  match obj.kind with
  | .pipeW =>
    match pipeIndex obj.pipeId with
    | none => (nmErr nmEfail, L)
    | some k =>
      let (ret, pipe) := writeToPipe (L.pipeTable k) data len
      (ret, L.setPipe k pipe)
  | .fs =>
    let (ret, fs) := ops.fsWrite obj.fsFd data len L.fs
    (ret, { L with fs := fs })
  | _ => (nmErr nmEfail, L)

/-! ## The calls -/

def adoptLegacyFsFd (task : Task) (fd : ℤ) (L : FdLayer F) : ℤ × Task × FdLayer F :=
  let legacy := taskFdobjId task fd
  match fdobjIndex legacy with
  | none => (nmErr nmEinval, task, L)
  | some _ =>
    match L.fdobjGet legacy with
    | some _ => (legacy, task, L)
    | none =>
      match L.createFsObj legacy with
      | (none, L) => (nmErr nmEnomem, task, L)
      | (some i, L) => (i.val, (taskInstallFdobj task fd i.val).2, L)

def nmFdInit (L : FdLayer F) : FdLayer F :=
  { L with
    pipeTable := fun k =>
      { L.pipeTable k with used := false, readPos := 0, writePos := 0, readers := 0, writers := 0 }
    fdobjTable := fun _ => ⟨false, 0, .none, -1, -1⟩ }

/-- The object behind a descriptor, adopting a raw file descriptor on the way. -/
def resolveFd (task : Task) (fd : ℤ) (L : FdLayer F) : Option (Fin 128) × Task × FdLayer F :=
  match L.fdobjGet (taskFdobjId task fd) with
  | some i => (some i, task, L)
  | none =>
    let (adopted, task, L) := L.adoptLegacyFsFd task fd
    (L.fdobjGet adopted, task, L)

def nmFdRead (task : Task) (fd : ℤ) (buf : Bool) (len : ℕ) (L : FdLayer F) :
    (ℤ × List Byte) × Task × FdLayer F :=
  if !buf then ((nmErr nmEinval, []), task, L)
  else if taskFdobjId task fd = -1 then ((nmErr nmEnoent, []), task, L)
  else
    match L.resolveFd task fd with
    | (some i, task, L) =>
      let (ret, L) := L.readFromFdobj ops i len
      (ret, task, L)
    | (none, task, L) => ((nmErr nmEnoent, []), task, L)

def nmFdWrite (task : Task) (fd : ℤ) (buf : Option (ℕ → Byte)) (len : ℕ) (L : FdLayer F) :
    ℤ × Task × FdLayer F :=
  match buf with
  | none => (nmErr nmEinval, task, L)
  | some data =>
    if taskFdobjId task fd = -1 then (nmErr nmEnoent, task, L)
    else
      match L.resolveFd task fd with
      | (some i, task, L) =>
        let (ret, L) := L.writeToFdobj ops i data len
        (ret, task, L)
      | (none, task, L) => (nmErr nmEnoent, task, L)

/-- The adoption step that closing makes for an identifier without an object. -/
def adoptForClose (task : Task) (fd : ℤ) (L : FdLayer F) : ℤ × Task × FdLayer F :=
  let objId := taskFdobjId task fd
  if (fdobjIndex objId).isSome ∧ L.fdobjGet objId = none then L.adoptLegacyFsFd task fd
  else (0, task, L)

def nmFdClose (task : Task) (fd : ℤ) (L : FdLayer F) : ℤ × Task × FdLayer F :=
  match fdIndex fd with
  | none => (nmErr nmEinval, task, L)
  | some _ =>
    if taskFdobjId task fd = -1 then (nmErr nmEnoent, task, L)
    else
      match L.adoptForClose task fd with
      | (ret, task, L) => if ret < 0 then (nmErr nmEfail, task, L) else L.taskCloseFd ops task fd

/-- `read_fd` and `write_fd` are not null; the result carries what is stored to them. -/
def nmFdPipe (task : Task) (L : FdLayer F) : (ℤ × Option (Fin 32 × Fin 32)) × Task × FdLayer F :=
  match (List.finRange 16).find? fun k => !(L.pipeTable k).used with
  | none => ((nmErr nmEnomem, none), task, L)
  | some k =>
    match allocTaskFd task with
    | none => ((nmErr nmEnomem, none), task, L)
    | some rd =>
      let task := task.setFd rd (-2)
      match allocTaskFd task with
      | none => ((nmErr nmEnomem, none), task.setFd rd (-1), L)
      | some wr =>
        let L := L.setPipe k
          { L.pipeTable k with
            used := true, readPos := 0, writePos := 0, readers := 1, writers := 1 }
        match L.createPipeEndpointObj .pipeR k.val with
        | (none, L) =>
          ((nmErr nmEnomem, none), task.setFd rd (-1), L.setPipe k
            { L.pipeTable k with used := false, readers := 0, writers := 0 })
        | (some rdObj, L) =>
          match L.createPipeEndpointObj .pipeW k.val with
          | (none, L) =>
            let L := (L.fdobjRelease ops rdObj.val).2
            ((nmErr nmEnomem, none), task.setFd rd (-1), L.setPipe k
              { L.pipeTable k with used := false, readers := 0, writers := 0 })
          | (some wrObj, L) => ((0, some (rd, wr)), (task.setFd rd rdObj.val).setFd wr wrObj.val, L)

def nmFdDup2 (task : Task) (oldfd newfd : ℤ) (L : FdLayer F) : ℤ × Task × FdLayer F :=
  match fdIndex oldfd, fdIndex newfd with
  | some i, some j =>
    let oldObj := task.fdTable i
    if oldObj = -1 then (nmErr nmEnoent, task, L)
    else if oldfd = newfd then (newfd, task, L)
    else
      match (if task.fdTable j ≠ -1 then L.taskCloseFd ops task newfd else (0, task, L)) with
      | (closed, task, L) =>
        if closed ≠ 0 then (nmErr nmEfail, task, L)
        else
          match L.fdobjRetain oldObj with
          | (ret, L) =>
            if ret ≠ 0 then (nmErr nmEfail, task, L)
            else (newfd, (task.setFd j oldObj).clearCloexec j, L)
  | _, _ => (nmErr nmEinval, task, L)

/-- One round of the loop of `nm_fd_on_fork_child`. -/
def inheritFd (i : Fin 32) (st : Task × FdLayer F) : Task × FdLayer F :=
  let (child, L) := st
  if child.fdTable i = -1 then (child, L)
  else
    match L.fdobjRetain (child.fdTable i) with
    | (ret, L) => if ret ≠ 0 then (child.setFd i (-1), L) else (child, L)

def nmFdOnForkChild (child : Task) (L : FdLayer F) : ℤ × Task × FdLayer F :=
  (0, (List.finRange 32).foldl (fun st i => inheritFd i st) (child, L))

def nmFdSetCloexec (task : Task) (fd : ℤ) (enabled : Bool) : ℤ × Task :=
  match fdIndex fd with
  | none => (nmErr nmEinval, task)
  | some i =>
    if task.fdTable i = -1 then (nmErr nmEinval, task)
    else if enabled then
      (0, { task with fdCloexecMask := task.fdCloexecMask ||| fdBit i })
    else (0, task.clearCloexec i)

def nmFdGetCloexec (task : Task) (fd : ℤ) : ℤ :=
  match fdIndex fd with
  | none => nmErr nmEinval
  | some i =>
    if task.fdTable i = -1 then nmErr nmEinval
    else if task.fdCloexecMask &&& fdBit i ≠ 0#32 then 1 else 0

/-- One round of the loop of `nm_fd_close_on_exec`. -/
def closeMarked (i : Fin 32) (st : Task × FdLayer F) : Task × FdLayer F :=
  let (task, L) := st
  if task.fdCloexecMask &&& fdBit i = 0#32 then (task, L)
  else if task.fdTable i = -1 then (task.clearCloexec i, L)
  else
    match L.adoptForClose task i.val with
    | (ret, task, L) => if ret < 0 then (task, L) else (L.taskCloseFd ops task i.val).2

def nmFdCloseOnExec (task : Task) (L : FdLayer F) : Task × FdLayer F :=
  (List.finRange 32).foldl (fun st i => closeMarked ops i st) (task, L)

end FdLayer

end NeverMind
