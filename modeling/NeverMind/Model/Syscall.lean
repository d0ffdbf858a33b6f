import NeverMind.Model.Fd
import NeverMind.Model.Sched

/-! # System calls

`kernel/syscall/syscall.c`: the handlers, which act on tasks and descriptors, and the table
through which they are called. An argument of a handler that is a user pointer is null or the
data behind it; what a handler stores through a pointer is part of its result. -/

namespace NeverMind

/-- `builtin_programs` of `kernel/proc/exec_registry.c`: paths and entries. -/
def builtinPrograms : List (List Char × ℕ) :=
  [("/init".toList, 0x1000), ("/sh".toList, 0x1100), ("/ping".toList, 0x1200)]

/-- The entry of the first program whose path is equal byte by byte. -/
def nmExecResolveEntry (path : List Char) : Option ℕ :=
  (builtinPrograms.find? fun prog => prog.1 == path).map Prod.snd

/-- The state that the handlers share. `console` lists the bytes sent to the console. -/
structure Kernel (F : Type*) where
  proc : Proc
  fd : FdLayer F
  console : List Byte

/-- The kernel before its parts are initialised. -/
def Kernel.atStart {F : Type*} (fs : F) : Kernel F where
  proc := Proc.atStart
  fd := FdLayer.atStart fs
  console := []

namespace Kernel

variable {F : Type*} (ops : FsOps F)

/-- Run a call of `fd.c` on a task of the table. -/
def onTask {α : Type*} (t : TaskRef) (call : Task → FdLayer F → α × Task × FdLayer F)
    (k : Kernel F) : α × Kernel F :=
  match call (k.proc.taskTable t) k.fd with
  | (ret, task, fd) => (ret, { k with proc := k.proc.setTask t task, fd := fd })

def sysGetpid (k : Kernel F) : ℤ :=
  match k.proc.taskCurrent with
  | none => nmErr nmEfail
  | some cur => (k.proc.taskTable cur).pid

def sysWrite (fd : ℕ) (buf : Option (ℕ → Byte)) (len : ℕ) (k : Kernel F) : ℤ × Kernel F :=
  match buf with
  | none => (nmErr nmEinval, k)
  | some data =>
    match k.proc.taskCurrent with
    | none => (nmErr nmEfail, k)
    | some cur =>
      let r := k.onTask cur fun task L => L.nmFdWrite ops task (i32 fd) (some data) len
      if r.1 ≥ 0 then r
      else if fd ≠ 1 then (nmErr nmEfail, r.2)
      else (i64 len, { r.2 with console := r.2.console ++ (List.range len).map data })

def sysRead (fd : ℕ) (buf : Bool) (len : ℕ) (k : Kernel F) : (ℤ × List Byte) × Kernel F :=
  if !buf then ((nmErr nmEinval, []), k)
  else
    match k.proc.taskCurrent with
    | none => ((nmErr nmEfail, []), k)
    | some cur => k.onTask cur fun task L => L.nmFdRead ops task (i32 fd) buf len

def sysClose (fd : ℕ) (k : Kernel F) : ℤ × Kernel F :=
  match k.proc.taskCurrent with
  | none => (nmErr nmEfail, k)
  | some cur =>
    if fd ≥ nmMaxFds then (nmErr nmEfail, k)
    else k.onTask cur fun task L => L.nmFdClose ops task (i32 fd)

def sysExit (code : ℕ) (k : Kernel F) : ℤ × Kernel F :=
  (0, { k with proc := k.proc.procExitCurrent (i32 code) })

/-- The second result is what is stored behind the status pointer. -/
def sysWaitpid (pid : ℕ) (statusPtr : Bool) (k : Kernel F) : (ℤ × Option ℤ) × Kernel F :=
  match k.proc.procWaitpid (i32 pid) with
  | ((got, status), proc) =>
    let k := { k with proc := proc }
    if got < 0 then ((nmErr nmEfail, none), k)
    else ((got, if statusPtr then some (status.getD 0) else none), k)

def sysPipe (fdsPtr : Bool) (k : Kernel F) : (ℤ × Option (Fin 32 × Fin 32)) × Kernel F :=
  match k.proc.taskCurrent with
  | none => ((nmErr nmEinval, none), k)
  | some cur =>
    if !fdsPtr then ((nmErr nmEinval, none), k)
    else
      match k.onTask cur fun task L => L.nmFdPipe ops task with
      | ((ret, fds), k) => if ret ≠ 0 then ((nmErr nmEfail, none), k) else ((0, fds), k)

def sysDup2 (oldfd newfd : ℕ) (k : Kernel F) : ℤ × Kernel F :=
  match k.proc.taskCurrent with
  | none => (nmErr nmEfail, k)
  | some cur =>
    if oldfd ≥ nmMaxFds ∨ newfd ≥ nmMaxFds then (nmErr nmEfail, k)
    else k.onTask cur fun task L => L.nmFdDup2 ops task (i32 oldfd) (i32 newfd)

def sysFdCloexec (fd enabled : ℕ) (k : Kernel F) : ℤ × Kernel F :=
  match k.proc.taskCurrent with
  | none => (nmErr nmEfail, k)
  | some cur =>
    if fd ≥ nmMaxFds then (nmErr nmEfail, k)
    else if enabled = 0 ∨ enabled = 1 then
      k.onTask cur fun task L =>
        let r := FdLayer.nmFdSetCloexec task (i32 fd) (enabled != 0)
        (r.1, r.2, L)
    else if enabled = 2 then (FdLayer.nmFdGetCloexec (k.proc.taskTable cur) (i32 fd), k)
    else (nmErr nmEinval, k)

/-- `kstack` is the result of the allocation of the child's kernel stack. -/
def sysFork (kstack : ℕ) (k : Kernel F) : ℤ × Kernel F :=
  match k.proc.taskCurrent with
  | none => (nmErr nmEfail, k)
  | some parent =>
    match k.proc.procForkCurrent kstack with
    | (none, proc) => (nmErr nmEfail, { k with proc := proc })
    | (some child, proc) =>
      match ({ k with proc := proc } : Kernel F).onTask child
          fun task L => L.nmFdOnForkChild task with
      | (_, k) =>
        let pid := (k.proc.taskTable child).pid
        let proc := k.proc.modifyTask parent fun task =>
          { task with regs := { task.regs with rax := (pid % 2 ^ 64).toNat } }
        (pid, { k with proc := proc })

/-- `fsStat` is the result of `fs_stat` and `ptrAt` reads the pointer stored at an address. An
`argv` below 1 MiB without `envp` is an entry. -/
def sysExec (fsStat : List Char → F → ℤ) (ptrAt : ℕ → ℕ) (name : Option (List Char))
    (argv envp a4 : ℕ) (k : Kernel F) : ℤ × Kernel F :=
  match name with
  | none => (nmErr nmEfail, k)
  | some name =>
    if fsStat name k.fd.fs ≠ 0 then (nmErr nmEfail, k)
    else
      let resolved := (nmExecResolveEntry name).getD 0
      let direct := argv ≠ 0 ∧ envp = 0 ∧ a4 = 0 ∧ argv < 0x100000
      let finalEntry := if direct then argv else if a4 ≠ 0 then a4 else resolved
      if finalEntry = 0 then (nmErr nmEfail, k)
      else
        let k :=
          match k.proc.taskCurrent with
          | none => k
          | some cur => (k.onTask cur fun task L => ((), L.nmFdCloseOnExec ops task)).2
        let r := k.proc.procExecCurrent ptrAt (some name) finalEntry
          (if direct then 0 else argv) envp
        (r.1, { k with proc := r.2 })

end Kernel

/-! ## The table -/

def nmEnosys : ℤ := 38

def nmSyscallMax : ℕ := 128

/-- `enum nm_syscall_nr`. -/
inductive SyscallNr where
  | getpid
  | write
  | read
  | close
  | exit
  | waitpid
  | pipe
  | dup2
  | fork
  | exec
  | fdCloexec
  deriving Repr, DecidableEq

def SyscallNr.val : SyscallNr → ℕ
  | .getpid => 0
  | .write => 1
  | .read => 2
  | .close => 3
  | .exit => 4
  | .waitpid => 5
  | .pipe => 6
  | .dup2 => 7
  | .fork => 8
  | .exec => 9
  | .fdCloexec => 10

/-- The arguments `arg1` to `arg6` of a call, 64-bit registers. -/
structure SyscallArgs where
  arg1 : ℕ
  arg2 : ℕ
  arg3 : ℕ
  arg4 : ℕ
  arg5 : ℕ
  arg6 : ℕ
  deriving Repr, DecidableEq

/-- What the handlers find outside the state of the kernel: the memory of the user as bytes, as
strings and as pointers, the stack that a fork is given, and `fs_stat`. -/
structure Surroundings (F : Type*) where
  byteAt : ℕ → Byte
  stringAt : ℕ → List Char
  ptrAt : ℕ → ℕ
  kstack : ℕ
  fsStat : List Char → F → ℤ

/-- What a handler stores through a pointer of the user. -/
inductive Stored where
  | nothing
  | bytes (bytes : List Byte)
  | status (status : Option ℤ)
  | fds (fds : Option (Fin 32 × Fin 32))
  deriving Repr, DecidableEq

/-- `nm_syscall_handler_t`. -/
abbrev SyscallHandler (F : Type*) := SyscallArgs → Kernel F → (ℤ × Stored) × Kernel F

namespace Surroundings

variable {F : Type*}

/-- The bytes behind a pointer of the user. -/
def buffer (u : Surroundings F) (ptr : ℕ) : Option (ℕ → Byte) :=
  if ptr = 0 then none else some fun i => u.byteAt (u64 (ptr + i))

/-- The string behind a pointer of the user. -/
def string (u : Surroundings F) (ptr : ℕ) : Option (List Char) :=
  if ptr = 0 then none else some (u.stringAt ptr)

end Surroundings

section Dispatch

variable {F : Type*} (ops : FsOps F) (u : Surroundings F)

/-- The handlers on raw arguments. -/
def SyscallNr.handler : SyscallNr → SyscallHandler F
  | .getpid => fun _ k => ((k.sysGetpid, .nothing), k)
  | .write => fun a k =>
    let r := k.sysWrite ops a.arg1 (u.buffer a.arg2) a.arg3
    ((r.1, .nothing), r.2)
  | .read => fun a k =>
    let r := k.sysRead ops a.arg1 (a.arg2 != 0) a.arg3
    ((r.1.1, .bytes r.1.2), r.2)
  | .close => fun a k =>
    let r := k.sysClose ops a.arg1
    ((r.1, .nothing), r.2)
  | .exit => fun a k =>
    let r := k.sysExit a.arg1
    ((r.1, .nothing), r.2)
  | .waitpid => fun a k =>
    let r := k.sysWaitpid a.arg1 (a.arg2 != 0)
    ((r.1.1, .status r.1.2), r.2)
  | .pipe => fun a k =>
    let r := k.sysPipe ops (a.arg1 != 0)
    ((r.1.1, .fds r.1.2), r.2)
  | .dup2 => fun a k =>
    let r := k.sysDup2 ops a.arg1 a.arg2
    ((r.1, .nothing), r.2)
  | .fork => fun _ k =>
    let r := k.sysFork u.kstack
    ((r.1, .nothing), r.2)
  | .exec => fun a k =>
    let r := k.sysExec ops u.fsStat u.ptrAt (u.string a.arg1) a.arg2 a.arg3 a.arg4
    ((r.1, .nothing), r.2)
  | .fdCloexec => fun a k =>
    let r := k.sysFdCloexec a.arg1 a.arg2
    ((r.1, .nothing), r.2)

def syscallRegister (nr : ℕ) (fn : Option (SyscallHandler F))
    (table : ℕ → Option (SyscallHandler F)) : ℤ × (ℕ → Option (SyscallHandler F)) :=
  if nr ≥ nmSyscallMax ∨ fn.isNone then (nmErr nmEfail, table)
  else (0, Function.update table nr fn)

/-- The table that `syscall_init` leaves, and the kernel after `nm_fd_init`. -/
def syscallInit (k : Kernel F) : (ℕ → Option (SyscallHandler F)) × Kernel F :=
  let register (nr : SyscallNr) (table : ℕ → Option (SyscallHandler F)) :=
    (syscallRegister nr.val (some (nr.handler ops u)) table).2
  (register .fdCloexec <| register .exec <| register .fork <| register .dup2 <| register .pipe <|
    register .waitpid <| register .exit <| register .close <| register .read <|
    register .write <| register .getpid fun _ => none,
    { k with fd := k.fd.nmFdInit })

def syscallDispatch (table : ℕ → Option (SyscallHandler F)) (nr : ℕ) (args : SyscallArgs)
    (k : Kernel F) : (ℤ × Stored) × Kernel F :=
  if nr ≥ nmSyscallMax then ((nmErr nmEnosys, .nothing), k)
  else
    match table nr with
    | none => ((nmErr nmEnosys, .nothing), k)
    | some fn => fn args k

end Dispatch

end NeverMind
