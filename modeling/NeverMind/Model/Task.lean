import NeverMind.Library.Word
import Mathlib.Data.List.FinRange
import Mathlib.Logic.Function.Basic

/-! # Tasks

The kernel build of `kernel/proc/task.c`: a table of 128 task slots and the current task.
`kmalloc` belongs to the kernel heap, so the calls that allocate a stack take its result
as an argument, with 0 for a null pointer. The spin lock is released before every call
returns and leaves no trace in the sequential state. -/

namespace NeverMind

def kstackSize : ℕ := 8192

def nmTaskNameMax : ℕ := 24

/-- `NM_ERR(code)`. -/
def nmErr (code : ℤ) : ℤ := -code

def nmEfail : ℤ := 1

theorem nmErr_nmEfail_neg : nmErr nmEfail < 0 := by decide

def nmEinval : ℤ := 22

def nmEnoent : ℤ := 2

def nmEnomem : ℤ := 12

/-- `enum nm_task_state`. -/
inductive TaskState where
  | unused
  | runnable
  | running
  | sleeping
  | zombie
  deriving Repr, DecidableEq

/-- `enum nm_sched_policy`. -/
inductive SchedPolicy where
  | rr
  | cfs
  deriving Repr, DecidableEq

/-- The registers of `struct nm_regs` that the code writes. -/
structure Regs where
  rsi : ℕ
  rdi : ℕ
  rdx : ℕ
  rax : ℕ
  rip : ℕ
  rsp : ℕ
  deriving Repr, DecidableEq

/-- `struct nm_sched_param`. -/
structure SchedParam where
  priority : ℕ
  timesliceTicks : ℕ
  vruntime : ℕ
  rrBudget : ℕ
  deriving Repr, DecidableEq

/-- `struct nm_task`, without the fields that no function uses. -/
structure Task where
  pid : ℤ
  ppid : ℤ
  isKernelThread : Bool
  state : TaskState
  regs : Regs
  fdTable : Fin 32 → ℤ
  fdCloexecMask : BitVec 32
  exitCode : ℤ
  argc : ℕ
  envc : ℕ
  sched : SchedParam
  kernelStackTop : ℕ
  savedRsp : ℕ
  entryName : Option (List Char)
  name : List Char

/-- A pointer into the task table. -/
abbrev TaskRef := Fin 128

instance neZeroTasks : NeZero 128 := ⟨by decide⟩

/-- The static variables of `task.c` and `sched.c`. `kstacks` lists the kernel stacks that
were taken from the heap and not given back, and `stackMem` the words written to them. -/
structure Proc where
  taskTable : TaskRef → Task
  taskUsed : ℕ
  nextPid : ℤ
  currentTask : Option TaskRef
  globalPolicy : SchedPolicy
  rrCursor : ℕ
  kstacks : List ℕ
  stackMem : ℕ → Option ℕ

/-- A slot in static storage. -/
def Task.zeroed : Task where
  pid := 0
  ppid := 0
  isKernelThread := false
  state := .unused
  regs := ⟨0, 0, 0, 0, 0, 0⟩
  fdTable := fun _ => 0
  fdCloexecMask := 0
  exitCode := 0
  argc := 0
  envc := 0
  sched := ⟨0, 0, 0, 0⟩
  kernelStackTop := 0
  savedRsp := 0
  entryName := none
  name := []

/-- The static variables at the start of the kernel. -/
def Proc.atStart : Proc where
  taskTable := fun _ => Task.zeroed
  taskUsed := 0
  nextPid := 1
  currentTask := none
  globalPolicy := .rr
  rrCursor := 0
  kstacks := []
  stackMem := fun _ => none

def copyName (src : Option (List Char)) (maxLen : ℕ) : List Char :=
  match src with
  | none => []
  | some cs => cs.take (maxLen - 1)

namespace Proc

def setTask (i : TaskRef) (task : Task) (p : Proc) : Proc :=
  { p with taskTable := Function.update p.taskTable i task }

/-- Change one task in place. -/
def modifyTask (i : TaskRef) (f : Task → Task) (p : Proc) : Proc := p.setTask i (f (p.taskTable i))

def allocTaskSlot (p : Proc) : Option TaskRef :=
  (List.finRange 128).find? fun i => (p.taskTable i).state == .unused

/-- The stack is taken from the heap. -/
def takeStack (kstack : ℕ) (p : Proc) : Proc := { p with kstacks := kstack :: p.kstacks }

def kfree (kstack : ℕ) (p : Proc) : Proc := { p with kstacks := p.kstacks.erase kstack }

/-- The first loop of `proc_init`. -/
def clearSlot (task : Task) : Task :=
  { task with
    state := .unused
    pid := 0
    fdCloexecMask := 0
    exitCode := 0
    argc := 0
    envc := 0
    sched := { task.sched with rrBudget := 0 }
    savedRsp := 0 }

def procInit (p : Proc) : Proc :=
  let p := { p with
    taskTable := fun i => clearSlot (p.taskTable i)
    taskUsed := 0
    nextPid := 1
    currentTask := none }
  match p.allocTaskSlot with
  | none => p
  | some bootstrap =>
    let pid := p.nextPid
    let p := { p with nextPid := i32 (pid + 1) }
    let p := p.modifyTask bootstrap fun task =>
      { task with
        pid := pid
        ppid := 0
        isKernelThread := true
        state := .running
        sched := ⟨20, 4, 0, 0⟩
        fdCloexecMask := 0
        exitCode := 0
        argc := 0
        envc := 0
        savedRsp := 0
        name := copyName (some "bootstrap".toList) nmTaskNameMax
        fdTable := fun _ => -1 }
    { p with taskUsed := 1, currentTask := some bootstrap }

/-- `*(--sp) = word` for each word in turn. -/
def pushWords : List ℕ → ℕ → (ℕ → Option ℕ) → ℕ × (ℕ → Option ℕ)
  | [], sp, mem => (sp, mem)
  | word :: words, sp, mem =>
    let sp := u64Sub sp 8
    pushWords words sp (Function.update mem sp (some word))

/-- The pid of the current task, 0 without one. -/
def currentPid (p : Proc) : ℤ :=
  match p.currentTask with
  | some cur => (p.taskTable cur).pid
  | none => 0

def taskCreateKernelThread (trampoline kstack : ℕ) (name : Option (List Char)) (entry arg : ℕ)
    (p : Proc) : Option TaskRef × Proc :=
  if kstack = 0 then (none, p)
  else
    let p := p.takeStack kstack
    match p.allocTaskSlot with
    | none => (none, p.kfree kstack)
    | some i =>
      let pid := p.nextPid
      let p := { p with nextPid := i32 (pid + 1) }
      let p := p.modifyTask i fun task => { task with pid := pid }
      -- read after the pid was written, as the source does
      let ppid := p.currentPid
      let top := u64 (kstack + kstackSize)
      let (sp, mem) :=
        pushWords [arg, entry, trampoline, 0, 0, 0, 0, 0, 0] (top / 16 * 16) p.stackMem
      let p := { p with stackMem := mem }
      let p := p.modifyTask i fun task =>
        { task with
          ppid := ppid
          isKernelThread := true
          state := .runnable
          sched := ⟨20, 4, 0, 0⟩
          fdCloexecMask := 0
          exitCode := 0
          argc := 0
          envc := 0
          kernelStackTop := top
          savedRsp := sp
          regs := { task.regs with rsp := top, rip := entry }
          entryName := name
          name := copyName name nmTaskNameMax
          fdTable := fun _ => -1 }
      (some i, { p with taskUsed := u64 (p.taskUsed + 1) })

def taskCurrent (p : Proc) : Option TaskRef := p.currentTask

def taskByPid (pid : ℤ) (p : Proc) : Option TaskRef :=
  (List.finRange 128).find? fun i =>
    (p.taskTable i).state != .unused && (p.taskTable i).pid == pid

def taskByIndex (i : TaskRef) (p : Proc) : Option TaskRef :=
  if (p.taskTable i).state = .unused then none else some i

def taskCount (p : Proc) : ℕ := p.taskUsed

def procSetCurrent (task : Option TaskRef) (p : Proc) : Proc := { p with currentTask := task }

def procForkCurrent (kstack : ℕ) (p : Proc) : Option TaskRef × Proc :=
  match p.currentTask with
  | none => (none, p)
  | some cur =>
    match p.allocTaskSlot with
    | none => (none, p)
    | some child =>
      if kstack = 0 then (none, p)
      else
        let p := p.takeStack kstack
        if (p.taskTable child).state ≠ .unused then (none, p.kfree kstack)
        else
          let pid := p.nextPid
          let p := { p with nextPid := i32 (pid + 1) }
          let p := p.setTask child { p.taskTable cur with pid := pid }
          let ppid := (p.taskTable cur).pid
          let top := u64 (kstack + kstackSize)
          let p := p.modifyTask child fun task =>
            { task with
              ppid := ppid
              state := .runnable
              exitCode := 0
              sched := { task.sched with rrBudget := 0 }
              kernelStackTop := top
              regs := { task.regs with rsp := top, rax := 0 }
              savedRsp := top }
          (some child, { p with taskUsed := u64 (p.taskUsed + 1) })

/-- `ptrAt` reads the pointer stored at an address. -/
def countPtrVector (ptrAt : ℕ → ℕ) (vec : ℕ) : ℕ :=
  if vec = 0 then 0
  else ((List.range 64).takeWhile fun count => ptrAt (u64 (vec + 8 * count)) != 0).length

def procExecCurrent (ptrAt : ℕ → ℕ) (name : Option (List Char)) (entry argv envp : ℕ)
    (p : Proc) : ℤ × Proc :=
  match p.currentTask, name with
  | none, _ => (nmErr nmEfail, p)
  | some _, none => (nmErr nmEfail, p)
  | some cur, some name =>
    let argc := countPtrVector ptrAt argv
    (0, p.modifyTask cur fun task =>
      { task with
        entryName := some name
        name := copyName (some name) nmTaskNameMax
        argc := argc
        envc := countPtrVector ptrAt envp
        regs := { task.regs with
          rdi := argc
          rsi := argv
          rdx := envp
          rip := if entry ≠ 0 then entry else task.regs.rip } })

def procExitCurrent (code : ℤ) (p : Proc) : Proc :=
  match p.currentTask with
  | none => p
  | some cur => p.modifyTask cur fun task => { task with exitCode := code, state := .zombie }

/-- The test of the search loop of `proc_waitpid`. -/
def reapable (parent : Task) (pid : ℤ) (task : Task) : Bool :=
  task.state == .zombie && task.ppid == parent.pid && !(decide (pid > 0) && task.pid != pid)

/-- Empty the slot of a reaped task. -/
def reapSlot (task : Task) : Task :=
  { task with state := .unused, pid := 0, ppid := 0, fdCloexecMask := 0, exitCode := 0 }

/-- The result is the pid or an error, and the exit status of the task that was reaped. -/
def procWaitpid (pid : ℤ) (p : Proc) : (ℤ × Option ℤ) × Proc :=
  match p.currentTask with
  | none => ((nmErr nmEfail, none), p)
  | some cur =>
    match (List.finRange 128).find?
        (fun i => reapable (p.taskTable cur) pid (p.taskTable i)) with
    | none => ((nmErr nmEfail, none), p)
    | some m =>
      let task := p.taskTable m
      let p := p.setTask m (reapSlot task)
      let p := { p with taskUsed := if p.taskUsed > 0 then p.taskUsed - 1 else p.taskUsed }
      ((task.pid, some task.exitCode), p)

end Proc

end NeverMind
