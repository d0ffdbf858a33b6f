import NeverMind.Model.Task

/-! # The scheduler

The kernel build of `kernel/proc/sched.c`: a round-robin and a fair policy over the task
table. A context switch saves the stack pointer of the outgoing task, which is an argument
of `sched_yield` here. -/

namespace NeverMind.Proc

def priorityWeight (priority : ℕ) : ℕ :=
  let priority := if priority > 39 then 39 else priority
  40 - priority

def schedInit (policy : SchedPolicy) (p : Proc) : Proc :=
  { p with globalPolicy := policy, rrCursor := 0 }

def schedSetPolicy (policy : SchedPolicy) (p : Proc) : Proc := { p with globalPolicy := policy }

/-- A task other than the current one needs a saved stack to be switched to. -/
def switchable (p : Proc) (i : TaskRef) : Bool :=
  p.currentTask == some i || (p.taskTable i).savedRsp != 0

/-- The test of the round-robin scan. -/
def rrEligible (p : Proc) (i : TaskRef) : Bool :=
  match p.taskByIndex i with
  | none => false
  | some i =>
    ((p.taskTable i).state == .runnable || (p.taskTable i).state == .running) && p.switchable i

/-- The slot probed in a round of the scan. -/
def rrSlot (p : Proc) (probe : ℕ) : TaskRef :=
  ⟨u64 (p.rrCursor + probe) % 128, Nat.mod_lt _ (by decide)⟩

def pickRr (p : Proc) : Option TaskRef × Proc :=
  match (List.range 128).find? (fun probe => p.rrEligible (p.rrSlot probe)) with
  | some probe => (some (p.rrSlot probe), { p with rrCursor := ((p.rrSlot probe).val + 1) % 128 })
  | none => (p.currentTask, p)

/-- One step of a scan for the task with the least virtual runtime. -/
def cfsStep (p : Proc) (wanted : TaskState) (best : Option TaskRef) (i : TaskRef) :
    Option TaskRef :=
  match p.taskByIndex i with
  | none => best
  | some i =>
    if (p.taskTable i).state ≠ wanted then best
    else if !p.switchable i then best
    else
      match best with
      | none => some i
      | some b =>
        if (p.taskTable i).sched.vruntime < (p.taskTable b).sched.vruntime then some i else best

def cfsScan (p : Proc) (wanted : TaskState) : Option TaskRef :=
  (List.finRange 128).foldl (p.cfsStep wanted) none

def pickCfs (p : Proc) : Option TaskRef :=
  match p.cfsScan .runnable with
  | some best => some best
  | none =>
    match p.cfsScan .running with
    | some best => some best
    | none => p.currentTask

def schedPickNext (p : Proc) : Option TaskRef × Proc :=
  match p.globalPolicy with
  | .cfs => (p.pickCfs, p)
  | .rr => p.pickRr

def schedOnRun (task : Option TaskRef) (ticks : ℕ) (p : Proc) : Proc :=
  match task with
  | none => p
  | some i =>
    if ticks = 0 then p
    else
      match p.globalPolicy with
      | .cfs =>
        p.modifyTask i fun task =>
          let w := priorityWeight task.sched.priority
          { task with sched := { task.sched with
              vruntime := u64 (task.sched.vruntime + u64 (ticks * 1024) / w) } }
      | .rr =>
        p.modifyTask i fun task =>
          let budget := u64 (task.sched.rrBudget + ticks)
          if budget ≥ task.sched.timesliceTicks then
            { task with sched := { task.sched with rrBudget := 0 }, state := .runnable }
          else { task with sched := { task.sched with rrBudget := budget } }

/-- The part of a switch that both callers share. -/
def switchTo (cur next : TaskRef) (p : Proc) : Proc :=
  let p := p.modifyTask cur fun task => { task with state := .runnable }
  let p := p.modifyTask next fun task => { task with state := .running }
  p.procSetCurrent (some next)

def schedTick (ticks : ℕ) (p : Proc) : Proc :=
  match p.taskCurrent with
  | none => p
  | some cur =>
    let p := p.schedOnRun (some cur) ticks
    match p.schedPickNext with
    | (none, p) => p
    | (some next, p) => if next = cur then p else p.switchTo cur next

/-- `rsp` is the stack pointer that `nm_context_switch` stores for the outgoing task. -/
def schedYield (rsp : ℕ) (p : Proc) : Proc :=
  match p.taskCurrent with
  | none => p
  | some cur =>
    match p.schedPickNext with
    | (none, p) => p
    | (some next, p) =>
      if next = cur then p
      else
        let p := p.switchTo cur next
        if (p.taskTable next).savedRsp ≠ 0 then
          p.modifyTask cur fun task => { task with savedRsp := rsp }
        else p

end NeverMind.Proc
