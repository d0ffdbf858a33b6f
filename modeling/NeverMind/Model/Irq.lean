import NeverMind.Model.Task

/-! # Interrupts

`kernel/drivers/irq.c`, `kernel/irq_isr.c` and the loop at the end of `kmain`. There is one
processor, and an interrupt gate keeps further interrupts out of the handler, so that a spin on
a lock that the interrupted code holds never ends. Code that may spin returns an `Option`, and
`none` says that it spins for ever. -/

namespace NeverMind

def nmBhQueueCap : ℕ := 256

def nmEbusy : ℤ := 16

variable {τ β δ π : Type*}

/-- `struct nm_irq_desc`, over the top halves `τ` and the bottom halves `β`. -/
structure IrqDesc (τ β : Type*) where
  used : Bool
  topHalf : Option τ
  bottomHalf : Option β
  ctx : ℕ
  hitCount : ℕ
  deriving Repr, DecidableEq

/-- `struct bh_item`. -/
structure BhItem (β : Type*) where
  fn : Option β
  ctx : ℕ
  deriving Repr, DecidableEq

/-- The static variables of `irq.c`. -/
structure Irq (τ β : Type*) where
  irqTable : Fin 256 → IrqDesc τ β
  bhQueue : Fin 256 → BhItem β
  bhHead : Fin 256
  bhTail : Fin 256
  irqLockWord : Bool

/-- What the registered functions do: a top half reads the ports `π` and changes the state `δ` of
the drivers, and a bottom half changes the state of the drivers. None of them calls `irq.c`. -/
structure Handlers (τ β δ π : Type*) where
  top : τ → ℤ → ℕ → π → δ → δ
  bottom : β → ℕ → δ → δ

namespace Irq

def irqLock (s : Irq τ β) : Option (Irq τ β) :=
  if s.irqLockWord then none else some { s with irqLockWord := true }

def irqUnlock (s : Irq τ β) : Irq τ β := { s with irqLockWord := false }

/-- `(i + 1) % NM_BH_QUEUE_CAP`. -/
def nextSlot (i : Fin 256) : Fin 256 := ⟨(i.val + 1) % 256, Nat.mod_lt _ (by decide)⟩

def bhEnqueue (fn : Option β) (ctx : ℕ) (s : Irq τ β) : ℤ × Irq τ β :=
  if nextSlot s.bhTail = s.bhHead then (nmErr nmEbusy, s)
  else
    (0, { s with
      bhQueue := Function.update s.bhQueue s.bhTail ⟨fn, ctx⟩
      bhTail := nextSlot s.bhTail })

def irqInit (s : Irq τ β) : Irq τ β :=
  { s with
    irqTable := fun _ => ⟨false, none, none, 0, 0⟩
    bhHead := 0
    bhTail := 0
    irqLockWord := false }

def setDesc (i : Fin 256) (d : IrqDesc τ β) (s : Irq τ β) : Irq τ β :=
  { s with irqTable := Function.update s.irqTable i d }

/-- The entry of an interrupt number that is in range. -/
def entry (irq : ℤ) : Option (Fin 256) :=
  if h : 0 ≤ irq ∧ irq < 256 then some ⟨irq.toNat, by omega⟩ else none

def irqRegister (irq : ℤ) (topHalf : Option τ) (bottomHalf : Option β) (ctx : ℕ) (s : Irq τ β) :
    Option (ℤ × Irq τ β) :=
  match entry irq, topHalf with
  | some i, some top =>
    match s.irqLock with
    | none => none
    | some s => some (0, (s.setDesc i ⟨true, some top, bottomHalf, ctx, 0⟩).irqUnlock)
  | _, _ => some (nmErr nmEfail, s)

def irqUnregister (irq : ℤ) (s : Irq τ β) : Option (ℤ × Irq τ β) :=
  match entry irq with
  | none => some (nmErr nmEfail, s)
  | some i =>
    match s.irqLock with
    | none => none
    | some s => some (0, (s.setDesc i ⟨false, none, none, 0, 0⟩).irqUnlock)

/-- The second lock section of `irq_handle`. -/
def queueBottomHalf (bottomHalf : Option β) (ctx : ℕ) (s : Irq τ β) : Option (Irq τ β) :=
  match bottomHalf with
  | none => some s
  | some _ =>
    match s.irqLock with
    | none => none
    | some s => some (s.bhEnqueue bottomHalf ctx).2.irqUnlock

def irqHandle (h : Handlers τ β δ π) (irq : ℤ) (ports : π) (s : Irq τ β) (drivers : δ) :
    Option (ℤ × Irq τ β × δ) :=
  match entry irq with
  | none => some (nmErr nmEfail, s, drivers)
  | some i =>
    match s.irqLock with
    | none => none
    | some s =>
      let d := s.irqTable i
      match d.used, d.topHalf with
      | true, some top =>
        let s := (s.setDesc i { d with hitCount := u64 (d.hitCount + 1) }).irqUnlock
        let drivers := h.top top irq d.ctx ports drivers
        (s.queueBottomHalf d.bottomHalf d.ctx).map fun s => (0, s, drivers)
      | _, _ => some (nmErr nmEfail, s.irqUnlock, drivers)

/-- `nm_irq_isr`, with the line that is acknowledged to the interrupt controller. -/
def nmIrqIsr (h : Handlers τ β δ π) (vector : ℕ) (ports : π) (s : Irq τ β) (drivers : δ) :
    Option (Option ℕ × Irq τ β × δ) :=
  (s.irqHandle h (i32 vector) ports drivers).map fun r =>
    (if 32 ≤ vector ∧ vector < 48 then some (vector - 32) else none, r.2.1, r.2.2)

end Irq

/-- Where the loop of `kmain` stands. -/
inductive KmainPc where
  /-- `irq_lock` of `irq_run_bottom_halves` -/
  | lock
  /-- `bh_head == bh_tail` -/
  | test
  /-- `irq_unlock` before the `break` -/
  | unlockEmpty
  /-- `item = bh_queue[bh_head]` -/
  | take
  /-- `bh_head = (bh_head + 1) % NM_BH_QUEUE_CAP` -/
  | advance
  /-- `irq_unlock` with an item -/
  | unlockItem
  /-- `item.fn(item.ctx)` -/
  | call
  /-- `sched_yield` -/
  | yield
  /-- `hlt` -/
  | halt
  deriving Repr, DecidableEq

/-- The processor in the loop of `kmain`. -/
structure Cpu (τ β δ : Type*) where
  irq : Irq τ β
  drivers : δ
  pc : KmainPc
  item : BhItem β

namespace Cpu

/-- One step of the loop. The tasks that run in `sched_yield` do not call `irq.c`, and `hlt`
waits for an interrupt. -/
def mainStep (h : Handlers τ β δ π) (s : Cpu τ β δ) : Option (Cpu τ β δ) :=
  match s.pc with
  | .lock => s.irq.irqLock.map fun irq => { s with irq := irq, pc := .test }
  | .test =>
    if s.irq.bhHead = s.irq.bhTail then some { s with pc := .unlockEmpty }
    else some { s with pc := .take }
  | .unlockEmpty => some { s with irq := s.irq.irqUnlock, pc := .yield }
  | .take => some { s with item := s.irq.bhQueue s.irq.bhHead, pc := .advance }
  | .advance =>
    some { s with irq := { s.irq with bhHead := Irq.nextSlot s.irq.bhHead }, pc := .unlockItem }
  | .unlockItem => some { s with irq := s.irq.irqUnlock, pc := .call }
  | .call =>
    match s.item.fn with
    | none => some { s with pc := .lock }
    | some fn => some { s with drivers := h.bottom fn s.item.ctx s.drivers, pc := .lock }
  | .yield => some { s with pc := .halt }
  | .halt => some s

/-- An interrupt between two steps. It ends a `hlt`. -/
def interrupt (h : Handlers τ β δ π) (vector : ℕ) (ports : π) (s : Cpu τ β δ) :
    Option (Cpu τ β δ) :=
  (s.irq.nmIrqIsr h vector ports s.drivers).map fun r =>
    { s with
      irq := r.2.1
      drivers := r.2.2
      pc := if s.pc = .halt then .lock else s.pc }

end Cpu

/-! ## The registered handlers -/

/-- The top halves of `pit.c` and `keyboard.c`. -/
inductive TopHalf where
  | pitIrqTop
  | keyboardIrqTop
  deriving Repr, DecidableEq

/-- `g_pit_ticks` and `g_last_char`. -/
structure Drivers where
  pitTicks : ℕ
  lastChar : ℤ
  deriving Repr, DecidableEq

/-- What the status and the data port of the keyboard controller read as. -/
structure KbdPorts where
  status : ℕ
  data : ℕ

/-- The table of `scancode_to_ascii`; codes past its end are 0. -/
def scancodeMap : List ℕ :=
  [0, 27, 49, 50, 51, 52, 53, 54, 55, 56, 57, 48, 45, 61, 8, 9,
    113, 119, 101, 114, 116, 121, 117, 105, 111, 112, 91, 93, 10, 0, 97, 115,
    100, 102, 103, 104, 106, 107, 108, 59, 39, 96, 0, 92, 122, 120, 99, 118,
    98, 110, 109, 44, 46, 47, 0, 42, 0, 32]

def scancodeToAscii (sc : ℕ) : ℕ := if 128 ≤ sc then 0 else scancodeMap.getD sc 0

def keyboardIrqTop (ports : KbdPorts) (d : Drivers) : Drivers :=
  if ports.status % 2 = 0 then d
  else if ports.data / 128 % 2 = 1 then d
  else
    let c := scancodeToAscii ports.data
    if c ≠ 0 then { d with lastChar := c } else d

/-- No driver of the kernel registers a bottom half. -/
def Handlers.kernel : Handlers TopHalf Empty Drivers KbdPorts where
  top := fun top _ _ ports d =>
    match top with
    | .pitIrqTop => { d with pitTicks := u64 (d.pitTicks + 1) }
    | .keyboardIrqTop => keyboardIrqTop ports d
  bottom := fun fn _ _ => fn.elim

/-- The static variables before `irq_init`. -/
def Irq.atStart : Irq TopHalf Empty where
  irqTable := fun _ => ⟨false, none, none, 0, 0⟩
  bhQueue := fun _ => ⟨none, 0⟩
  bhHead := 0
  bhTail := 0
  irqLockWord := false

/-- `irq_init`, `pit_init` and `keyboard_init`. -/
def Irq.booted : Option (Irq TopHalf Empty) :=
  match Irq.atStart.irqInit.irqRegister 32 (some .pitIrqTop) none 0 with
  | none => none
  | some (_, s) => (s.irqRegister 33 (some .keyboardIrqTop) none 0).map Prod.snd

end NeverMind
