import NeverMind.Library.Ring
import NeverMind.Model.Irq

/-! # Bottom halves and callbacks

`irq_run_bottom_halves` of `kernel/drivers/irq.c`, and the calls of that file as drivers make
them, one after the other. The registered functions run without the lock and may call `irq.c`
themselves, so a call is modelled together with the calls made on the way. Ghost variables
follow each registration from `irq_register` to the items it has queued. -/

namespace NeverMind

instance neZeroBhQueue : NeZero 256 := ⟨by decide⟩

variable {τ β δ π : Type*}

namespace Irq

/-- The first lock section of `irq_handle`: the top half, the bottom half and the context of
the entry, if it is in use. -/
def copyEntry (irq : ℤ) (s : Irq τ β) : Option (Option (τ × Option β × ℕ) × Irq τ β) :=
  match entry irq with
  | none => some (none, s)
  | some i =>
    match s.irqLock with
    | none => none
    | some s =>
      let d := s.irqTable i
      match d.used, d.topHalf with
      | true, some top =>
        some (some (top, d.bottomHalf, d.ctx),
          (s.setDesc i { d with hitCount := u64 (d.hitCount + 1) }).irqUnlock)
      | _, _ => some (none, s.irqUnlock)

/-- The lock section of one round of `irq_run_bottom_halves`: the item taken, or none when
the loop ends. -/
def takeItem (s : Irq τ β) : Option (Option (BhItem β) × Irq τ β) :=
  match s.irqLock with
  | none => none
  | some s =>
    if s.bhHead = s.bhTail then some (none, s.irqUnlock)
    else
      let item := s.bhQueue s.bhHead
      some (some item, { s with bhHead := nextSlot s.bhHead }.irqUnlock)

/-- How many items are in the ring. -/
def pendingCount (s : Irq τ β) : ℕ := (s.bhTail.val + 256 - s.bhHead.val) % 256

end Irq

/-- A call into `irq.c`; an interrupt comes with what its top half reads from the ports. -/
inductive IrqCall (τ β π : Type*) where
  | irqRegister (irq : ℤ) (topHalf : Option τ) (bottomHalf : Option β) (ctx : ℕ)
  | irqUnregister (irq : ℤ)
  | irqHandle (irq : ℤ) (ports : π)
  | irqRunBottomHalves

/-- What a callback does: it leaves the drivers in some state and returns, or it calls `irq.c`
and goes on with the result and the state of the drivers after that. -/
inductive Script (τ β δ π : Type*) where
  | ret (drivers : δ)
  | call (c : IrqCall τ β π) (drivers : δ) (next : ℤ → δ → Script τ β δ π)

/-- The functions that can be registered. -/
structure Callbacks (τ β δ π : Type*) where
  top : τ → ℤ → ℕ → π → δ → Script τ β δ π
  bottom : β → ℕ → δ → Script τ β δ π

/-- What happens to registrations and to items. An item belongs to the registration that was
in the table when its `irq_handle` began. -/
inductive IrqEvent (β : Type*) where
  /-- `bh_enqueue` took the item -/
  | accepted (reg : Option ℕ) (item : BhItem β)
  /-- `bh_enqueue` refused the item while so many were pending -/
  | refused (reg : Option ℕ) (item : BhItem β) (pending : ℕ)
  /-- `item.fn(item.ctx)` -/
  | invoked (reg : Option ℕ) (item : BhItem β)
  /-- `irq_unregister` removed the registration; `idle` says that no item of it was pending
  or about to be queued -/
  | unregistered (reg : ℕ) (idle : Bool)
  deriving Repr, DecidableEq

/-- The static variables of `irq.c` and the state of the drivers. The ghost variables are the
registration in each entry of the table, the registration of the item in each slot of the
ring, the next registration, the registrations whose `irq_handle` stands before its
`bh_enqueue`, and the events so far. -/
structure IrqSys (τ β δ : Type*) where
  irq : Irq τ β
  drivers : δ
  owner : Fin 256 → Option ℕ
  slotOwner : Fin 256 → Option ℕ
  nextReg : ℕ
  inFlight : List (Option ℕ)
  log : List (IrqEvent β)

namespace IrqSys

/-- The registrations of the pending items, the oldest first. -/
def pendingRegs (s : IrqSys τ β δ) : List (Option ℕ) :=
  Ring.between s.slotOwner s.irq.bhHead s.irq.bhTail

/-- No item of the registration is pending or about to be queued. -/
def idle (reg : ℕ) (s : IrqSys τ β δ) : Bool :=
  decide (some reg ∉ s.pendingRegs ∧ some reg ∉ s.inFlight)

def irqRegister (irq : ℤ) (topHalf : Option τ) (bottomHalf : Option β) (ctx : ℕ)
    (s : IrqSys τ β δ) : Option (ℤ × IrqSys τ β δ) :=
  (s.irq.irqRegister irq topHalf bottomHalf ctx).map fun r =>
    match Irq.entry irq, topHalf with
    | some i, some _ =>
      (r.1, { s with
        irq := r.2
        owner := Function.update s.owner i (some s.nextReg)
        nextReg := s.nextReg + 1 })
    | _, _ => (r.1, { s with irq := r.2 })

def irqUnregister (irq : ℤ) (s : IrqSys τ β δ) : Option (ℤ × IrqSys τ β δ) :=
  (s.irq.irqUnregister irq).map fun r =>
    match (Irq.entry irq).bind fun i => (s.owner i).map fun reg => (i, reg) with
    | some (i, reg) =>
      (r.1, { s with
        irq := r.2
        owner := Function.update s.owner i none
        log := s.log ++ [.unregistered reg (s.idle reg)] })
    | none => (r.1, { s with irq := r.2 })

/-- The first lock section of `irq_handle`, with the registration found. -/
def beginHandle (irq : ℤ) (s : IrqSys τ β δ) :
    Option (Option (Option ℕ × τ × Option β × ℕ) × IrqSys τ β δ) :=
  (s.irq.copyEntry irq).map fun r =>
    match r.1 with
    | none => (none, { s with irq := r.2 })
    | some (top, none, ctx) => (some (none, top, none, ctx), { s with irq := r.2 })
    | some (top, some bottom, ctx) =>
      let reg := (Irq.entry irq).bind s.owner
      (some (reg, top, some bottom, ctx), { s with irq := r.2, inFlight := reg :: s.inFlight })

/-- The second lock section of `irq_handle`. -/
def endHandle (reg : Option ℕ) (bottomHalf : Option β) (ctx : ℕ) (s : IrqSys τ β δ) :
    Option (IrqSys τ β δ) :=
  (s.irq.queueBottomHalf bottomHalf ctx).map fun irq =>
    match bottomHalf with
    | none => { s with irq := irq }
    | some fn =>
      if Irq.nextSlot s.irq.bhTail = s.irq.bhHead then
        { s with
          irq := irq
          inFlight := s.inFlight.tail
          log := s.log ++ [.refused reg ⟨some fn, ctx⟩ s.irq.pendingCount] }
      else
        { s with
          irq := irq
          slotOwner := Function.update s.slotOwner s.irq.bhTail reg
          inFlight := s.inFlight.tail
          log := s.log ++ [.accepted reg ⟨some fn, ctx⟩] }

/-- The lock section of one round of `irq_run_bottom_halves`: the item taken, with its
registration. -/
def takeItem (s : IrqSys τ β δ) : Option (Option (Option ℕ × BhItem β) × IrqSys τ β δ) :=
  s.irq.takeItem.map fun r =>
    (r.1.map fun item => (s.slotOwner s.irq.bhHead, item), { s with irq := r.2 })

/-- A bottom half is called. -/
def noteCall (reg : Option ℕ) (item : BhItem β) (s : IrqSys τ β δ) : IrqSys τ β δ :=
  { s with log := s.log ++ [.invoked reg item] }

end IrqSys

/-- Run a callback, where `perform` is what its calls do. The flag says that it returned. -/
def Script.exec (perform : IrqCall τ β π → IrqSys τ β δ → Option ℤ × IrqSys τ β δ) :
    Script τ β δ π → IrqSys τ β δ → Bool × IrqSys τ β δ
  | .ret drivers, s => (true, { s with drivers := drivers })
  | .call c drivers next, s =>
    match perform c { s with drivers := drivers } with
    | (none, s) => (false, s)
    | (some r, s) => (next r s.drivers).exec perform s

namespace Callbacks

/-- A call with its callbacks. Without a result it has not returned, either because it spins
on the lock or because `fuel` bounds how deep calls nest and how many rounds the loop makes;
the state is the one it has reached. -/
def perform (h : Callbacks τ β δ π) :
    ℕ → IrqCall τ β π → IrqSys τ β δ → Option ℤ × IrqSys τ β δ
  | 0, _, s => (none, s)
  | _ + 1, .irqRegister irq topHalf bottomHalf ctx, s =>
    match s.irqRegister irq topHalf bottomHalf ctx with
    | none => (none, s)
    | some (r, s) => (some r, s)
  | _ + 1, .irqUnregister irq, s =>
    match s.irqUnregister irq with
    | none => (none, s)
    | some (r, s) => (some r, s)
  | fuel + 1, .irqHandle irq ports, s =>
    match s.beginHandle irq with
    | none => (none, s)
    | some (none, s) => (some (nmErr nmEfail), s)
    | some (some (reg, top, bottom, ctx), s) =>
      match (h.top top irq ctx ports s.drivers).exec (h.perform fuel) s with
      | (false, s) => (none, s)
      | (true, s) =>
        match s.endHandle reg bottom ctx with
        | none => (none, s)
        | some s => (some 0, s)
  | fuel + 1, .irqRunBottomHalves, s =>
    match s.takeItem with
    | none => (none, s)
    | some (none, s) => (some 0, s)
    | some (some (_, ⟨none, _⟩), s) => h.perform fuel .irqRunBottomHalves s
    | some (some (reg, ⟨some fn, ctx⟩), s) =>
      let s := s.noteCall reg ⟨some fn, ctx⟩
      match (h.bottom fn ctx s.drivers).exec (h.perform fuel) s with
      | (false, s) => (none, s)
      | (true, s) => h.perform fuel .irqRunBottomHalves s

/-- Calls made one after the other. The flag says that all of them returned. -/
def performAll (h : Callbacks τ β δ π) (fuel : ℕ) :
    List (IrqCall τ β π) → IrqSys τ β δ → Bool × IrqSys τ β δ
  | [], s => (true, s)
  | c :: calls, s =>
    match h.perform fuel c s with
    | (none, s) => (false, s)
    | (some _, s) => h.performAll fuel calls s

end Callbacks

end NeverMind
