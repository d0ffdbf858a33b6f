import NeverMind.Model.Irq

/-! # Interrupts in the main loop

`irq_run_bottom_halves` takes `irq_lock` with interrupts enabled, and so does the interrupt
handler. The handler returns exactly if it arrives outside the lock sections of the loop. -/

namespace NeverMind

variable {τ β δ π : Type*} {h : Handlers τ β δ π}

/-- The loop stands between `irq_lock` and `irq_unlock`. -/
def KmainPc.inSection : KmainPc → Bool
  | .test | .unlockEmpty | .take | .advance | .unlockItem => true
  | .lock | .call | .yield | .halt => false

namespace Irq

variable {s : Irq τ β} {drivers : δ} {ports : π}

theorem irqLock_of_free (hfree : s.irqLockWord = false) :
    s.irqLock = some { s with irqLockWord := true } := by
  simp [irqLock, hfree]

theorem irqLock_of_held (hheld : s.irqLockWord = true) : s.irqLock = none := by
  simp [irqLock, hheld]

@[simp] theorem irqLockWord_irqUnlock (s : Irq τ β) : s.irqUnlock.irqLockWord = false := rfl

theorem queueBottomHalf_of_free (hfree : s.irqLockWord = false) (bottomHalf : Option β) (ctx : ℕ) :
    ∃ s', s.queueBottomHalf bottomHalf ctx = some s' ∧ s'.irqLockWord = false := by
  cases bottomHalf with
  | none => exact ⟨s, rfl, hfree⟩
  | some fn =>
    simp only [queueBottomHalf, irqLock_of_free hfree]
    exact ⟨_, rfl, irqLockWord_irqUnlock _⟩

theorem irqHandle_of_free (hfree : s.irqLockWord = false) (h : Handlers τ β δ π) (irq : ℤ)
    (ports : π) (drivers : δ) :
    ∃ ret s' drivers', s.irqHandle h irq ports drivers = some (ret, s', drivers') ∧
      s'.irqLockWord = false := by
  unfold irqHandle
  cases entry irq with
  | none => exact ⟨_, _, _, rfl, hfree⟩
  | some i =>
    simp only [irqLock_of_free hfree]
    cases hused : (s.irqTable i).used with
    | false => exact ⟨_, _, _, rfl, rfl⟩
    | true =>
      cases htop : (s.irqTable i).topHalf with
      | none => exact ⟨_, _, _, rfl, rfl⟩
      | some top =>
        obtain ⟨s', hqueue, hfree'⟩ :=
          queueBottomHalf_of_free (irqLockWord_irqUnlock _) (s.irqTable i).bottomHalf
            (s.irqTable i).ctx
        exact ⟨_, _, _, congrArg (Option.map _) hqueue, hfree'⟩

theorem irqHandle_of_held (hheld : s.irqLockWord = true) {irq : ℤ} (hirq : 0 ≤ irq ∧ irq < 256) :
    s.irqHandle h irq ports drivers = none := by
  have hentry : ∃ i, entry irq = some i := ⟨_, dif_pos hirq⟩
  obtain ⟨i, hi⟩ := hentry
  simp only [irqHandle, hi, irqLock_of_held hheld]

end Irq

namespace Cpu

variable {s s' start : Cpu τ β δ}

def Delivered (vector : ℕ) : Prop := vector = 32 ∨ vector = 33

/-- The states of the loop, with interrupts between any two steps. -/
inductive Reached (h : Handlers τ β δ π) (start : Cpu τ β δ) : Cpu τ β δ → Prop where
  | start : Reached h start start
  | main {s s' : Cpu τ β δ} (hs : Reached h start s) (hstep : s.mainStep h = some s') :
      Reached h start s'
  | interrupt {s s' : Cpu τ β δ} (hs : Reached h start s) {vector : ℕ}
      (hvector : Delivered vector) (ports : π) (hstep : s.interrupt h vector ports = some s') :
      Reached h start s'

/-- The lock is held exactly in the lock sections of the loop. -/
def LockMatches (s : Cpu τ β δ) : Prop := s.irq.irqLockWord = s.pc.inSection

/-- The loop never waits for its own lock. -/
theorem mainStep_of_lockMatches (hlock : s.LockMatches) (h : Handlers τ β δ π) :
    ∃ s', s.mainStep h = some s' ∧ s'.LockMatches := by
  unfold LockMatches at hlock
  unfold mainStep
  cases hpc : s.pc with
  | lock =>
    rw [hpc] at hlock
    rw [Irq.irqLock_of_free hlock]
    exact ⟨_, rfl, rfl⟩
  | test =>
    rw [hpc] at hlock
    by_cases hempty : s.irq.bhHead = s.irq.bhTail
    · exact ⟨_, if_pos hempty, hlock⟩
    · exact ⟨_, if_neg hempty, hlock⟩
  | take | advance | yield =>
    rw [hpc] at hlock
    exact ⟨_, rfl, hlock⟩
  | unlockEmpty => exact ⟨_, rfl, rfl⟩
  | unlockItem => exact ⟨_, rfl, rfl⟩
  | call =>
    rw [hpc] at hlock
    cases hfn : s.item.fn with
    | none => exact ⟨_, rfl, hlock⟩
    | some fn => exact ⟨_, rfl, hlock⟩
  | halt => exact ⟨s, rfl, hlock⟩

theorem inSection_resume (pc : KmainPc) (hpc : pc.inSection = false) :
    (if pc = .halt then KmainPc.lock else pc).inSection = false := by
  split
  · rfl
  · exact hpc

theorem interrupt_of_not_inSection (hlock : s.LockMatches) (hpc : s.pc.inSection = false)
    (h : Handlers τ β δ π) (vector : ℕ) (ports : π) :
    ∃ s', s.interrupt h vector ports = some s' ∧ s'.LockMatches := by
  have hfree : s.irq.irqLockWord = false := hlock.trans hpc
  obtain ⟨ret, irq, drivers, hhandle, hfree'⟩ :=
    Irq.irqHandle_of_free hfree h (i32 vector) ports s.drivers
  unfold interrupt Irq.nmIrqIsr
  rw [hhandle]
  exact ⟨_, rfl, hfree'.trans (inSection_resume s.pc hpc).symm⟩

theorem interrupt_of_inSection (hlock : s.LockMatches) (hpc : s.pc.inSection = true) {vector : ℕ}
    (hvector : Delivered vector) (ports : π) : s.interrupt h vector ports = none := by
  have hrange : (0 : ℤ) ≤ i32 (vector : ℤ) ∧ i32 (vector : ℤ) < 256 := by
    rw [i32_of_lt] <;> unfold Delivered at hvector <;> omega
  unfold interrupt Irq.nmIrqIsr
  rw [Irq.irqHandle_of_held (hlock.trans hpc) hrange]
  rfl

theorem Reached.lockMatches (hstart : start.LockMatches) (hs : Reached h start s) :
    s.LockMatches := by
  induction hs with
  | start => exact hstart
  | main hs hstep ih =>
    obtain ⟨s', hnext, hlock⟩ := mainStep_of_lockMatches ih h
    rw [hnext] at hstep
    cases hstep
    exact hlock
  | @interrupt s₁ _ hs vector hvector ports hstep ih =>
    cases hpc : s₁.pc.inSection with
    | false =>
      obtain ⟨s', hnext, hlock⟩ := interrupt_of_not_inSection ih hpc h vector ports
      rw [hnext] at hstep
      cases hstep
      exact hlock
    | true =>
      rw [interrupt_of_inSection ih hpc hvector ports] at hstep
      cases hstep

/-- The loop of `kmain` with released lock, before its first step. -/
def AtLoop (s : Cpu τ β δ) : Prop := s.irq.irqLockWord = false ∧ s.pc = .lock

theorem AtLoop.lockMatches (hs : s.AtLoop) : s.LockMatches := by
  rw [LockMatches, hs.1, hs.2]
  rfl

/-- Wherever the loop stands, it can go on, and an interrupt handler that starts there returns
exactly if the loop is outside its lock sections. -/
theorem isr_returns_iff (hstart : start.AtLoop) (hs : Reached h start s) {vector : ℕ}
    (hvector : Delivered vector) (ports : π) :
    (s.mainStep h).isSome ∧ ((s.interrupt h vector ports).isSome ↔ s.pc.inSection = false) := by
  have hlock := hs.lockMatches hstart.lockMatches
  constructor
  · obtain ⟨s', hnext, -⟩ := mainStep_of_lockMatches hlock h
    rw [hnext]
    rfl
  · cases hpc : s.pc.inSection with
    | false =>
      obtain ⟨s', hnext, -⟩ := interrupt_of_not_inSection hlock hpc h vector ports
      simp [hnext]
    | true => simp [interrupt_of_inSection hlock hpc hvector ports]

/-- The loop of `kmain` after the drivers are started. -/
def kmainLoop (irq : Irq TopHalf Empty) : Cpu TopHalf Empty Drivers where
  irq := irq
  drivers := ⟨0, -1⟩
  pc := .lock
  item := ⟨none, 0⟩

theorem booted_free :
    ∃ irq, Irq.booted = some irq ∧ irq.irqLockWord = false ∧ irq.bhHead = irq.bhTail :=
  ⟨_, rfl, rfl, rfl⟩

theorem lock_step {irq : Irq TopHalf Empty} (hfree : irq.irqLockWord = false) :
    (kmainLoop irq).mainStep Handlers.kernel =
      some { kmainLoop irq with irq := { irq with irqLockWord := true }, pc := .test } := by
  simp only [mainStep, kmainLoop, Irq.irqLock_of_free hfree, Option.map_some]

/-- The loop has taken the lock, found nothing to run and released the lock again. -/
theorem isr_returns_in_yield :
    ∃ irq s, Irq.booted = some irq ∧ Reached Handlers.kernel (kmainLoop irq) s ∧ s.pc = .yield ∧
      (s.interrupt Handlers.kernel 32 ⟨0, 0⟩).isSome := by
  obtain ⟨irq, hbooted, hfree, hempty⟩ := booted_free
  have hreached := ((Reached.start.main (lock_step hfree)).main (if_pos hempty)).main rfl
  exact ⟨irq, _, hbooted, hreached, rfl,
    (isr_returns_iff ⟨hfree, rfl⟩ hreached (.inl rfl) ⟨0, 0⟩).2.mpr rfl⟩

/-- A timer interrupt that arrives just after `irq_run_bottom_halves` took the lock never
returns. -/
theorem timer_spins_in_lock_section :
    ∃ irq s, Irq.booted = some irq ∧ Reached Handlers.kernel (kmainLoop irq) s ∧
      s.irq.irqLockWord = true ∧ s.pc = .test ∧
      ∀ ports, s.interrupt Handlers.kernel 32 ports = none := by
  obtain ⟨irq, hbooted, hfree, -⟩ := booted_free
  have hreached := Reached.start.main (lock_step hfree)
  refine ⟨irq, _, hbooted, hreached, rfl, rfl, ?_⟩
  intro ports
  have hatLoop : (kmainLoop irq).AtLoop := ⟨hfree, rfl⟩
  exact interrupt_of_inSection (hreached.lockMatches hatLoop.lockMatches) rfl (.inl rfl) ports

end Cpu

end NeverMind
