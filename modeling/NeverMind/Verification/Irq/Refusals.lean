import NeverMind.Verification.Irq.InOrder

/-! # What the result of `irq_handle` says

`bh_enqueue` reports a full ring with `NM_EBUSY`, and `irq_handle` discards that result. Its own
result is 0 for every interrupt with a bottom half, whether the item is in the ring or lost. -/

namespace NeverMind

open IrqSys Callbacks

variable {τ β δ π : Type*} {h : Callbacks τ β δ π} {fuel : ℕ} {irq : ℤ} {ports : π}
  {s mid : IrqSys τ β δ}

def Irq.items (q : Irq τ β) : List (BhItem β) := Ring.between q.bhQueue q.bhHead q.bhTail

/-- The state in which the top half has returned, before the second lock section. -/
def Callbacks.afterTop (h : Callbacks τ β δ π) (fuel : ℕ) (irq : ℤ) (ports : π)
    (s : IrqSys τ β δ) : Option (IrqSys τ β δ) :=
  match s.beginHandle irq with
  | some (some (_, top, _, ctx), s) =>
    match (h.top top irq ctx ports s.drivers).exec (h.perform fuel) s with
    | (true, s) => some s
    | (false, _) => none
  | _ => none

/-- The result of `irq_handle` tells whether the item was queued, and a full ring is an error. -/
structure Reports (item : BhItem β) (mid : IrqSys τ β δ) (r : ℤ) (s' : IrqSys τ β δ) : Prop where
  zero_iff : r = 0 ↔ s'.irq.items = mid.irq.items ++ [item]
  full : mid.irq.pendingCount = nmBhQueueCap - 1 → r ≠ 0

theorem Irq.Pushed.items_eq {q q' : Irq τ β} {item : BhItem β} (ring : q.Pushed item q') :
    q'.items = q.items ++ [item] := by
  rw [Irq.items, ring.queue_eq, ring.head_eq, ring.tail_eq]
  exact Ring.between_push _ ring.room item

/-- A call that gets past the first lock section has found the lock free. -/
theorem IrqSys.free_of_beginHandle {x : Option ℕ × τ × Option β × ℕ} {s' : IrqSys τ β δ}
    (hbegin : s.beginHandle irq = some (some x, s')) : s.Free := by
  unfold Free
  by_contra hheld
  rw [Bool.not_eq_false] at hheld
  unfold beginHandle Irq.copyEntry Irq.irqLock at hbegin
  rw [hheld] at hbegin
  cases hentry : Irq.entry irq with
  | none => simp [hentry] at hbegin
  | some i => simp [hentry] at hbegin

/-- The second lock section of an interrupt with a bottom half. -/
theorem reports_endHandle_iff (hfree : mid.Free) (reg : Option ℕ) (fn : β) (ctx : ℕ) :
    ∃ s', mid.endHandle reg (some fn) ctx = some s' ∧
      (Reports ⟨some fn, ctx⟩ mid 0 s' ↔ mid.irq.pendingCount < nmBhQueueCap - 1) := by
  obtain ⟨q, hq, hring⟩ := Irq.queueBottomHalf_section hfree fn ctx
  have hlt := pendingCount_lt mid.irq
  obtain ⟨s', hend, hirq⟩ : ∃ s', mid.endHandle reg (some fn) ctx = some s' ∧ s'.irq = q := by
    simp only [endHandle, hq, Option.map_some]
    split
    · exact ⟨_, rfl, rfl⟩
    · exact ⟨_, rfl, rfl⟩
  refine ⟨s', hend, ?_⟩
  rcases hring with ⟨hfull, ring⟩ | ring
  · -- the ring is full: the item is lost and the result is 0 all the same
    have hcount := Irq.pendingCount_of_full hfull
    constructor
    · intro hreports
      exact absurd rfl (hreports.full hcount)
    · intro hroom
      omega
  · have hcount : mid.irq.pendingCount ≠ nmBhQueueCap - 1 := by
      intro hcount
      refine ring.room ((Ring.next_eq_iff _ _).mpr ?_)
      change mid.irq.pendingCount + 1 = 256
      rw [hcount]
      rfl
    constructor
    · intro _
      omega
    · intro _
      refine ⟨?_, fun hfull => absurd hfull hcount⟩
      rw [hirq, ring.items_eq]
      simp

/-- For every interrupt whose registration has a bottom half, from any state and with any
callbacks: `irq_handle` reports what became of the item exactly if the ring has room when the
top half has returned. -/
theorem irq_handle_reports_queueing_iff (h : Callbacks τ β δ π) (fuel : ℕ) (irq : ℤ) (ports : π)
    (s mid : IrqSys τ β δ) (top : τ) (fn : β) (ctx : ℕ)
    (hfound : s.irq.found irq = some (top, some fn, ctx))
    (hmid : h.afterTop fuel irq ports s = some mid) :
    ∃ r s', h.perform (fuel + 1) (.irqHandle irq ports) s = (some r, s') ∧
      (Reports ⟨some fn, ctx⟩ mid r s' ↔ mid.irq.pendingCount < nmBhQueueCap - 1) := by
  unfold afterTop at hmid
  split at hmid
  · rename_i reg top' bottom ctx' s₁ hbegin
    have hfree := free_of_beginHandle hbegin
    obtain ⟨s₂, hboth, hsec⟩ := beginHandle_both hfree hfound
    rw [hbegin] at hboth
    cases hboth
    have hexec := (h.top top irq ctx ports s₁.drivers).exec_performed
      (h.perform_performed fuel) (hsec.step.free hfree)
    split at hmid
    · rename_i hrun
      cases hmid
      rw [hrun] at hexec
      have hfree' := free_of_steps hexec.steps (hsec.step.free hfree)
      obtain ⟨s', hend, hiff⟩ := reports_endHandle_iff hfree'
        ((Irq.entry irq).bind s.owner) fn ctx
      refine ⟨0, s', ?_, hiff⟩
      simp only [perform, hbegin, hrun, hend]
    · cases hmid
  · cases hmid

def IrqSys.raised (n : ℕ) : Bool × IrqSys Unit Unit Unit :=
  plain.performAll 2
    (.irqRegister 40 (some ()) (some ()) 7 :: List.replicate n (.irqHandle 40 ()))
    (emptyAt 0)

theorem irq_handle_reports_queueing_first :
    (raised 0).2.irq.found 40 = some ((), some (), 7) ∧
      ∃ mid r s', plain.afterTop 1 40 () (raised 0).2 = some mid ∧
        plain.perform 2 (.irqHandle 40 ()) (raised 0).2 = (some r, s') ∧
        (Reports ⟨some (), 7⟩ mid r s' ↔ mid.irq.pendingCount < nmBhQueueCap - 1) := by
  obtain ⟨r, s', hrun, hiff⟩ := irq_handle_reports_queueing_iff plain 1 40 ()
    (raised 0).2 _ () () 7 rfl rfl
  exact ⟨rfl, _, r, s', rfl, hrun, hiff⟩

theorem full_ring_reported_as_success :
    (raised 255).1 = true ∧ (raised 255).2.irq.found 40 = some ((), some (), 7) ∧
      ∃ mid r s', plain.afterTop 1 40 () (raised 255).2 = some mid ∧
        plain.perform 2 (.irqHandle 40 ()) (raised 255).2 = (some r, s') ∧
        ¬ Reports ⟨some (), 7⟩ mid r s' := by
  obtain ⟨mid, hmid, hcount⟩ : ∃ mid, plain.afterTop 1 40 () (raised 255).2 = some mid ∧
        mid.irq.pendingCount = 255 := by
    refine Option.map_eq_some_iff.mp ?_
    decide +kernel
  have hzero : (plain.perform 2 (.irqHandle 40 ()) (raised 255).2).1 = some 0 := by
    decide +kernel
  refine ⟨by decide +kernel, by decide +kernel, mid, 0, _, hmid, Prod.ext hzero rfl,
    fun hreports => ?_⟩
  exact hreports.full hcount rfl

end NeverMind
