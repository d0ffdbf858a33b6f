import NeverMind.Verification.Irq.InOrder

/-! # Unregistering

`irq_unregister` clears the entry of the table and leaves the ring alone. The removed
registration is not called again if nothing of it is pending or about to be queued at that
moment, and otherwise it is as soon as the ring is drained. -/

namespace NeverMind

open Relation List Function

variable {τ β δ π : Type*} {s s' s₀ : IrqSys τ β δ}

/-! ## The property -/

namespace IrqEvent

/-- `e` calls an item of the registration that `e'` removed. -/
def clashes (e' e : IrqEvent β) : Bool :=
  match e', e with
  | .unregistered reg _, .invoked (some reg') _ => reg == reg'
  | _, _ => false

/-- An `irq_unregister` found nothing of its registration pending or about to be queued. -/
def removesIdle : IrqEvent β → Bool
  | .unregistered _ idle => idle
  | _ => true

theorem clashes_of_clashes {e' e : IrqEvent β} (h : clashes e' e = true) :
    ∃ reg idle item, e' = .unregistered reg idle ∧ e = .invoked (some reg) item := by
  unfold clashes at h
  split at h
  · rename_i reg idle reg' item
    obtain rfl : reg = reg' := by simpa using h
    exact ⟨reg, idle, item, rfl, rfl⟩
  · cases h

end IrqEvent

namespace IrqSys

/-- No item is called after its registration was removed. -/
def StaysRemoved (s : IrqSys τ β δ) : Prop := s.log.Pairwise fun e' e => e'.clashes e = false

/-- Every registration was removed while nothing of it was pending or about to be queued. -/
def RemovesIdle (s : IrqSys τ β δ) : Prop := ∀ e ∈ s.log, e.removesIdle = true

instance : Decidable s.StaysRemoved := inferInstanceAs (Decidable (Pairwise _ _))

instance : Decidable s.RemovesIdle := inferInstanceAs (Decidable (∀ e ∈ s.log, _))

/-- As after `irq_init`: no registration, and the ring is empty, at whatever slot. -/
structure Fresh (s : IrqSys τ β δ) : Prop where
  free : s.Free
  empty : s.irq.bhHead = s.irq.bhTail
  owner_eq : ∀ i, s.owner i = none
  inFlight_eq : s.inFlight = []
  log_eq : s.log = []

theorem Fresh.pending_eq (h : s.Fresh) : s.pending = [] := by
  rw [pending, h.empty, Ring.between_self]

theorem Fresh.ready (h : s.Fresh) : s.Ready := ⟨h.free, h.log_eq, by simp [h.pending_eq]⟩

end IrqSys

/-! ## Registrations in the table -/

/-- The registrations in the table are distinct, and none of them was removed. -/
structure Registered (s : IrqSys τ β δ) : Prop where
  below : ∀ i reg, s.owner i = some reg → reg < s.nextReg
  distinct : ∀ i j reg, s.owner i = some reg → s.owner j = some reg → i = j
  removed_below : ∀ reg idle, .unregistered reg idle ∈ s.log → reg < s.nextReg
  removed_gone : ∀ reg idle, .unregistered reg idle ∈ s.log → ∀ i, s.owner i ≠ some reg

theorem Registered.of_same (h : Registered s) (howner : s'.owner = s.owner)
    (hnext : s'.nextReg = s.nextReg)
    (hlog : ∀ reg idle, .unregistered reg idle ∈ s'.log → .unregistered reg idle ∈ s.log) :
    Registered s' := by
  refine ⟨?_, ?_, ?_, ?_⟩
  · rw [howner, hnext]
    exact h.below
  · rw [howner]
    exact h.distinct
  · intro reg idle hmem
    rw [hnext]
    exact h.removed_below reg idle (hlog reg idle hmem)
  · intro reg idle hmem
    rw [howner]
    exact h.removed_gone reg idle (hlog reg idle hmem)

theorem IrqSys.owner_cases {i j : Fin 256} {v : Option ℕ} {reg : ℕ}
    (howner : s'.owner = update s.owner i v) (hj : s'.owner j = some reg) :
    j = i ∧ v = some reg ∨ j ≠ i ∧ s.owner j = some reg := by
  rw [howner] at hj
  by_cases hji : j = i
  · subst hji
    rw [update_self] at hj
    exact Or.inl ⟨rfl, hj⟩
  · rw [update_of_ne hji] at hj
    exact Or.inr ⟨hji, hj⟩

theorem Registered.register (h : Registered s) (i : Fin 256)
    (howner : s'.owner = update s.owner i (some s.nextReg))
    (hnext : s'.nextReg = s.nextReg + 1) (hlog : s'.log = s.log) : Registered s' := by
  have hcell : ∀ j reg, s'.owner j = some reg →
      j = i ∧ reg = s.nextReg ∨ j ≠ i ∧ s.owner j = some reg := by
    intro j reg hj
    rcases IrqSys.owner_cases howner hj with ⟨rfl, hnew⟩ | hold
    · exact Or.inl ⟨rfl, (Option.some.inj hnew).symm⟩
    · exact Or.inr hold
  refine ⟨fun j reg hj => ?_, fun j k reg hj hk => ?_, fun reg idle hmem => ?_,
    fun reg idle hmem j hj => ?_⟩
  · rcases hcell j reg hj with ⟨-, rfl⟩ | ⟨-, hold⟩
    · omega
    · have := h.below j reg hold
      omega
  · rcases hcell j reg hj with ⟨rfl, rfl⟩ | ⟨-, hold⟩
    · rcases hcell k _ hk with ⟨rfl, -⟩ | ⟨-, hold'⟩
      · rfl
      · exact absurd (h.below k _ hold') (Nat.lt_irrefl _)
    · rcases hcell k _ hk with ⟨-, rfl⟩ | ⟨-, hold'⟩
      · exact absurd (h.below j _ hold) (Nat.lt_irrefl _)
      · exact h.distinct j k reg hold hold'
  · rw [hlog] at hmem
    have := h.removed_below reg idle hmem
    omega
  · rw [hlog] at hmem
    rcases hcell j reg hj with ⟨-, rfl⟩ | ⟨-, hold⟩
    · exact absurd (h.removed_below _ idle hmem) (Nat.lt_irrefl _)
    · exact h.removed_gone reg idle hmem j hold

theorem Registered.unregister (h : Registered s) {i : Fin 256} {reg : ℕ} {idle : Bool}
    (hreg : s.owner i = some reg) (howner : s'.owner = update s.owner i none)
    (hnext : s'.nextReg = s.nextReg) (hlog : s'.log = s.log ++ [.unregistered reg idle]) :
    Registered s' := by
  have hcell : ∀ j r, s'.owner j = some r → j ≠ i ∧ s.owner j = some r := by
    intro j r hj
    rcases IrqSys.owner_cases howner hj with ⟨-, hnone⟩ | hold
    · cases hnone
    · exact hold
  have hevent : ∀ r b, .unregistered r b ∈ s'.log →
      .unregistered r b ∈ s.log ∨ r = reg := by
    intro r b hmem
    rw [hlog, mem_append, mem_singleton] at hmem
    rcases hmem with hold | hnew
    · exact Or.inl hold
    · cases hnew
      exact Or.inr rfl
  refine ⟨fun j r hj => ?_, fun j k r hj hk => ?_, fun r b hmem => ?_, fun r b hmem j hj => ?_⟩
  · rw [hnext]
    exact h.below j r (hcell j r hj).2
  · exact h.distinct j k r (hcell j r hj).2 (hcell k r hk).2
  · rw [hnext]
    rcases hevent r b hmem with hold | rfl
    · exact h.removed_below r b hold
    · exact h.below i r hreg
  · obtain ⟨hne, hold⟩ := hcell j r hj
    rcases hevent r b hmem with hmem | rfl
    · exact h.removed_gone r b hmem j hold
    · exact hne (h.distinct j i r hold hreg)

theorem Registered.step (h : Registered s) (hstep : IrqStep s s') : Registered s' := by
  cases hstep with
  | work | pass | capture | skip => exact h.of_same rfl rfl fun _ _ hmem => hmem
  | register i _ => exact h.register i rfl rfl rfl
  | unregister i reg _ registered => exact h.unregister registered rfl rfl rfl
  | refuse | accept | invoke => exact h.of_same rfl rfl fun _ _ hmem => by simpa using hmem

/-! ## What a step does to the items of a registration -/

/-- The log, the registrations of the pending items and those about to be queued, before and
after a step. -/
inductive Moves (s s' : IrqSys τ β δ) : Prop
  | stay (log_eq : s'.log = s.log) (pending_eq : s'.pendingRegs = s.pendingRegs)
      (flight_eq : s'.inFlight = s.inFlight)
  | remove (reg : ℕ) (log_eq : s'.log = s.log ++ [.unregistered reg (s.idle reg)])
      (pending_eq : s'.pendingRegs = s.pendingRegs) (flight_eq : s'.inFlight = s.inFlight)
  | capture (i : Fin 256) (log_eq : s'.log = s.log) (pending_eq : s'.pendingRegs = s.pendingRegs)
      (flight_eq : s'.inFlight = s.owner i :: s.inFlight)
  | refuse (reg : Option ℕ) (item : BhItem β) (n : ℕ)
      (log_eq : s'.log = s.log ++ [.refused reg item n])
      (pending_eq : s'.pendingRegs = s.pendingRegs) (flight_eq : s.inFlight = reg :: s'.inFlight)
  | accept (reg : Option ℕ) (item : BhItem β) (log_eq : s'.log = s.log ++ [.accepted reg item])
      (pending_eq : s'.pendingRegs = s.pendingRegs ++ [reg])
      (flight_eq : s.inFlight = reg :: s'.inFlight)
  | invoke (reg : Option ℕ) (item : BhItem β) (log_eq : s'.log = s.log ++ [.invoked reg item])
      (pending_eq : s.pendingRegs = reg :: s'.pendingRegs) (flight_eq : s'.inFlight = s.inFlight)

namespace IrqSys

theorem pendingRegs_of_sameRing (ring : s.irq.SameRing s'.irq)
    (hslot : s'.slotOwner = s.slotOwner) : s'.pendingRegs = s.pendingRegs := by
  rw [pendingRegs_eq, pendingRegs_eq, pending_of_sameRing ring hslot]

theorem pendingRegs_of_pushed {item : BhItem β} {reg : Option ℕ} (ring : s.irq.Pushed item s'.irq)
    (hslot : s'.slotOwner = update s.slotOwner s.irq.bhTail reg) :
    s'.pendingRegs = s.pendingRegs ++ [reg] := by
  rw [pendingRegs_eq, pendingRegs_eq, pending_of_pushed ring hslot, map_append]
  rfl

theorem pendingRegs_of_popped {item : BhItem β} (ring : s.irq.Popped item s'.irq)
    (hslot : s'.slotOwner = s.slotOwner) :
    s.pendingRegs = s.slotOwner s.irq.bhHead :: s'.pendingRegs := by
  rw [pendingRegs_eq, pendingRegs_eq, pending_of_popped ring hslot, map_cons]

theorem idle_eq_true {reg : ℕ} :
    s.idle reg = true ↔ some reg ∉ s.pendingRegs ∧ some reg ∉ s.inFlight := by
  simp [idle]

end IrqSys

theorem IrqStep.moves (hstep : IrqStep s s') (hcallable : ∀ x ∈ s.pending, x.2.fn.isSome) :
    Moves s s' := by
  cases hstep with
  | work _ => exact .stay rfl rfl rfl
  | pass ring => exact .stay rfl (IrqSys.pendingRegs_of_sameRing ring rfl) rfl
  | register _ ring => exact .stay rfl (IrqSys.pendingRegs_of_sameRing ring rfl) rfl
  | unregister _ reg ring _ => exact .remove reg rfl (IrqSys.pendingRegs_of_sameRing ring rfl) rfl
  | capture i ring => exact .capture i rfl (IrqSys.pendingRegs_of_sameRing ring rfl) rfl
  | refuse reg _ _ _ flight _ ring =>
    exact .refuse reg _ _ rfl (IrqSys.pendingRegs_of_sameRing ring rfl) flight
  | accept reg _ _ _ flight ring =>
    exact .accept reg _ rfl (IrqSys.pendingRegs_of_pushed ring rfl) flight
  | invoke _ _ ring => exact .invoke _ _ rfl (IrqSys.pendingRegs_of_popped ring rfl) rfl
  | skip _ ring => cases hcallable _ (IrqSys.mem_pending_of_popped ring)

/-! ## When registrations are removed idle -/

/-- Nothing of a removed registration is pending or about to be queued, and no item of one
was called. -/
structure Effective (s : IrqSys τ β δ) : Prop where
  detached : ∀ reg idle, .unregistered reg idle ∈ s.log →
    some reg ∉ s.pendingRegs ∧ some reg ∉ s.inFlight
  stays : s.StaysRemoved

variable {e : IrqEvent β}

theorem IrqSys.staysRemoved_append (hlog : s'.log = s.log ++ [e]) :
    s'.StaysRemoved ↔ s.StaysRemoved ∧ ∀ e' ∈ s.log, e'.clashes e = false := by
  simp [StaysRemoved, hlog, pairwise_append]

theorem IrqSys.removesIdle_append (hlog : s'.log = s.log ++ [e]) :
    s'.RemovesIdle ↔ s.RemovesIdle ∧ e.removesIdle = true := by
  simp [RemovesIdle, hlog, or_imp, forall_and]

/-- An event that is neither a removal nor a clash. -/
theorem Effective.of_event (h : Effective s) (hlog : s'.log = s.log ++ [e])
    (hevent : ∀ reg idle, e ≠ .unregistered reg idle) (hclash : ∀ e' ∈ s.log, e'.clashes e = false)
    (hdetached : ∀ reg idle, .unregistered reg idle ∈ s.log →
      some reg ∉ s'.pendingRegs ∧ some reg ∉ s'.inFlight) : Effective s' := by
  refine ⟨fun reg idle hmem => ?_, (IrqSys.staysRemoved_append hlog).mpr ⟨h.stays, hclash⟩⟩
  rw [hlog, mem_append, mem_singleton] at hmem
  rcases hmem with hold | hnew
  · exact hdetached reg idle hold
  · exact absurd hnew.symm (hevent reg idle)

theorem Effective.step (h : Effective s) (hreg : Registered s) (hmoves : Moves s s')
    (hidle : s'.RemovesIdle) : Effective s' := by
  cases hmoves with
  | stay log_eq pending_eq flight_eq =>
    refine ⟨?_, ?_⟩
    · rw [log_eq, pending_eq, flight_eq]
      exact h.detached
    · rw [IrqSys.StaysRemoved, log_eq]
      exact h.stays
  | remove reg log_eq pending_eq flight_eq =>
    have hnow : s.idle reg = true := hidle (.unregistered reg (s.idle reg)) (by rw [log_eq]; simp)
    refine ⟨fun r idle hmem => ?_, ?_⟩
    · rw [pending_eq, flight_eq]
      rw [log_eq, mem_append, mem_singleton] at hmem
      rcases hmem with hold | hnew
      · exact h.detached r idle hold
      · cases hnew
        exact IrqSys.idle_eq_true.mp hnow
    · refine (IrqSys.staysRemoved_append log_eq).mpr ⟨h.stays, fun e' _ => ?_⟩
      cases e' <;> rfl
  | capture i log_eq pending_eq flight_eq =>
    refine ⟨fun reg idle hmem => ?_, ?_⟩
    · rw [log_eq] at hmem
      obtain ⟨hpending, hflight⟩ := h.detached reg idle hmem
      rw [pending_eq, flight_eq, mem_cons, not_or]
      exact ⟨hpending, (hreg.removed_gone reg idle hmem i).symm, hflight⟩
    · rw [IrqSys.StaysRemoved, log_eq]
      exact h.stays
  | refuse r item n log_eq pending_eq flight_eq =>
    refine h.of_event log_eq (by simp) (fun e' _ => by cases e' <;> rfl) fun reg idle hmem => ?_
    obtain ⟨hpending, hflight⟩ := h.detached reg idle hmem
    rw [flight_eq, mem_cons, not_or] at hflight
    exact ⟨pending_eq ▸ hpending, hflight.2⟩
  | accept r item log_eq pending_eq flight_eq =>
    refine h.of_event log_eq (by simp) (fun e' _ => by cases e' <;> rfl) fun reg idle hmem => ?_
    obtain ⟨hpending, hflight⟩ := h.detached reg idle hmem
    rw [flight_eq, mem_cons, not_or] at hflight
    rw [pending_eq, mem_append, mem_singleton, not_or]
    exact ⟨⟨hpending, hflight.1⟩, hflight.2⟩
  | invoke r item log_eq pending_eq flight_eq =>
    refine h.of_event log_eq (by simp) (fun e' he' => ?_) fun reg idle hmem => ?_
    · by_contra hclash
      obtain ⟨reg, idle, _, rfl, hr⟩ := IrqEvent.clashes_of_clashes (Bool.of_not_eq_false hclash)
      cases hr
      exact (h.detached reg idle he').1 (by rw [pending_eq]; exact mem_cons_self)
    · obtain ⟨hpending, hflight⟩ := h.detached reg idle hmem
      rw [pending_eq, mem_cons, not_or] at hpending
      exact ⟨hpending.2, flight_eq ▸ hflight⟩

/-! ## When one is not -/

/-- Something of a removed registration is still pending or about to be queued. -/
def IrqSys.Late (s : IrqSys τ β δ) : Prop :=
  ∃ reg idle, .unregistered reg idle ∈ s.log ∧ (some reg ∈ s.pendingRegs ∨ some reg ∈ s.inFlight)

/-- An item of a removed registration was called, or is still to come, or was refused. -/
def IrqSys.Broken (s : IrqSys τ β δ) : Prop :=
  ¬ s.StaysRemoved ∨ s.Late ∨ ∃ reg item n, .refused reg item n ∈ s.log

theorem Moves.log_prefix (h : Moves s s') : ∃ more, s'.log = s.log ++ more := by
  cases h with
  | stay log_eq _ _ => exact ⟨[], by simp [log_eq]⟩
  | remove _ log_eq _ _ | refuse _ _ _ log_eq _ _ | accept _ _ log_eq _ _ | invoke _ _ log_eq _ _ =>
    exact ⟨_, log_eq⟩
  | capture _ log_eq _ _ => exact ⟨[], by simp [log_eq]⟩

theorem IrqSys.Late.step (h : s.Late) (hmoves : Moves s s') : s'.Broken := by
  obtain ⟨reg, idle, hmem, hheld⟩ := h
  obtain ⟨more, hlog⟩ := hmoves.log_prefix
  have hmem' : .unregistered reg idle ∈ s'.log := by
    rw [hlog]
    exact mem_append_left more hmem
  cases hmoves with
  | stay _ pending_eq flight_eq | remove _ _ pending_eq flight_eq =>
    exact Or.inr (Or.inl ⟨reg, idle, hmem', by rwa [pending_eq, flight_eq]⟩)
  | capture i _ pending_eq flight_eq =>
    refine Or.inr (Or.inl ⟨reg, idle, hmem', ?_⟩)
    rw [pending_eq, flight_eq, mem_cons]
    tauto
  | refuse r item n log_eq _ _ => exact Or.inr (Or.inr ⟨r, item, n, by rw [log_eq]; simp⟩)
  | accept r item _ pending_eq flight_eq =>
    refine Or.inr (Or.inl ⟨reg, idle, hmem', ?_⟩)
    rw [flight_eq, mem_cons] at hheld
    rw [pending_eq, mem_append, mem_singleton]
    tauto
  | invoke r item log_eq pending_eq flight_eq =>
    rw [pending_eq, mem_cons] at hheld
    by_cases hr : some reg = r
    · left
      rw [IrqSys.staysRemoved_append log_eq]
      rintro ⟨-, hclash⟩
      have hno := hclash _ hmem
      simp [← hr, IrqEvent.clashes] at hno
    · refine Or.inr (Or.inl ⟨reg, idle, hmem', ?_⟩)
      rw [flight_eq]
      tauto

theorem IrqSys.Broken.step (h : s.Broken) (hmoves : Moves s s') : s'.Broken := by
  obtain ⟨more, hlog⟩ := hmoves.log_prefix
  rcases h with hclash | hlate | ⟨reg, item, n, hmem⟩
  · left
    intro hstays
    rw [IrqSys.StaysRemoved, hlog, pairwise_append] at hstays
    exact hclash hstays.1
  · exact hlate.step hmoves
  · refine Or.inr (Or.inr ⟨reg, item, n, ?_⟩)
    rw [hlog]
    exact mem_append_left more hmem

theorem IrqSys.late_of_remove (hmoves : Moves s s') (hidle : s.RemovesIdle)
    (hnot : ¬ s'.RemovesIdle) : s'.Late := by
  cases hmoves with
  | remove reg log_eq pending_eq flight_eq =>
    have hnow : s.idle reg ≠ true := by
      intro hnow
      exact hnot ((IrqSys.removesIdle_append log_eq).mpr ⟨hidle, hnow⟩)
    rw [ne_eq, IrqSys.idle_eq_true, not_and_or, not_not, not_not] at hnow
    exact ⟨reg, s.idle reg, by rw [log_eq]; simp, by rwa [pending_eq, flight_eq]⟩
  | stay log_eq _ _ => exact absurd (fun e he => hidle e (log_eq ▸ he)) hnot
  | capture _ log_eq _ _ => exact absurd (fun e he => hidle e (log_eq ▸ he)) hnot
  | refuse _ _ _ log_eq _ _ =>
    exact absurd ((IrqSys.removesIdle_append log_eq).mpr ⟨hidle, rfl⟩) hnot
  | accept _ _ log_eq _ _ | invoke _ _ log_eq _ _ =>
    exact absurd ((IrqSys.removesIdle_append log_eq).mpr ⟨hidle, rfl⟩) hnot

/-! ## Whole runs -/

/-- What holds in every state of a run from `s₀`. -/
structure Accounted (s₀ s : IrqSys τ β δ) : Prop where
  order : InOrder s₀ s
  registered : Registered s
  effective : s.RemovesIdle → Effective s
  broken : ¬ s.RemovesIdle → s.Broken

theorem IrqSys.Fresh.accounted (h : s.Fresh) : Accounted s s := by
  have hidle : s.RemovesIdle := by simp [IrqSys.RemovesIdle, h.log_eq]
  refine ⟨h.ready.inOrder, ⟨?_, ?_, ?_, ?_⟩, fun _ => ⟨?_, ?_⟩, fun hnot => absurd hidle hnot⟩
  · simp [h.owner_eq]
  · simp [h.owner_eq]
  · simp [h.log_eq]
  · simp [h.log_eq]
  · simp [h.log_eq]
  · simp [IrqSys.StaysRemoved, h.log_eq]

theorem IrqSys.RemovesIdle.of_moves (h : s'.RemovesIdle) (hmoves : Moves s s') : s.RemovesIdle := by
  obtain ⟨more, hlog⟩ := hmoves.log_prefix
  intro e he
  exact h e (by rw [hlog]; exact mem_append_left more he)

theorem Accounted.step (h : Accounted s₀ s) (hstep : IrqStep s s') : Accounted s₀ s' := by
  have hmoves := hstep.moves h.order.callable
  refine ⟨h.order.step hstep, h.registered.step hstep, fun hidle => ?_, fun hnot => ?_⟩
  · exact (h.effective (hidle.of_moves hmoves)).step h.registered hmoves hidle
  · by_cases hidle : s.RemovesIdle
    · exact Or.inr (Or.inl (IrqSys.late_of_remove hmoves hidle hnot))
    · exact (h.broken hidle).step hmoves

theorem Accounted.steps (h : Accounted s₀ s) (hsteps : ReflTransGen IrqStep s s') :
    Accounted s₀ s' := by
  induction hsteps with
  | refl => exact h
  | tail _ hstep ih => exact ih.step hstep

theorem IrqSys.not_late_of_drained (hempty : s.irq.bhHead = s.irq.bhTail)
    (hflight : s.inFlight = []) : ¬ s.Late := by
  rintro ⟨reg, idle, -, hheld⟩
  rw [IrqSys.pendingRegs, hempty, Ring.between_self, hflight] at hheld
  simp at hheld

/-- In every run, with any callbacks, whose registrations are all removed idle, no bottom half
of a removed registration is called. If the ring has been drained after it and nothing was
refused, this is the only way. -/
theorem unregistering_effective_iff (h : Callbacks τ β δ π) (fuel : ℕ) (s₀ : IrqSys τ β δ)
    (hfresh : s₀.Fresh) (calls : List (IrqCall τ β π)) (returned : Bool) (s : IrqSys τ β δ)
    (hrun : h.performAll fuel calls s₀ = (returned, s)) :
    (s.RemovesIdle → s.StaysRemoved) ∧ (returned = true → s.irq.bhHead = s.irq.bhTail →
        (∀ reg item n, .refused reg item n ∉ s.log) → (s.StaysRemoved ↔ s.RemovesIdle)) := by
  have hdone := h.performAll_performed fuel calls hfresh.free
  rw [hrun] at hdone
  have hacc := hfresh.accounted.steps hdone.steps
  refine ⟨fun hidle => (hacc.effective hidle).stays, fun hret hempty hnone => ?_⟩
  refine ⟨fun hstays => ?_, fun hidle => (hacc.effective hidle).stays⟩
  by_contra hnot
  rcases hacc.broken hnot with hclash | hlate | ⟨reg, item, n, hmem⟩
  · exact hclash hstays
  · have hflight : s.inFlight = [] := (hdone.flight_eq hret).trans hfresh.inFlight_eq
    exact IrqSys.not_late_of_drained hempty hflight hlate
  · exact hnone reg item n hmem

theorem IrqSys.emptyAt_fresh (k : Fin 256) : (IrqSys.emptyAt k).Fresh :=
  ⟨rfl, rfl, fun _ => rfl, rfl, rfl⟩

/-- A driver that lets the ring drain before it unregisters. -/
theorem unregistering_effective_drained :
    (Callbacks.plain.performAll 8
      [.irqRegister 40 (some ()) (some ()) 7, .irqHandle 40 (), .irqRunBottomHalves,
        .irqUnregister 40, .irqRunBottomHalves] (.emptyAt ⟨0, by decide⟩)).2.StaysRemoved :=
  (unregistering_effective_iff Callbacks.plain 8 _ (IrqSys.emptyAt_fresh _) _ _ _ rfl).1
    (by decide +kernel)

/-- A driver unregisters while an item is pending, and the next `irq_run_bottom_halves` calls
its bottom half with the context it has given up. -/
theorem unregistering_leaves_item :
    (Callbacks.plain.performAll 8
      [.irqRegister 40 (some ()) (some ()) 7, .irqHandle 40 (), .irqUnregister 40,
        .irqRunBottomHalves] (.emptyAt ⟨0, by decide⟩)).2.log =
      [.accepted (some 0) ⟨some (), 7⟩, .unregistered 0 false, .invoked (some 0) ⟨some (), 7⟩] ∧
    ¬ (Callbacks.plain.performAll 8
      [.irqRegister 40 (some ()) (some ()) 7, .irqHandle 40 (), .irqUnregister 40,
        .irqRunBottomHalves] (.emptyAt ⟨0, by decide⟩)).2.StaysRemoved := by
  decide +kernel

end NeverMind
