import NeverMind.Verification.Irq.Rounds

/-! # Bottom halves run once and in order

What was pending and what was accepted since, in this order, is what was called and what is
pending now. When no callback raises an interrupt, every call returns and the loop ends with
an empty ring. -/

namespace NeverMind

open Relation Option List

variable {τ β δ π : Type*}

namespace IrqEvent

def acceptance : IrqEvent β → Option (Option ℕ × BhItem β)
  | .accepted reg item => some (reg, item)
  | _ => none

def invocation : IrqEvent β → Option (Option ℕ × BhItem β)
  | .invoked reg item => some (reg, item)
  | _ => none

def isOffer : IrqEvent β → Bool
  | .accepted _ _ => true
  | .refused _ _ _ => true
  | _ => false

end IrqEvent

namespace IrqSys

variable {s s' : IrqSys τ β δ}

/-- The items accepted, in order, each with its registration. -/
def accepted (s : IrqSys τ β δ) : List (Option ℕ × BhItem β) := s.log.filterMap IrqEvent.acceptance

def invoked (s : IrqSys τ β δ) : List (Option ℕ × BhItem β) := s.log.filterMap IrqEvent.invocation

def offered (s : IrqSys τ β δ) : List (IrqEvent β) := s.log.filter IrqEvent.isOffer

def pending (s : IrqSys τ β δ) : List (Option ℕ × BhItem β) :=
  Ring.between (fun k => (s.slotOwner k, s.irq.bhQueue k)) s.irq.bhHead s.irq.bhTail

theorem pendingRegs_eq (s : IrqSys τ β δ) : s.pendingRegs = s.pending.map Prod.fst := by
  simp [pendingRegs, pending, Ring.between, Ring.contents, Function.comp_def]

theorem pending_of_sameRing (ring : s.irq.SameRing s'.irq) (hslot : s'.slotOwner = s.slotOwner) :
    s'.pending = s.pending := by
  rw [pending, pending, hslot, ring.queue_eq, ring.head_eq, ring.tail_eq]

variable {item : BhItem β}

theorem pending_of_pushed {reg : Option ℕ} (ring : s.irq.Pushed item s'.irq)
    (hslot : s'.slotOwner = Function.update s.slotOwner s.irq.bhTail reg) :
    s'.pending = s.pending ++ [(reg, item)] := by
  have hcell : (fun k => (s'.slotOwner k, s'.irq.bhQueue k)) =
      Function.update (fun k => (s.slotOwner k, s.irq.bhQueue k)) s.irq.bhTail (reg, item) := by
    funext k
    rw [hslot, ring.queue_eq]
    by_cases hk : k = s.irq.bhTail
    · subst hk
      simp
    · simp [hk]
  rw [pending, hcell, ring.head_eq, ring.tail_eq]
  exact Ring.between_push _ ring.room _

theorem pending_of_popped (ring : s.irq.Popped item s'.irq) (hslot : s'.slotOwner = s.slotOwner) :
    s.pending = (s.slotOwner s.irq.bhHead, item) :: s'.pending := by
  rw [pending, Ring.between_pop _ ring.nonempty, ring.item_eq, pending, hslot, ring.queue_eq,
    ring.head_eq, ring.tail_eq]

theorem mem_pending_of_popped {q : Irq τ β} (ring : s.irq.Popped item q) :
    (s.slotOwner s.irq.bhHead, item) ∈ s.pending := by
  rw [pending, Ring.between_pop _ ring.nonempty, ring.item_eq]
  exact mem_cons_self

end IrqSys

/-! ## The order of the items -/

variable {s s' s₀ : IrqSys τ β δ}

/-- From `s₀` on every item came to its turn, and only a full ring refused one. -/
structure InOrder (s₀ s : IrqSys τ β δ) : Prop where
  callable : ∀ x ∈ s.pending, x.2.fn.isSome
  balance : s₀.pending ++ s.accepted = s.invoked ++ s.pending
  full : ∀ reg item n, .refused reg item n ∈ s.log → n = nmBhQueueCap - 1

theorem InOrder.of_same (h : InOrder s₀ s) (hpending : s'.pending = s.pending)
    (haccepted : s'.accepted = s.accepted) (hinvoked : s'.invoked = s.invoked)
    (hfull : ∀ reg item n, .refused reg item n ∈ s'.log → n = nmBhQueueCap - 1) : InOrder s₀ s' :=
  ⟨by rw [hpending]; exact h.callable, by rw [hpending, haccepted, hinvoked]; exact h.balance,
    hfull⟩

theorem InOrder.of_accept (h : InOrder s₀ s) {x : Option ℕ × BhItem β} (hx : x.2.fn.isSome)
    (hpending : s'.pending = s.pending ++ [x]) (haccepted : s'.accepted = s.accepted ++ [x])
    (hinvoked : s'.invoked = s.invoked)
    (hfull : ∀ reg item n, .refused reg item n ∈ s'.log → n = nmBhQueueCap - 1) :
    InOrder s₀ s' := by
  refine ⟨fun y hy => ?_, ?_, hfull⟩
  · rw [hpending] at hy
    rcases mem_append.mp hy with hold | hnew
    · exact h.callable y hold
    · rwa [mem_singleton.mp hnew]
  · rw [hpending, haccepted, hinvoked, ← append_assoc, h.balance, append_assoc]

theorem InOrder.of_invoke (h : InOrder s₀ s) {x : Option ℕ × BhItem β}
    (hpending : s.pending = x :: s'.pending) (haccepted : s'.accepted = s.accepted)
    (hinvoked : s'.invoked = s.invoked ++ [x])
    (hfull : ∀ reg item n, .refused reg item n ∈ s'.log → n = nmBhQueueCap - 1) :
    InOrder s₀ s' := by
  refine ⟨fun y hy => h.callable y ?_, ?_, hfull⟩
  · rw [hpending]
    exact mem_cons_of_mem x hy
  · rw [haccepted, hinvoked, h.balance, hpending, append_assoc, singleton_append]

theorem InOrder.step (h : InOrder s₀ s) (hstep : IrqStep s s') : InOrder s₀ s' := by
  cases hstep with
  | work _ => exact h.of_same rfl rfl rfl h.full
  | pass ring | register _ ring | capture _ ring =>
    exact h.of_same (IrqSys.pending_of_sameRing ring rfl) rfl rfl h.full
  | unregister _ _ ring _ =>
    refine h.of_same (IrqSys.pending_of_sameRing ring rfl) ?_ ?_ ?_
    · simp [IrqSys.accepted, IrqEvent.acceptance]
    · simp [IrqSys.invoked, IrqEvent.invocation]
    · simpa using h.full
  | refuse reg _ fn ctx _ full ring =>
    refine h.of_same (IrqSys.pending_of_sameRing ring rfl) ?_ ?_ ?_
    · simp [IrqSys.accepted, IrqEvent.acceptance]
    · simp [IrqSys.invoked, IrqEvent.invocation]
    · intro reg' item n hmem
      rcases mem_append.mp hmem with hold | hnew
      · exact h.full reg' item n hold
      · cases mem_singleton.mp hnew
        exact Irq.pendingCount_of_full full
  | accept reg rest fn ctx _ ring =>
    refine h.of_accept (x := (reg, ⟨some fn, ctx⟩)) rfl (IrqSys.pending_of_pushed ring rfl)
      ?_ ?_ ?_
    · simp [IrqSys.accepted, IrqEvent.acceptance]
    · simp [IrqSys.invoked, IrqEvent.invocation]
    · simpa using h.full
  | invoke fn ctx ring =>
    refine h.of_invoke (IrqSys.pending_of_popped ring rfl) ?_ ?_ ?_
    · simp [IrqSys.accepted, IrqEvent.acceptance]
    · simp [IrqSys.invoked, IrqEvent.invocation]
    · simpa using h.full
  | skip ctx ring =>
    -- an item without a function is never accepted
    cases h.callable _ (IrqSys.mem_pending_of_popped ring)

theorem InOrder.steps (h : InOrder s₀ s) (hsteps : ReflTransGen IrqStep s s') : InOrder s₀ s' := by
  induction hsteps with
  | refl => exact h
  | tail _ hstep ih => exact ih.step hstep

/-- The lock is free, nothing is logged yet, and the ring, wherever its items lie, holds
functions only. -/
structure IrqSys.Ready (s : IrqSys τ β δ) : Prop where
  free : s.Free
  log_eq : s.log = []
  callable : ∀ x ∈ s.pending, x.2.fn.isSome

theorem IrqSys.Ready.inOrder (h : s.Ready) : InOrder s s := by
  refine ⟨h.callable, ?_, ?_⟩
  · simp [IrqSys.accepted, IrqSys.invoked, h.log_eq]
  · simp [h.log_eq]

/-! ## Callbacks that raise no interrupts -/

def IrqCall.Raises : IrqCall τ β π → Prop
  | .irqHandle _ _ => True
  | _ => False

/-- The callback raises no interrupt. It may register, unregister and run bottom halves. -/
def Script.Quiet : Script τ β δ π → Prop
  | .ret _ => True
  | .call c _ next => ¬ c.Raises ∧ ∀ r drivers, (next r drivers).Quiet

structure Callbacks.Quiet (h : Callbacks τ β δ π) : Prop where
  top : ∀ top irq ctx ports drivers, (h.top top irq ctx ports drivers).Quiet
  bottom : ∀ fn ctx drivers, (h.bottom fn ctx drivers).Quiet

/-- The ring got no fuller and nothing was offered to it. -/
structure Calm (s s' : IrqSys τ β δ) : Prop where
  free : s'.Free
  count_le : s'.irq.pendingCount ≤ s.irq.pendingCount
  offered_eq : s'.offered = s.offered

theorem Calm.trans {s'' : IrqSys τ β δ} (h : Calm s s') (h' : Calm s' s'') : Calm s s'' :=
  ⟨h'.free, h'.count_le.trans h.count_le, h'.offered_eq.trans h.offered_eq⟩

theorem pendingCount_of_sameRing {q q' : Irq τ β} (h : q.SameRing q') :
    q'.pendingCount = q.pendingCount := by
  rw [Irq.pendingCount, Irq.pendingCount, h.head_eq, h.tail_eq]

theorem pendingCount_of_popped {q q' : Irq τ β} {item : BhItem β} (h : q.Popped item q') :
    q'.pendingCount + 1 = q.pendingCount := by
  have hdist := Ring.dist_next_head h.nonempty
  rw [Irq.pendingCount, Irq.pendingCount, h.head_eq, h.tail_eq]
  exact hdist

/-- A section that does not end an `irq_handle` is calm. -/
theorem Section.calm {flight : List (Option ℕ)} (h : Section s flight s')
    (hmore : s.inFlight.length ≤ flight.length) (hfree : s.Free) : Calm s s' := by
  obtain ⟨hstep, hflight⟩ := h
  have hfree' := hstep.free hfree
  cases hstep with
  | work _ => exact ⟨hfree', le_rfl, rfl⟩
  | pass ring | register _ ring | capture _ ring =>
    exact ⟨hfree', (pendingCount_of_sameRing ring).le, rfl⟩
  | unregister _ _ ring _ =>
    refine ⟨hfree', (pendingCount_of_sameRing ring).le, ?_⟩
    simp [IrqSys.offered, IrqEvent.isOffer]
  | refuse reg rest _ _ flight _ _ =>
    rw [flight, ← hflight] at hmore
    simp at hmore
  | accept reg rest _ _ flight _ =>
    rw [flight, ← hflight] at hmore
    simp at hmore
  | invoke _ _ ring =>
    refine ⟨hfree', ?_, ?_⟩
    · exact (pendingCount_of_popped ring) ▸ Nat.le_succ _
    · simp [IrqSys.offered, IrqEvent.isOffer]
  | skip _ ring => exact ⟨hfree', (pendingCount_of_popped ring) ▸ Nat.le_succ _, rfl⟩

/-- While at most `n` items are pending, calls that raise no interrupt return and are calm. -/
def Answers (perform : IrqCall τ β π → IrqSys τ β δ → Option ℤ × IrqSys τ β δ) (n : ℕ) : Prop :=
  ∀ c (s : IrqSys τ β δ), s.Free → ¬ c.Raises → s.irq.pendingCount ≤ n →
    ∃ r s', perform c s = (some r, s') ∧ Calm s s'

theorem Script.Quiet.returns {perform : IrqCall τ β π → IrqSys τ β δ → Option ℤ × IrqSys τ β δ}
    {n : ℕ} (hperform : Answers perform n) {script : Script τ β δ π} (hquiet : script.Quiet)
    (hfree : s.Free) (hcount : s.irq.pendingCount ≤ n) :
    ∃ s', script.exec perform s = (true, s') ∧ Calm s s' := by
  induction script generalizing s with
  | ret drivers => exact ⟨_, rfl, hfree, le_rfl, rfl⟩
  | call c drivers next ih =>
    obtain ⟨r, s', heq, hcalm⟩ := hperform c { s with drivers := drivers } hfree hquiet.1 hcount
    obtain ⟨s'', heq', hcalm'⟩ :=
      ih r s'.drivers (hquiet.2 r s'.drivers) hcalm.free (hcalm.count_le.trans hcount)
    refine ⟨s'', ?_, ?_⟩
    · rw [Script.exec, heq]
      exact heq'
    · exact Calm.trans ⟨hcalm.free, hcalm.count_le, hcalm.offered_eq⟩ hcalm'

namespace Callbacks

variable {h : Callbacks τ β δ π}

theorem Quiet.answers (hquiet : h.Quiet) {fuel n : ℕ} (hn : n < fuel) :
    Answers (h.perform fuel) n := by
  induction fuel generalizing n with
  | zero => omega
  | succ fuel ih =>
    intro c s hfree hraises hcount
    cases c with
    | irqRegister irq topHalf bottomHalf ctx =>
      obtain ⟨r, s', heq, hsec⟩ := IrqSys.irqRegister_section hfree irq topHalf bottomHalf ctx
      refine ⟨r, s', ?_, hsec.calm le_rfl hfree⟩
      simp only [perform, heq]
    | irqUnregister irq =>
      obtain ⟨r, s', heq, hsec⟩ := IrqSys.irqUnregister_section hfree irq
      refine ⟨r, s', ?_, hsec.calm le_rfl hfree⟩
      simp only [perform, heq]
    | irqHandle irq ports => exact absurd trivial hraises
    | irqRunBottomHalves =>
      have hround := h.round fuel hfree
      generalize h.perform (fuel + 1) .irqRunBottomHalves s = res at hround ⊢
      cases hround with
      | ends _ ring => exact ⟨0, _, rfl, Section.calm ⟨.pass ring, rfl⟩ le_rfl hfree⟩
      | skips ctx s₁ htook =>
        have hcalm := htook.done.calm le_rfl hfree
        have hpop := pendingCount_of_popped htook.ring
        obtain ⟨r, s', heq, hcalm'⟩ :=
          ih (n := n - 1) (by omega) .irqRunBottomHalves s₁ hcalm.free hraises (by omega)
        exact ⟨r, s', heq, hcalm.trans hcalm'⟩
      | calls fn ctx s₁ htook =>
        have hcalm := htook.done.calm le_rfl hfree
        have hpop := pendingCount_of_popped htook.ring
        have hanswers := ih (n := n - 1) (by omega)
        obtain ⟨s₂, hexec, hcalm₂⟩ :=
          (hquiet.bottom fn ctx s.drivers).returns hanswers hcalm.free (by omega)
        have hless := hcalm₂.count_le
        obtain ⟨r, s₃, heq, hcalm₃⟩ :=
          hanswers .irqRunBottomHalves s₂ hcalm₂.free hraises (by omega)
        refine ⟨r, s₃, ?_, (hcalm.trans hcalm₂).trans hcalm₃⟩
        rw [hexec]
        exact heq

theorem empty_of_run {fuel : ℕ} {r : ℤ} (hfree : s.Free)
    (heq : h.perform fuel .irqRunBottomHalves s = (some r, s')) :
    r = 0 ∧ s'.irq.bhHead = s'.irq.bhTail := by
  induction fuel generalizing s with
  | zero => simp [perform] at heq
  | succ fuel ih =>
    have hround := h.round fuel hfree
    rw [heq] at hround
    generalize hres : (some r, s') = res at hround
    cases hround with
    | ends hempty ring =>
      cases hres
      exact ⟨rfl, by rw [ring.head_eq, ring.tail_eq, hempty]⟩
    | skips ctx s₁ htook => exact ih htook.ring.free hres.symm
    | calls fn ctx s₁ htook =>
      have hfree₁ : s₁.Free := htook.ring.free
      have hexec := (h.bottom fn ctx s.drivers).exec_performed (h.perform_performed fuel) hfree₁
      rcases hrun : (h.bottom fn ctx s.drivers).exec (h.perform fuel) s₁ with ⟨_ | _, s₂⟩
      · rw [hrun] at hres
        cases hres
      · rw [hrun] at hexec hres
        exact ih (free_of_steps hexec.steps hfree₁) hres.symm

/-- Bottom halves that only return, run over pending items with the contexts of the items. -/
def runItems (act : β → ℕ → δ → δ) (items : List (Option ℕ × BhItem β)) (drivers : δ) : δ :=
  items.foldl (fun drivers x => x.2.fn.elim drivers fun fn => act fn x.2.ctx drivers) drivers

/-- The loop does to the drivers what the pending bottom halves do, one after the other. -/
theorem drivers_of_run {act : β → ℕ → δ → δ}
    (hact : ∀ fn ctx drivers, h.bottom fn ctx drivers = .ret (act fn ctx drivers)) {fuel : ℕ}
    {r : ℤ} (hfree : s.Free) (heq : h.perform fuel .irqRunBottomHalves s = (some r, s')) :
    s'.drivers = runItems act s.pending s.drivers := by
  induction fuel generalizing s with
  | zero => simp [perform] at heq
  | succ fuel ih =>
    have hround := h.round fuel hfree
    rw [heq] at hround
    generalize hres : (some r, s') = res at hround
    cases hround with
    | ends hempty ring =>
      cases hres
      rw [IrqSys.pending, hempty, Ring.between_self]
      rfl
    | skips ctx s₁ htook =>
      rw [ih htook.ring.free hres.symm, IrqSys.pending_of_popped htook.ring htook.slots_eq,
        htook.drivers_eq]
      rfl
    | calls fn ctx s₁ htook =>
      rw [hact] at hres
      rw [ih (s := { s₁ with drivers := act fn ctx s.drivers }) htook.ring.free hres.symm,
        IrqSys.pending_of_popped htook.ring htook.slots_eq]
      rfl

/-- What an `irq_handle` offers to the ring: the item it captured, which is accepted unless
the ring is full. -/
def OffersCaptured (irq : ℤ) (s s' : IrqSys τ β δ) : Prop :=
  match s.captured irq with
  | none => s'.offered = s.offered
  | some (reg, item) =>
    s'.offered = s.offered ++ [.accepted reg item] ∨
      s'.offered = s.offered ++ [.refused reg item (nmBhQueueCap - 1)]

theorem Quiet.irqHandle (hquiet : h.Quiet) {fuel : ℕ} (hfree : s.Free)
    (hfuel : s.irq.pendingCount + 1 < fuel) (irq : ℤ) (ports : π) :
    ∃ r s', h.perform fuel (.irqHandle irq ports) s = (some r, s') ∧ OffersCaptured irq s s' := by
  obtain ⟨fuel, rfl⟩ : ∃ k, fuel = k + 1 := ⟨fuel - 1, by omega⟩
  match hfound : s.irq.found irq with
  | none =>
    obtain ⟨s', heq, hsec⟩ := IrqSys.beginHandle_none hfree hfound
    refine ⟨nmErr nmEfail, s', by simp only [perform, heq], ?_⟩
    simp only [OffersCaptured, IrqSys.captured, hfound, bind_none]
    exact (hsec.calm le_rfl hfree).offered_eq
  | some (top, none, ctx) =>
    obtain ⟨s', heq, hsec⟩ := IrqSys.beginHandle_top hfree hfound
    have hcalm := hsec.calm le_rfl hfree
    have hanswers : Answers (h.perform fuel) s'.irq.pendingCount :=
      hquiet.answers (by have := hcalm.count_le; omega)
    obtain ⟨s'', hexec, hcalm'⟩ :=
      (hquiet.top top irq ctx ports s'.drivers).returns hanswers hcalm.free le_rfl
    refine ⟨0, s'', by simp only [perform, heq, hexec, IrqSys.endHandle_none], ?_⟩
    simp only [OffersCaptured, IrqSys.captured, hfound, bind_some, map_none]
    exact (hcalm.trans hcalm').offered_eq
  | some (top, some fn, ctx) =>
    obtain ⟨s', heq, hsec⟩ := IrqSys.beginHandle_both hfree hfound
    have hcalm := hsec.calm (Nat.le_succ _) hfree
    have hanswers : Answers (h.perform fuel) s'.irq.pendingCount :=
      hquiet.answers (by have := hcalm.count_le; omega)
    obtain ⟨s'', hexec, hcalm'⟩ :=
      (hquiet.top top irq ctx ports s'.drivers).returns hanswers hcalm.free le_rfl
    have hdone := (h.top top irq ctx ports s'.drivers).exec_performed
      (h.perform_performed fuel) hcalm.free
    rw [hexec] at hdone
    obtain ⟨r, hend, -, hlog⟩ := IrqSys.endHandle_section hcalm'.free
      ((hdone.flight_eq rfl).trans hsec.flight_eq) fn ctx
    refine ⟨0, r, by simp only [perform, heq, hexec, hend], ?_⟩
    have hsame := (hcalm.trans hcalm').offered_eq
    simp only [OffersCaptured, IrqSys.captured, hfound, bind_some, map_some]
    rcases hlog with hlog | hlog
    · left
      rw [← hsame, IrqSys.offered, hlog]
      simp [IrqSys.offered, IrqEvent.isOffer]
    · right
      rw [← hsame, IrqSys.offered, hlog]
      simp [IrqSys.offered, IrqEvent.isOffer]

theorem pendingCount_lt (q : Irq τ β) : q.pendingCount < nmBhQueueCap := Ring.dist_lt _ _

theorem Quiet.performAll_returns (hquiet : h.Quiet) {fuel : ℕ} (hfuel : nmBhQueueCap < fuel)
    (calls : List (IrqCall τ β π)) (hfree : s.Free) :
    ∃ s', h.performAll fuel calls s = (true, s') := by
  induction calls generalizing s with
  | nil => exact ⟨s, rfl⟩
  | cons c calls ih =>
    have hlt := pendingCount_lt s.irq
    have hroom : s.irq.pendingCount + 1 < fuel := by omega
    have hanswers : Answers (h.perform fuel) s.irq.pendingCount := hquiet.answers (by omega)
    have hreturns : ∃ r s', h.perform fuel c s = (some r, s') := by
      by_cases hraises : c.Raises
      · cases c with
        | irqHandle irq ports =>
          obtain ⟨r, s', heq, -⟩ := hquiet.irqHandle hfree hroom irq ports
          exact ⟨r, s', heq⟩
        | irqRegister | irqUnregister | irqRunBottomHalves => exact absurd hraises id
      · obtain ⟨r, s', heq, -⟩ := hanswers c s hfree hraises le_rfl
        exact ⟨r, s', heq⟩
    obtain ⟨r, s', heq⟩ := hreturns
    have hdone := h.perform_performed fuel c s hfree
    rw [heq] at hdone
    obtain ⟨s'', heq'⟩ := ih (free_of_steps hdone.steps hfree)
    refine ⟨s'', ?_⟩
    rw [performAll, heq]
    exact heq'

end Callbacks

/-! ## The order of service -/

theorem IrqSys.accepted_eq (s : IrqSys τ β δ) :
    s.accepted = s.offered.filterMap IrqEvent.acceptance := by
  rw [accepted, offered, filterMap_filter]
  refine filterMap_congr fun e _ => ?_
  cases e <;> rfl

/-- In a state `s` reached from `s₀`: the items accepted so far follow those pending in `s₀`
and are called in this order; only a ring with 255 items refused one; `irq_run_bottom_halves`
calls whatever is left and empties the ring, and does to the drivers what the functions called do
with their contexts; and `irq_handle` queues what the table holds. -/
structure ServesInOrder (h : Callbacks τ β δ π) (fuel : ℕ) (s₀ s : IrqSys τ β δ) : Prop where
  once_in_order : s₀.pending ++ s.accepted = s.invoked ++ s.pending
  refused_full : ∀ reg item n, .refused reg item n ∈ s.log → n = 255
  drains : ∃ s', h.perform fuel .irqRunBottomHalves s = (some 0, s') ∧ s'.pending = [] ∧
    s'.accepted = s.accepted ∧ s'.invoked = s₀.pending ++ s.accepted ∧
      ∀ act, (∀ fn ctx drivers, h.bottom fn ctx drivers = .ret (act fn ctx drivers)) →
        s'.drivers = Callbacks.runItems act s.pending s.drivers
  captures : ∀ irq ports, ∃ r s', h.perform fuel (.irqHandle irq ports) s = (some r, s') ∧
    Callbacks.OffersCaptured irq s s'

theorem InOrder.drains {h : Callbacks τ β δ π} (hquiet : h.Quiet) {fuel : ℕ}
    (hfuel : nmBhQueueCap < fuel) (hfree : s.Free) (horder : InOrder s₀ s) :
    ∃ s', h.perform fuel .irqRunBottomHalves s = (some 0, s') ∧ s'.pending = [] ∧
      s'.accepted = s.accepted ∧ s'.invoked = s₀.pending ++ s.accepted ∧
        ∀ act, (∀ fn ctx drivers, h.bottom fn ctx drivers = .ret (act fn ctx drivers)) →
          s'.drivers = Callbacks.runItems act s.pending s.drivers := by
  have hlt := Callbacks.pendingCount_lt s.irq
  have hanswers : Answers (h.perform fuel) s.irq.pendingCount := hquiet.answers (by omega)
  obtain ⟨r, s', heq, hcalm⟩ := hanswers .irqRunBottomHalves s hfree id le_rfl
  obtain ⟨rfl, hempty⟩ := Callbacks.empty_of_run hfree heq
  have hdone := h.perform_performed fuel .irqRunBottomHalves s hfree
  rw [heq] at hdone
  have hpending : s'.pending = [] := by
    rw [IrqSys.pending, hempty, Ring.between_self]
  have haccepted : s'.accepted = s.accepted := by
    rw [IrqSys.accepted_eq, IrqSys.accepted_eq, hcalm.offered_eq]
  have hbalance := (horder.steps hdone.steps).balance
  rw [hpending, haccepted, append_nil] at hbalance
  exact ⟨s', heq, hpending, haccepted, hbalance.symm,
    fun act hact => Callbacks.drivers_of_run hact hfree heq⟩

/-- From any state of the ring, over any calls with callbacks that raise no interrupts, every
call returns and bottom halves run once and in order. -/
theorem bottom_halves_once_in_order (h : Callbacks τ β δ π) (hquiet : h.Quiet) (fuel : ℕ)
    (hfuel : nmBhQueueCap < fuel) (s₀ : IrqSys τ β δ) (hready : s₀.Ready)
    (calls : List (IrqCall τ β π)) :
    ∃ s, h.performAll fuel calls s₀ = (true, s) ∧ ServesInOrder h fuel s₀ s := by
  obtain ⟨s, heq⟩ := hquiet.performAll_returns hfuel calls hready.free
  have hdone := h.performAll_performed fuel calls hready.free
  rw [heq] at hdone
  have hfree := free_of_steps hdone.steps hready.free
  have horder := hready.inOrder.steps hdone.steps
  have hlt := Callbacks.pendingCount_lt s.irq
  have hroom : s.irq.pendingCount + 1 < fuel := by omega
  refine ⟨s, heq, horder.balance, horder.full, horder.drains hquiet hfuel hfree, ?_⟩
  intro irq ports
  exact hquiet.irqHandle hfree hroom irq ports

def Callbacks.plain : Callbacks Unit Unit Unit Unit :=
  ⟨fun _ _ _ _ _ => .ret (), fun _ _ _ => .ret ()⟩

def IrqSys.emptyAt (k : Fin 256) : IrqSys Unit Unit Unit where
  irq := ⟨fun _ => ⟨false, none, none, 0, 0⟩, fun _ => ⟨none, 0⟩, k, k, false⟩
  drivers := ()
  owner := fun _ => none
  slotOwner := fun _ => none
  nextReg := 0
  inFlight := []
  log := []

theorem IrqSys.emptyAt_ready (k : Fin 256) : (IrqSys.emptyAt k).Ready := by
  refine ⟨rfl, rfl, ?_⟩
  rw [IrqSys.pending, show (IrqSys.emptyAt k).irq.bhHead = (IrqSys.emptyAt k).irq.bhTail from rfl,
    Ring.between_self]
  simp

/-- The bottom half notes its contexts. -/
def Callbacks.noting : Callbacks Unit Unit (List ℕ) Unit :=
  ⟨fun _ _ _ _ noted => .ret noted, fun _ ctx noted => .ret (noted ++ [ctx])⟩

/-- Two interrupts of one line, registered with another context in between, on a ring that is about
to wrap. -/
theorem bottom_halves_once_in_order_wrapping :
    let s₀ : IrqSys Unit Unit (List ℕ) := { IrqSys.emptyAt ⟨255, by decide⟩ with drivers := [] }
    ∃ s, Callbacks.noting.performAll 257
        [.irqRegister 40 (some ()) (some ()) 7, .irqHandle 40 (),
          .irqRegister 40 (some ()) (some ()) 8, .irqHandle 40 ()] s₀ = (true, s) ∧
      ServesInOrder Callbacks.noting 257 s₀ s := by
  intro s₀
  have hready : s₀.Ready := ⟨rfl, rfl, (IrqSys.emptyAt_ready _).callable⟩
  exact bottom_halves_once_in_order Callbacks.noting
    ⟨fun _ _ _ _ _ => trivial, fun _ _ _ => trivial⟩ 257 (by decide) s₀ hready _

end NeverMind
