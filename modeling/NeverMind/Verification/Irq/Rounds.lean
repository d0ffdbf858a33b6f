import NeverMind.Model.BottomHalves
import NeverMind.Verification.Irq.MainLoop
import Mathlib.Logic.Relation

/-! # The steps of the interrupt calls

A call into `irq.c` is a sequence of lock sections, whatever its callbacks call in between.
What one section can do is said once, and every call is shown to be such a sequence. -/

namespace NeverMind

open Relation Option

variable {τ β δ π : Type*}

namespace Irq

/-! ## Sections on the ring -/

variable {q q' : Irq τ β}

/-- A section that leaves the ring alone. -/
structure SameRing (q q' : Irq τ β) : Prop where
  queue_eq : q'.bhQueue = q.bhQueue
  head_eq : q'.bhHead = q.bhHead
  tail_eq : q'.bhTail = q.bhTail
  free : q'.irqLockWord = false

/-- A section that puts an item into the ring. -/
structure Pushed (item : BhItem β) (q q' : Irq τ β) : Prop where
  room : Ring.next q.bhTail ≠ q.bhHead
  queue_eq : q'.bhQueue = Function.update q.bhQueue q.bhTail item
  head_eq : q'.bhHead = q.bhHead
  tail_eq : q'.bhTail = Ring.next q.bhTail
  free : q'.irqLockWord = false

/-- A section that takes the item at the head. -/
structure Popped (item : BhItem β) (q q' : Irq τ β) : Prop where
  nonempty : q.bhHead ≠ q.bhTail
  item_eq : q.bhQueue q.bhHead = item
  queue_eq : q'.bhQueue = q.bhQueue
  head_eq : q'.bhHead = Ring.next q.bhHead
  tail_eq : q'.bhTail = q.bhTail
  free : q'.irqLockWord = false

theorem SameRing.refl (hfree : q.irqLockWord = false) : SameRing q q := ⟨rfl, rfl, rfl, hfree⟩

theorem irqRegister_section (hfree : q.irqLockWord = false) (irq : ℤ) (topHalf : Option τ)
    (bottomHalf : Option β) (ctx : ℕ) :
    ∃ r q', q.irqRegister irq topHalf bottomHalf ctx = some (r, q') ∧ SameRing q q' := by
  unfold irqRegister
  split
  · rw [irqLock_of_free hfree]
    exact ⟨_, _, rfl, rfl, rfl, rfl, rfl⟩
  · exact ⟨_, _, rfl, .refl hfree⟩

theorem irqUnregister_section (hfree : q.irqLockWord = false) (irq : ℤ) :
    ∃ r q', q.irqUnregister irq = some (r, q') ∧ SameRing q q' := by
  unfold irqUnregister
  split
  · exact ⟨_, _, rfl, .refl hfree⟩
  · rw [irqLock_of_free hfree]
    exact ⟨_, _, rfl, rfl, rfl, rfl, rfl⟩

def found (irq : ℤ) (q : Irq τ β) : Option (τ × Option β × ℕ) :=
  (entry irq).bind fun i =>
    let d := q.irqTable i
    if d.used then d.topHalf.map fun top => (top, d.bottomHalf, d.ctx) else none

theorem copyEntry_section (hfree : q.irqLockWord = false) (irq : ℤ) :
    ∃ q', q.copyEntry irq = some (q.found irq, q') ∧ SameRing q q' := by
  unfold copyEntry found
  cases entry irq with
  | none => exact ⟨_, rfl, .refl hfree⟩
  | some i =>
    simp only [irqLock_of_free hfree, bind_some]
    cases hused : (q.irqTable i).used with
    | false => exact ⟨_, rfl, rfl, rfl, rfl, rfl⟩
    | true =>
      cases htop : (q.irqTable i).topHalf with
      | none => exact ⟨_, rfl, rfl, rfl, rfl, rfl⟩
      | some top => exact ⟨_, rfl, rfl, rfl, rfl, rfl⟩

/-- `irq_handle` is its two lock sections with the top half between them. -/
theorem irqHandle_eq_sections (h : Handlers τ β δ π) (irq : ℤ) (ports : π) (drivers : δ)
    (q : Irq τ β) : q.irqHandle h irq ports drivers = match q.copyEntry irq with
      | none => none
      | some (none, q) => some (nmErr nmEfail, q, drivers)
      | some (some (top, bottom, ctx), q) =>
        (q.queueBottomHalf bottom ctx).map fun q => (0, q, h.top top irq ctx ports drivers) := by
  unfold irqHandle copyEntry
  cases entry irq with
  | none => rfl
  | some i =>
    cases q.irqLock with
    | none => rfl
    | some q =>
      cases hused : (q.irqTable i).used with
      | false => simp [hused]
      | true => cases htop : (q.irqTable i).topHalf <;> simp [hused, htop]

theorem queueBottomHalf_section (hfree : q.irqLockWord = false) (fn : β) (ctx : ℕ) :
    ∃ q', q.queueBottomHalf (some fn) ctx = some q' ∧
      (Ring.next q.bhTail = q.bhHead ∧ SameRing q q' ∨ Pushed ⟨some fn, ctx⟩ q q') := by
  simp only [queueBottomHalf, irqLock_of_free hfree, bhEnqueue]
  refine ⟨_, rfl, ?_⟩
  split
  · exact Or.inl ⟨‹_›, rfl, rfl, rfl, rfl⟩
  · exact Or.inr ⟨‹_›, rfl, rfl, rfl, rfl⟩

theorem pendingCount_of_full (h : Ring.next q.bhTail = q.bhHead) :
    q.pendingCount = nmBhQueueCap - 1 := by
  have hdist : q.pendingCount + 1 = 256 := (Ring.next_eq_iff _ _).mp h
  simp only [nmBhQueueCap]
  omega

theorem takeItem_section (hfree : q.irqLockWord = false) :
    ∃ item q', q.takeItem = some (item, q') ∧ match item with
      | none => q.bhHead = q.bhTail ∧ SameRing q q'
      | some item => Popped item q q' := by
  simp only [takeItem, irqLock_of_free hfree]
  split
  · exact ⟨none, _, rfl, ‹_›, rfl, rfl, rfl, rfl⟩
  · exact ⟨some _, _, rfl, ‹_›, rfl, rfl, rfl, rfl, rfl⟩

end Irq

/-! ## Steps -/

/-- One lock section of a call, or a callback's own work on the drivers. -/
inductive IrqStep (s : IrqSys τ β δ) : IrqSys τ β δ → Prop
  /-- a callback returns or makes a call -/
  | work (drivers : δ) : IrqStep s { s with drivers := drivers }
  /-- a section that ends without effect on registrations and items -/
  | pass {irq : Irq τ β} (ring : s.irq.SameRing irq) : IrqStep s { s with irq := irq }
  | register {irq : Irq τ β} (i : Fin 256) (ring : s.irq.SameRing irq) :
      IrqStep s { s with
        irq := irq
        owner := Function.update s.owner i (some s.nextReg)
        nextReg := s.nextReg + 1 }
  | unregister {irq : Irq τ β} (i : Fin 256) (reg : ℕ) (ring : s.irq.SameRing irq)
      (registered : s.owner i = some reg) :
      IrqStep s { s with
        irq := irq
        owner := Function.update s.owner i none
        log := s.log ++ [.unregistered reg (s.idle reg)] }
  /-- `irq_handle` finds an entry with a bottom half -/
  | capture {irq : Irq τ β} (i : Fin 256) (ring : s.irq.SameRing irq) :
      IrqStep s { s with irq := irq, inFlight := s.owner i :: s.inFlight }
  | refuse {irq : Irq τ β} (reg : Option ℕ) (rest : List (Option ℕ)) (fn : β) (ctx : ℕ)
      (flight : s.inFlight = reg :: rest) (full : Ring.next s.irq.bhTail = s.irq.bhHead)
      (ring : s.irq.SameRing irq) :
      IrqStep s { s with
        irq := irq
        inFlight := rest
        log := s.log ++ [.refused reg ⟨some fn, ctx⟩ s.irq.pendingCount] }
  | accept {irq : Irq τ β} (reg : Option ℕ) (rest : List (Option ℕ)) (fn : β) (ctx : ℕ)
      (flight : s.inFlight = reg :: rest) (ring : s.irq.Pushed ⟨some fn, ctx⟩ irq) :
      IrqStep s { s with
        irq := irq
        slotOwner := Function.update s.slotOwner s.irq.bhTail reg
        inFlight := rest
        log := s.log ++ [.accepted reg ⟨some fn, ctx⟩] }
  | invoke {irq : Irq τ β} (fn : β) (ctx : ℕ) (ring : s.irq.Popped ⟨some fn, ctx⟩ irq) :
      IrqStep s { s with
        irq := irq
        log := s.log ++ [.invoked (s.slotOwner s.irq.bhHead) ⟨some fn, ctx⟩] }
  /-- the item has no function -/
  | skip {irq : Irq τ β} (ctx : ℕ) (ring : s.irq.Popped ⟨none, ctx⟩ irq) :
      IrqStep s { s with irq := irq }

def IrqSys.Free (s : IrqSys τ β δ) : Prop := s.irq.irqLockWord = false

variable {s s' : IrqSys τ β δ}

theorem IrqStep.free (h : IrqStep s s') (hfree : s.Free) : s'.Free := by
  cases h with
  | work _ => exact hfree
  | pass ring | register _ ring | unregister _ _ ring _ | capture _ ring
  | refuse _ _ _ _ _ _ ring | accept _ _ _ _ _ ring | invoke _ _ ring | skip _ ring =>
    exact ring.free

theorem free_of_steps (h : ReflTransGen IrqStep s s') (hfree : s.Free) : s'.Free := by
  induction h with
  | refl => exact hfree
  | tail _ hstep ih => exact hstep.free ih

/-- A lock section that is done: it is a step, and its stack of interrupts is `flight`. -/
structure Section (s : IrqSys τ β δ) (flight : List (Option ℕ)) (s' : IrqSys τ β δ) : Prop where
  step : IrqStep s s'
  flight_eq : s'.inFlight = flight

namespace IrqSys

theorem irqRegister_section (hfree : s.Free) (irq : ℤ) (topHalf : Option τ)
    (bottomHalf : Option β) (ctx : ℕ) :
    ∃ r s', s.irqRegister irq topHalf bottomHalf ctx = some (r, s') ∧ Section s s.inFlight s' := by
  obtain ⟨r, q, hq, ring⟩ := Irq.irqRegister_section hfree irq topHalf bottomHalf ctx
  simp only [irqRegister, hq, map_some]
  split
  · exact ⟨r, _, rfl, .register _ ring, rfl⟩
  · exact ⟨r, _, rfl, .pass ring, rfl⟩

theorem irqUnregister_section (hfree : s.Free) (irq : ℤ) :
    ∃ r s', s.irqUnregister irq = some (r, s') ∧ Section s s.inFlight s' := by
  obtain ⟨r, q, hq, ring⟩ := Irq.irqUnregister_section hfree irq
  simp only [irqUnregister, hq, map_some]
  split
  · rename_i i reg heq
    obtain ⟨j, -, hj⟩ := bind_eq_some_iff.mp heq
    obtain ⟨reg', howner, hpair⟩ := map_eq_some_iff.mp hj
    obtain ⟨rfl, rfl⟩ := Prod.mk.inj hpair
    exact ⟨r, _, rfl, .unregister _ _ ring howner, rfl⟩
  · exact ⟨r, _, rfl, .pass ring, rfl⟩

/-- The item that an `irq_handle` takes along: the registration it belongs to, the bottom
half and the context in the table. -/
def captured (irq : ℤ) (s : IrqSys τ β δ) : Option (Option ℕ × BhItem β) :=
  (s.irq.found irq).bind fun d =>
    d.2.1.map fun fn => ((Irq.entry irq).bind s.owner, ⟨some fn, d.2.2⟩)

theorem beginHandle_none (hfree : s.Free) {irq : ℤ} (hnone : s.irq.found irq = none) :
    ∃ s', s.beginHandle irq = some (none, s') ∧ Section s s.inFlight s' := by
  obtain ⟨q, hq, ring⟩ := Irq.copyEntry_section hfree irq
  simp only [beginHandle, hq, hnone, map_some]
  exact ⟨_, rfl, .pass ring, rfl⟩

theorem beginHandle_top (hfree : s.Free) {irq : ℤ} {top : τ} {ctx : ℕ}
    (hfound : s.irq.found irq = some (top, none, ctx)) :
    ∃ s', s.beginHandle irq = some (some (none, top, none, ctx), s') ∧ Section s s.inFlight s' := by
  obtain ⟨q, hq, ring⟩ := Irq.copyEntry_section hfree irq
  simp only [beginHandle, hq, hfound, map_some]
  exact ⟨_, rfl, .pass ring, rfl⟩

theorem beginHandle_both (hfree : s.Free) {irq : ℤ} {top : τ} {fn : β} {ctx : ℕ}
    (hfound : s.irq.found irq = some (top, some fn, ctx)) :
    ∃ s', s.beginHandle irq = some (some ((Irq.entry irq).bind s.owner, top, some fn, ctx), s') ∧
      Section s ((Irq.entry irq).bind s.owner :: s.inFlight) s' := by
  obtain ⟨q, hq, ring⟩ := Irq.copyEntry_section hfree irq
  obtain ⟨i, hi, -⟩ := bind_eq_some_iff.mp hfound
  simp only [beginHandle, hq, hfound, map_some, hi, bind_some]
  exact ⟨_, rfl, .capture i ring, rfl⟩

theorem endHandle_none (reg : Option ℕ) (ctx : ℕ) (s : IrqSys τ β δ) :
    s.endHandle reg none ctx = some s :=
  rfl

theorem endHandle_section (hfree : s.Free) {reg : Option ℕ} {rest : List (Option ℕ)}
    (hflight : s.inFlight = reg :: rest) (fn : β) (ctx : ℕ) :
    ∃ s', s.endHandle reg (some fn) ctx = some s' ∧ Section s rest s' ∧
      (s'.log = s.log ++ [.accepted reg ⟨some fn, ctx⟩] ∨
        s'.log = s.log ++ [.refused reg ⟨some fn, ctx⟩ (nmBhQueueCap - 1)]) := by
  obtain ⟨q, hq, ⟨hfull, ring⟩ | ring⟩ := Irq.queueBottomHalf_section hfree fn ctx
  · have hfull' : Irq.nextSlot s.irq.bhTail = s.irq.bhHead := hfull
    simp only [endHandle, hq, map_some, hfull', if_true, hflight, List.tail_cons]
    refine ⟨_, rfl, ⟨.refuse reg rest fn ctx hflight hfull ring, rfl⟩, Or.inr ?_⟩
    rw [Irq.pendingCount_of_full hfull]
  · have hroom : Irq.nextSlot s.irq.bhTail ≠ s.irq.bhHead := ring.room
    simp only [endHandle, hq, map_some, hroom, if_false, hflight, List.tail_cons]
    exact ⟨_, rfl, ⟨.accept reg rest fn ctx hflight ring, rfl⟩, Or.inl rfl⟩

end IrqSys

/-! ## Calls -/

/-- A call or callback went by steps and, if it returned, left no interrupt half done. -/
structure Performed (s : IrqSys τ β δ) (returned : Bool) (s' : IrqSys τ β δ) : Prop where
  steps : ReflTransGen IrqStep s s'
  flight_eq : returned = true → s'.inFlight = s.inFlight

theorem Performed.refl (s : IrqSys τ β δ) (returned : Bool) : Performed s returned s :=
  ⟨.refl, fun _ => rfl⟩

theorem Section.performed (h : Section s s.inFlight s') (returned : Bool) :
    Performed s returned s' :=
  ⟨.single h.step, fun _ => h.flight_eq⟩

theorem Performed.trans {s'' : IrqSys τ β δ} {returned : Bool} (h : Performed s true s')
    (h' : Performed s' returned s'') : Performed s returned s'' :=
  ⟨h.steps.trans h'.steps, fun hret => (h'.flight_eq hret).trans (h.flight_eq rfl)⟩

theorem Script.exec_performed {perform : IrqCall τ β π → IrqSys τ β δ → Option ℤ × IrqSys τ β δ}
    (hperform : ∀ c (s : IrqSys τ β δ), s.Free →
      Performed s (perform c s).1.isSome (perform c s).2)
    (script : Script τ β δ π) (hfree : s.Free) :
    Performed s (script.exec perform s).1 (script.exec perform s).2 := by
  induction script generalizing s with
  | ret drivers => exact ⟨.single (.work drivers), fun _ => rfl⟩
  | call c drivers next ih =>
    have hcall := hperform c { s with drivers := drivers } hfree
    have hstart : Performed s true { s with drivers := drivers } :=
      ⟨.single (.work drivers), fun _ => rfl⟩
    rw [Script.exec]
    rcases hres : perform c { s with drivers := drivers } with ⟨_ | r, s'⟩
    · rw [hres] at hcall
      exact hstart.trans hcall
    · rw [hres] at hcall
      have hfree' := free_of_steps hcall.steps hfree
      exact (hstart.trans hcall).trans (ih r s'.drivers hfree')

namespace Callbacks

variable (h : Callbacks τ β δ π) {fuel : ℕ}

/-- The item at the head is taken, and called if it has a function. -/
structure Took (item : BhItem β) (s s' : IrqSys τ β δ) : Prop where
  done : Section s s.inFlight s'
  ring : s.irq.Popped item s'.irq
  slots_eq : s'.slotOwner = s.slotOwner
  drivers_eq : s'.drivers = s.drivers

/-- A round of the loop: it ends at an empty ring, skips an item without a function, or calls the
function of the item at the head with the context of the item. -/
inductive Round (fuel : ℕ) (s : IrqSys τ β δ) : Option ℤ × IrqSys τ β δ → Prop
  | ends {irq : Irq τ β} (hempty : s.irq.bhHead = s.irq.bhTail) (ring : s.irq.SameRing irq) :
      Round fuel s (some 0, { s with irq := irq })
  | skips (ctx : ℕ) (s₁ : IrqSys τ β δ) (htook : Took ⟨none, ctx⟩ s s₁) :
      Round fuel s (h.perform fuel .irqRunBottomHalves s₁)
  | calls (fn : β) (ctx : ℕ) (s₁ : IrqSys τ β δ) (htook : Took ⟨some fn, ctx⟩ s s₁) :
      Round fuel s (match (h.bottom fn ctx s.drivers).exec (h.perform fuel) s₁ with
        | (false, s) => (none, s)
        | (true, s) => h.perform fuel .irqRunBottomHalves s)

theorem round (fuel : ℕ) (hfree : s.Free) :
    h.Round fuel s (h.perform (fuel + 1) .irqRunBottomHalves s) := by
  obtain ⟨item, q, hq, hring⟩ := Irq.takeItem_section hfree
  simp only [perform, IrqSys.takeItem, hq, map_some]
  match item with
  | none => exact .ends hring.1 hring.2
  | some ⟨none, ctx⟩ => exact .skips ctx _ ⟨⟨.skip ctx hring, rfl⟩, hring, rfl, rfl⟩
  | some ⟨some fn, ctx⟩ => exact .calls fn ctx _ ⟨⟨.invoke fn ctx hring, rfl⟩, hring, rfl, rfl⟩

section

variable (ih : ∀ c (s : IrqSys τ β δ), s.Free →
  Performed s (h.perform fuel c s).1.isSome (h.perform fuel c s).2)

include ih

theorem irqHandle_performed (irq : ℤ) (ports : π) (hfree : s.Free) :
    Performed s (h.perform (fuel + 1) (.irqHandle irq ports) s).1.isSome
      (h.perform (fuel + 1) (.irqHandle irq ports) s).2 := by
  match hfound : s.irq.found irq with
  | none =>
    obtain ⟨s', heq, hsec⟩ := IrqSys.beginHandle_none hfree hfound
    simp only [perform, heq]
    exact hsec.performed _
  | some (top, none, ctx) =>
    obtain ⟨s', heq, hsec⟩ := IrqSys.beginHandle_top hfree hfound
    have hexec := (h.top top irq ctx ports s'.drivers).exec_performed ih (hsec.step.free hfree)
    simp only [perform, heq]
    rcases hres : (h.top top irq ctx ports s'.drivers).exec (h.perform fuel) s' with
      ⟨_ | _, s''⟩
    · rw [hres] at hexec
      exact (hsec.performed true).trans hexec
    · rw [hres] at hexec
      exact (hsec.performed true).trans hexec
  | some (top, some fn, ctx) =>
    obtain ⟨s', heq, hsec⟩ := IrqSys.beginHandle_both hfree hfound
    have hexec := (h.top top irq ctx ports s'.drivers).exec_performed ih (hsec.step.free hfree)
    simp only [perform, heq]
    rcases hres : (h.top top irq ctx ports s'.drivers).exec (h.perform fuel) s' with
      ⟨_ | _, s''⟩
    · rw [hres] at hexec
      exact ⟨.head hsec.step hexec.steps, fun hret => by cases hret⟩
    · rw [hres] at hexec
      have hflight := (hexec.flight_eq rfl).trans hsec.flight_eq
      have hfree'' := free_of_steps hexec.steps (hsec.step.free hfree)
      obtain ⟨r, hend, hsec', -⟩ := IrqSys.endHandle_section hfree'' hflight fn ctx
      simp only [hend]
      exact ⟨.head hsec.step (hexec.steps.tail hsec'.step), fun _ => hsec'.flight_eq⟩

theorem irqRunBottomHalves_performed (hfree : s.Free) :
    Performed s (h.perform (fuel + 1) .irqRunBottomHalves s).1.isSome
      (h.perform (fuel + 1) .irqRunBottomHalves s).2 := by
  have hround := h.round fuel hfree
  generalize h.perform (fuel + 1) .irqRunBottomHalves s = r at hround ⊢
  cases hround with
  | ends _ ring => exact ⟨.single (.pass ring), fun _ => rfl⟩
  | skips ctx s₁ htook => exact (htook.done.performed true).trans (ih _ s₁ htook.ring.free)
  | calls fn ctx s₁ htook =>
    have hcall := htook.done.performed true
    have hexec := (h.bottom fn ctx s.drivers).exec_performed ih htook.ring.free
    rcases hres : (h.bottom fn ctx s.drivers).exec (h.perform fuel) s₁ with ⟨_ | _, s₂⟩
    · rw [hres] at hexec
      exact hcall.trans hexec
    · rw [hres] at hexec
      exact (hcall.trans hexec).trans (ih _ s₂ (free_of_steps hexec.steps htook.ring.free))

end

theorem perform_performed (fuel : ℕ) (c : IrqCall τ β π) (s : IrqSys τ β δ) (hfree : s.Free) :
    Performed s (h.perform fuel c s).1.isSome (h.perform fuel c s).2 := by
  induction fuel generalizing c s with
  | zero => exact .refl s false
  | succ fuel ih =>
    cases c with
    | irqRegister irq topHalf bottomHalf ctx =>
      obtain ⟨r, s', heq, hsec⟩ := IrqSys.irqRegister_section hfree irq topHalf bottomHalf ctx
      simp only [perform, heq]
      exact hsec.performed _
    | irqUnregister irq =>
      obtain ⟨r, s', heq, hsec⟩ := IrqSys.irqUnregister_section hfree irq
      simp only [perform, heq]
      exact hsec.performed _
    | irqHandle irq ports => exact h.irqHandle_performed ih irq ports hfree
    | irqRunBottomHalves => exact h.irqRunBottomHalves_performed ih hfree

theorem performAll_performed (fuel : ℕ) (calls : List (IrqCall τ β π)) (hfree : s.Free) :
    Performed s (h.performAll fuel calls s).1 (h.performAll fuel calls s).2 := by
  induction calls generalizing s with
  | nil => exact .refl s true
  | cons c calls ih =>
    have hcall := h.perform_performed fuel c s hfree
    rw [performAll]
    rcases hres : h.perform fuel c s with ⟨_ | r, s'⟩
    · rw [hres] at hcall
      exact hcall
    · rw [hres] at hcall
      exact hcall.trans (ih (free_of_steps hcall.steps hfree))

end Callbacks

end NeverMind
