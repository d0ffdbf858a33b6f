import NeverMind.Verification.Net.UdpTable

/-! # Datagrams are conserved

Between a bind and the next unbind of a port, the datagrams accepted for it are those that
receives returned and those still queued. -/

namespace NeverMind.Udp

open Function

variable {s : Udp} {i : PortRef} {port : ℕ}

/-- What was accepted for every port since it was bound, and what receives with a given
capacity have returned from it. -/
structure Log where
  accepted : ℕ → Multiset Datagram
  returned : ℕ → Multiset (ℕ × Datagram)

/-- A log starts anew when its port is bound. -/
def Log.record (c : UdpCall) (s : Udp) (log : Log) : Log where
  accepted := fun port =>
    (if Opens c s port then 0 else log.accepted port) + acceptedBy c s port
  returned := fun port =>
    (if Opens c s port then 0 else log.returned port) + returnedBy c s port

/-- The tables reached by any calls, with the log of the calls. -/
inductive Reached : Log → Udp → Prop where
  | start (log : Log) : Reached log Udp.atStart
  | step {log : Log} {s : Udp} (h : Reached log s) (c : UdpCall) :
      Reached (log.record c s) (s.next c)

/-- What was accepted for a port was returned, cut to the capacity of the receive, or is
queued. -/
def Conserved (port : ℕ) (log : Log) (s : Udp) : Prop :=
  ∃ taken : Multiset (ℕ × Datagram), log.returned port = taken.map (fun r => (r.1, r.2.cut r.1)) ∧
      log.accepted port = taken.map Prod.snd + queuedAt port s

/-! ## The port table -/

/-- The invariant of the port table: distinct ports other than 0, and lengths within the
buffers. -/
structure WellFormed (s : Udp) : Prop where
  distinct : Distinct s
  nonzero : ∀ i, (s.ports i).used = true → (s.ports i).port ≠ 0
  fits : ∀ i, (s.ports i).Fits

theorem WellFormed.atStart : WellFormed Udp.atStart where
  distinct := by
    intro i j hused
    cases hused
  nonzero := by
    intro i hused
    cases hused
  fits := by
    intro i k
    exact Nat.zero_le _

/-- A change of one entry keeps the invariant if no other entry serves the new port. -/
theorem WellFormed.setPort (h : WellFormed s) {p : UdpPort} (hfits : p.Fits)
    (hzero : p.used = true → p.port ≠ 0)
    (hfresh : p.used = true → ∀ k, k ≠ i → (s.ports k).used = true → (s.ports k).port ≠ p.port) :
    WellFormed (s.setPort i p) where
  distinct := by
    intro k l hk hl hport
    by_cases hki : k = i <;> by_cases hli : l = i
    · rw [hki, hli]
    · subst hki
      simp only [ports_setPort, update_self, update_of_ne hli] at hk hl hport
      exact absurd hport.symm (hfresh hk l hli hl)
    · subst hli
      simp only [ports_setPort, update_self, update_of_ne hki] at hk hl hport
      exact absurd hport (hfresh hl k hki hk)
    · simp only [ports_setPort, update_of_ne hki, update_of_ne hli]
        at hk hl hport
      exact h.distinct k l hk hl hport
  nonzero := by
    intro k hk
    by_cases hki : k = i
    · subst hki
      simp only [ports_setPort, update_self] at hk ⊢
      exact hzero hk
    · simp only [ports_setPort, update_of_ne hki] at hk ⊢
      exact h.nonzero k hk
  fits := by
    intro k
    by_cases hki : k = i
    · subst hki
      simpa using hfits
    · simpa [hki] using h.fits k

theorem WellFormed.queueStep (h : WellFormed s) {p : UdpPort} (hstep : QueueStep port i p s) :
    WellFormed (s.setPort i p) := by
  apply h.setPort (hstep.fits (h.fits i))
  · intro hused
    rw [hstep.used] at hused
    rw [hstep.port_eq]
    exact h.nonzero i hused
  · intro hused k hki hk heq
    rw [hstep.used] at hused
    rw [hstep.port_eq] at heq
    exact hki (h.distinct k i hk hused heq)

theorem WellFormed.queued (h : WellFormed s) {s' : Udp} (hqueued : Queued s s') :
    WellFormed s' := by
  obtain rfl | ⟨port, i, p, hstep, rfl⟩ := hqueued
  · exact h
  · exact h.queueStep hstep

/-! ## One call -/

theorem WellFormed.bind (h : WellFormed s) (port : ℕ) : WellFormed (s.udpBind port).2 := by
  have hspec := udpBind_spec port s
  generalize s.udpBind port = r at hspec ⊢
  cases hspec with
  | refused => exact h
  | already hbound => exact h
  | fresh i p hzero hnone hfree hused hport hempty hfits =>
    apply h.setPort (hfits (h.fits i)) (fun _ => hport ▸ hzero)
    intro _ k _ hk heq
    have hserved := List.find?_eq_none.mp hnone k (List.mem_finRange k)
    simp [hk, heq, hport] at hserved

theorem WellFormed.unbind (h : WellFormed s) (port : ℕ) : WellFormed (s.udpUnbind port).2 := by
  have hspec := udpUnbind_spec port s
  generalize s.udpUnbind port = r at hspec ⊢
  cases hspec with
  | refused => exact h
  | freed i hfound =>
    refine h.setPort (p := { s.ports i with used := false }) (h.fits i) ?_ ?_
    · intro hused
      cases hused
    · intro hused
      cases hused

theorem WellFormed.next (h : WellFormed s) (c : UdpCall) : WellFormed (s.next c) := by
  cases c with
  | bind port => exact h.bind port
  | unbind port => exact h.unbind port
  | sendto srcPort dstIp dstPort payload len => exact h.queued (carries_sendto ..).queued
  | input srcIp payload len => exact h.queued (carries_input ..).queued
  | recv port payload cap => exact h.queued (queued_recv ..)

variable {log : Log}

theorem Conserved.step (hdistinct : Distinct s) (c : UdpCall) {q : ℕ}
    (h : Bound q s → Conserved q log s) (hbound : Bound q (s.next c)) :
    Conserved q (log.record c s) (s.next c) := by
  have hstep := order_step hdistinct c q
  generalize s.next c = s' at hstep hbound ⊢
  cases hstep with
  | same hopens haccepted hreturned hagree =>
    obtain ⟨taken, hret, hacc⟩ := h (hagree.bound_iff.mp hbound)
    refine ⟨taken, ?_, ?_⟩
    · simp [Log.record, hopens, hreturned, hret]
    · simp [Log.record, hopens, haccepted, hacc, hagree.queuedAt_eq]
  | opened hopens haccepted hreturned horder =>
    refine ⟨0, ?_, ?_⟩
    · simp [Log.record, hopens, hreturned]
    · simp [Log.record, hopens, haccepted, ← coe_orderAt, horder]
  | closed haccepted hnot => exact absurd hbound hnot
  | filled d i k hopens haccepted hreturned hfound hfree hbelow horder =>
    have hqueued := queuedAt_of_filled hfound hfree horder
    obtain ⟨taken, hret, hacc⟩ := h (by simp [Bound, hfound])
    refine ⟨taken, ?_, ?_⟩
    · simp [Log.record, hopens, hreturned, hret]
    · simp only [Log.record, hopens, if_false, haccepted, hacc, hqueued]
      rw [Multiset.add_cons, ← Multiset.singleton_add, Multiset.add_comm]
  | emptied cap d hopens haccepted hreturned hbefore horder =>
    obtain ⟨taken, hret, hacc⟩ := h hbefore
    refine ⟨(cap, d) ::ₘ taken, ?_, ?_⟩
    · simp only [Log.record, hopens, if_false, hreturned, hret]
      rw [Multiset.map_cons, ← Multiset.singleton_add, Multiset.add_comm]
    · simp [Log.record, hopens, haccepted, hacc, ← coe_orderAt, horder, ← Multiset.cons_coe]

theorem Reached.wellFormed (h : Reached log s) : WellFormed s := by
  induction h with
  | start log => exact .atStart
  | step h c ih => exact ih.next c

end NeverMind.Udp
