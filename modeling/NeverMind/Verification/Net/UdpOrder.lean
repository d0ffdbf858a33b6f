import NeverMind.Library.Run
import NeverMind.Verification.Net.UdpQueues
import Mathlib.Algebra.Order.BigOperators.Group.List

/-! # The order of the datagrams of a port

A delivery fills the first free slot of a queue and a receive empties the first used one. Datagrams
leave in the order in which they came as long as no delivery finds a free slot in front of a
datagram that waits. -/

namespace NeverMind.Udp

open List Option

variable {s : Udp} {q : ℕ} {c : UdpCall}

def arrives (c : UdpCall) (port : ℕ) : Option Datagram :=
  match c with
  | .sendto srcPort dstIp dstPort (some data) len =>
    if len ≠ 0 ∧ dstPort = port then some ⟨dstIp, srcPort, kept data len⟩ else none
  | .input srcIp (some data) len =>
    if ¬ (len < 8 ∨ field16 data 4 < 8 ∨ field16 data 4 > len) ∧ field16 data 2 = port then
      some ⟨srcIp, field16 data 0, kept (fun i => data (8 + i)) (field16 data 4 - 8)⟩
    else none
  | _ => none

/-- What went through the queue of a port since it was bound. -/
structure History where
  accepted : List Datagram
  returned : List (ℕ × Datagram)
  deriving DecidableEq

def accepts (c : UdpCall) (s : Udp) (port : ℕ) : Option Datagram :=
  if acceptedBy c s port = 0 then none else arrives c port

/-- One call, with what it adds to the history of a port. A bind that opens the port begins a new
history. -/
def observe (port : ℕ) (c : UdpCall) (x : History × Udp) : History × Udp :=
  let past := if Opens c x.2 port then ⟨[], []⟩ else x.1
  (⟨past.accepted ++ (accepts c x.2 port).toList, past.returned ++ (returns c x.2 port).toList⟩,
    x.2.next c)

/-- The datagram returned as the `k`-th is the `k`-th that was accepted, cut to the capacity of the
buffer. -/
def History.InTurn (h : History) : Prop :=
  ∀ (k : ℕ) (r : ℕ × Datagram), h.returned[k]? = some r →
    ∃ d : Datagram, h.accepted[k]? = some d ∧ r.2 = d.cut r.1

/-- Whatever is received from a port from now on, datagrams are returned in the order in which they
were accepted. -/
def ReturnsInTurn (port : ℕ) (x : History × Udp) : Prop :=
  ∀ recvs : List (Bool × ℕ),
    (runCalls (observe port) (recvs.map fun r => .recv port r.1 r.2) x).1.InTurn

/-- If a call carries a datagram to a port, then nothing but copies of it waits behind a free slot
of the queue. -/
def Appends (port : ℕ) (c : UdpCall) (s : Udp) : Prop :=
  ∀ d ∈ arrives c port, ∀ i ∈ s.findPort port, ∀ j k, ((s.ports i).q j).used = false → j < k →
    ∀ d' ∈ ((s.ports i).q k).datagram, d' = d

/-! ## What a call adds to the history -/

variable {d : Datagram}

theorem deliveredTo_eq {port dstPort srcIp srcPort len : ℕ} {data : ℕ → Byte}
    (h : deliveredTo port dstPort srcIp srcPort data len s = {d}) :
    dstPort = port ∧ d = ⟨srcIp, srcPort, kept data len⟩ := by
  rw [deliveredTo] at h
  split at h
  · next hboth => exact ⟨hboth.1, (Multiset.singleton_inj.mp h).symm⟩
  · exact absurd h.symm (Multiset.singleton_ne_zero d)

theorem arrives_of_acceptedBy (h : acceptedBy c s q = {d}) : arrives c q = some d := by
  have hne : (0 : Multiset Datagram) ≠ {d} := (Multiset.singleton_ne_zero d).symm
  unfold acceptedBy at h
  split at h
  · split at h
    · exact absurd h hne
    · next hlen =>
      obtain ⟨hport, rfl⟩ := deliveredTo_eq h
      exact if_pos ⟨hlen, hport⟩
  · split at h
    · exact absurd h hne
    · next hbad =>
      obtain ⟨hport, rfl⟩ := deliveredTo_eq h
      exact if_pos ⟨hbad, hport⟩
  · exact absurd h hne

theorem HasRoom.deliveredTo {port srcIp srcPort len : ℕ} {data : ℕ → Byte} (h : HasRoom port s) :
    deliveredTo port port srcIp srcPort data len s = {⟨srcIp, srcPort, kept data len⟩} :=
  if_pos ⟨rfl, h.udpDeliver srcIp srcPort data len⟩

theorem acceptedBy_of_arrives (h : arrives c q = some d) (hroom : HasRoom q s) :
    acceptedBy c s q = {d} := by
  unfold arrives at h
  split at h
  · rw [ite_none_right_eq_some] at h
    obtain ⟨⟨hlen, rfl⟩, hd⟩ := h
    rw [acceptedBy, if_neg hlen, hroom.deliveredTo, some.inj hd]
  · rw [ite_none_right_eq_some] at h
    obtain ⟨⟨hbad, rfl⟩, hd⟩ := h
    rw [acceptedBy, if_neg hbad, hroom.deliveredTo, some.inj hd]
  · cases h

theorem accepts_eq_none (h : acceptedBy c s q = 0) : accepts c s q = none := if_pos h

theorem accepts_eq_some (h : acceptedBy c s q = {d}) : accepts c s q = some d := by
  rw [accepts, if_neg (by simp [h]), arrives_of_acceptedBy h]

theorem returns_eq_none (h : returnedBy c s q = 0) : returns c s q = none := by
  rw [returnedBy] at h
  cases hreturns : returns c s q with
  | none => rfl
  | some r => simp [hreturns] at h

theorem returns_eq_some {r : ℕ × Datagram} (h : returnedBy c s q = {r}) :
    returns c s q = some r := by
  rw [returnedBy] at h
  cases hreturns : returns c s q with
  | none => simp [hreturns] at h
  | some r' => simpa [hreturns] using h

theorem appends_of_not_accepted (h : acceptedBy c s q = 0) : Appends q c s := by
  intro d hd i hi j k hfree
  have haccepted := acceptedBy_of_arrives hd ⟨i, hi, j, hfree⟩
  rw [h] at haccepted
  simp at haccepted

theorem appends_iff {i : PortRef} {k : Fin 16} (harrives : arrives c q = some d)
    (hfound : s.findPort q = some i) (hfree : ((s.ports i).q k).used = false)
    (hbelow : ∀ j < k, ((s.ports i).q j).used = true) :
    Appends q c s ↔ ∀ d' ∈ Slots.behind (fun j => ((s.ports i).q j).datagram) k, d' = d := by
  constructor
  · intro h d' hd'
    obtain ⟨j, hkj, hj⟩ := Slots.mem_behind.mp hd'
    exact h d harrives i hfound k j hfree hkj d' hj
  · intro h d₁ hd₁ i₁ hi₁ j j' hj hjj' d' hd'
    obtain rfl : d = d₁ := some.inj (harrives.symm.trans hd₁)
    obtain rfl : i = i₁ := some.inj (hfound.symm.trans hi₁)
    have hkj : k ≤ j := by
      by_contra hlt
      have hused := hbelow j (not_le.mp hlt)
      rw [hj] at hused
      cases hused
    exact h d' (Slots.mem_behind.mpr ⟨j', lt_of_le_of_lt hkj hjj', hd'⟩)

/-! ## The queue holds what is still to be returned -/

/-- Datagrams were returned in turn, and the others wait in the order in which they came. -/
structure InOrder (port : ℕ) (x : History × Udp) : Prop where
  turn : x.1.InTurn
  waiting : x.1.accepted.drop x.1.returned.length = orderAt port x.2

theorem History.InTurn.length_le {h : History} (hturn : h.InTurn) :
    h.returned.length ≤ h.accepted.length := by
  by_contra hlt
  have hk : h.accepted.length < h.returned.length := not_le.mp hlt
  obtain ⟨d, hd, -⟩ := hturn h.accepted.length _ (List.getElem?_eq_getElem hk)
  simp at hd

theorem InOrder.take {accepted : List Datagram} {returned : List (ℕ × Datagram)} {s' : Udp}
    (h : InOrder q (⟨accepted, returned⟩, s)) (horder : orderAt q s = d :: orderAt q s') (cap : ℕ) :
    InOrder q (⟨accepted, returned ++ [(cap, d.cut cap)]⟩, s') := by
  have hwaiting : accepted.drop returned.length = d :: orderAt q s' := h.waiting.trans horder
  constructor
  · intro k r hr
    by_cases hk : k < returned.length
    · rw [List.getElem?_append_left hk] at hr
      exact h.turn k r hr
    · rw [List.getElem?_append_right (not_lt.mp hk), List.getElem?_singleton] at hr
      split at hr
      · next hzero =>
        obtain rfl : k = returned.length := by omega
        obtain rfl := some.inj hr
        refine ⟨d, ?_, rfl⟩
        have hfirst := congrArg (fun l => l[0]?) hwaiting
        simpa using hfirst
      · cases hr
  · rw [length_append, length_singleton, ← drop_drop, hwaiting]
    rfl

/-- A datagram put into the queue in front of others is in order if these are copies of it. -/
theorem InOrder.put_iff {accepted : List Datagram} {returned : List (ℕ × Datagram)} {s' : Udp}
    {front back : List Datagram} (h : InOrder q (⟨accepted, returned⟩, s))
    (horder : orderAt q s = front ++ back) (horder' : orderAt q s' = front ++ d :: back) :
    InOrder q (⟨accepted ++ [d], returned⟩, s') ↔ ∀ d' ∈ back, d' = d := by
  have hturn : History.InTurn ⟨accepted ++ [d], returned⟩ := by
    intro k r hr
    obtain ⟨d', hd', hcut⟩ := h.turn k r hr
    refine ⟨d', ?_, hcut⟩
    rw [List.getElem?_append_left (List.getElem?_eq_some_iff.mp hd').1]
    exact hd'
  have hwaiting : (accepted ++ [d]).drop returned.length = front ++ (back ++ [d]) := by
    rw [drop_append_of_le_length h.turn.length_le, ← append_assoc, ← horder]
    exact congrArg (· ++ [d]) h.waiting
  calc InOrder q (⟨accepted ++ [d], returned⟩, s')
      ↔ (accepted ++ [d]).drop returned.length = orderAt q s' :=
        ⟨fun h => h.waiting, fun h => ⟨hturn, h⟩⟩
    _ ↔ back ++ [d] = d :: back := by rw [hwaiting, horder', append_cancel_left_eq]
    _ ↔ ∀ d' ∈ back, d' = d := Slots.concat_eq_cons

variable {x : History × Udp}

theorem InOrder.recv (h : InOrder q x) (payload : Bool) (cap : ℕ) :
    InOrder q (observe q (.recv q payload cap) x) := by
  obtain ⟨⟨accepted, returned⟩, s⟩ := x
  obtain ⟨hreturned, hsame, -⟩ | ⟨d, hreturned, -, horder⟩ := recv_front q payload cap s
  · simpa [observe, not_opens, accepts, acceptedBy, returns_eq_none hreturned, hsame] using h
  · simpa [observe, not_opens, accepts, acceptedBy, returns_eq_some hreturned] using
      h.take horder cap

theorem InOrder.returnsInTurn (h : InOrder q x) : ReturnsInTurn q x := by
  intro recvs
  suffices hall : InOrder q (runCalls (observe q) (recvs.map fun r => .recv q r.1 r.2) x) from
    hall.turn
  induction recvs generalizing x with
  | nil => exact h
  | cons r recvs ih => exact ih (h.recv r.1 r.2)

/-! ## Receives reveal the order of the queue -/

/-- Some capacity cuts none of the datagrams. -/
theorem exists_cut_eq (l : List Datagram) : ∃ cap, ∀ d ∈ l, d.cut cap = d := by
  refine ⟨(l.map fun d => d.bytes.length).sum, fun d hd => ?_⟩
  have hle : d.bytes.length ≤ (l.map fun d => d.bytes.length).sum :=
    single_le_sum (fun _ _ => Nat.zero_le _) _ (mem_map_of_mem hd)
  rw [Datagram.cut, take_of_length_le hle]

/-- As many receives as datagrams wait return them all. -/
theorem observe_drain {order : List Datagram} (h : orderAt q x.2 = order) (cap : ℕ) :
    (runCalls (observe q)
        ((replicate order.length (true, cap)).map fun r => .recv q r.1 r.2) x).1 =
      ⟨x.1.accepted, x.1.returned ++ order.map fun d => (cap, d.cut cap)⟩ := by
  induction order generalizing x with
  | nil => simp
  | cons d order ih =>
    obtain ⟨⟨accepted, returned⟩, s⟩ := x
    obtain ⟨-, -, hempty⟩ | ⟨d', hreturned, -, horder⟩ := recv_front q true cap s
    · rw [h] at hempty
      cases hempty rfl
    · obtain ⟨rfl, hrest⟩ := cons.inj (h.symm.trans horder)
      have hstep : observe q (.recv q true cap) (⟨accepted, returned⟩, s) =
          (⟨accepted, returned ++ [(cap, d.cut cap)]⟩, s.next (.recv q true cap)) := by
        simp [observe, not_opens, accepts, acceptedBy, returns_eq_some hreturned]
      rw [length_cons, replicate_succ, map_cons, runCalls_cons, hstep, ih hrest.symm]
      simp

def Counted (port : ℕ) (x : History × Udp) : Prop :=
  x.1.accepted.length = x.1.returned.length + (orderAt port x.2).length

/-- If receives return datagrams in turn, then the queue is in order. -/
theorem ReturnsInTurn.inOrder (h : ReturnsInTurn q x) (hcount : Counted q x) : InOrder q x := by
  obtain ⟨cap, hcap⟩ := exists_cut_eq (x.1.accepted ++ orderAt q x.2)
  have hall := h (replicate (orderAt q x.2).length (true, cap))
  rw [observe_drain rfl] at hall
  refine ⟨h [], ext_getElem? fun k => ?_⟩
  rw [List.getElem?_drop]
  cases hk : (orderAt q x.2)[k]? with
  | none =>
    rw [List.getElem?_eq_none_iff] at hk ⊢
    rw [hcount]
    omega
  | some d =>
    have hreturned : (x.1.returned ++ (orderAt q x.2).map fun d => (cap, d.cut cap))[
        x.1.returned.length + k]? = some (cap, d.cut cap) := by
      rw [List.getElem?_append_right (Nat.le_add_right _ _), Nat.add_sub_cancel_left,
        List.getElem?_map, hk]
      rfl
    obtain ⟨d', hd', hcut⟩ := hall (x.1.returned.length + k) _ hreturned
    have hmem : d ∈ x.1.accepted ++ orderAt q x.2 := mem_append_right _ (mem_of_getElem? hk)
    have hmem' : d' ∈ x.1.accepted ++ orderAt q x.2 := mem_append_left _ (mem_of_getElem? hd')
    have heq : d.cut cap = d'.cut cap := hcut
    rw [hcap d hmem, hcap d' hmem'] at heq
    rw [heq]
    exact hd'

/-! ## One call -/

theorem observe_of_not_opens {h : History} (hopens : ¬ Opens c s q) {a : Option Datagram}
    {r : Option (ℕ × Datagram)} (ha : accepts c s q = a) (hr : returns c s q = r) :
    observe q c (h, s) = (⟨h.accepted ++ a.toList, h.returned ++ r.toList⟩, s.next c) := by
  rw [observe, if_neg hopens, ha, hr]

theorem bound_of_orderAt (h : orderAt q s ≠ []) : Bound q s := by
  by_contra hbound
  rw [Bound, not_isSome_iff_eq_none] at hbound
  exact h (by simp [orderAt, hbound])

theorem inOrder_observe (hdistinct : Distinct x.2) (h : Bound q x.2 → InOrder q x) (c : UdpCall) :
    (Bound q (observe q c x).2 → InOrder q (observe q c x)) ↔ Appends q c x.2 := by
  obtain ⟨⟨accepted, returned⟩, s⟩ := x
  have hstep := order_step hdistinct c q
  have hnext : (observe q c (⟨accepted, returned⟩, s)).2 = s.next c := rfl
  cases hstep with
  | same hopens haccepted hreturned hagree =>
    refine iff_of_true (fun hbound => ?_) (appends_of_not_accepted haccepted)
    have hin := h (hagree.bound_iff.mp hbound)
    rw [observe_of_not_opens hopens (accepts_eq_none haccepted) (returns_eq_none hreturned)]
    refine ⟨by simpa using hin.turn, ?_⟩
    simpa [hagree.orderAt_eq] using hin.waiting
  | opened hopens haccepted hreturned horder =>
    refine iff_of_true (fun _ => ?_) (appends_of_not_accepted haccepted)
    rw [observe, if_pos hopens, accepts_eq_none haccepted, returns_eq_none hreturned]
    exact ⟨fun k r hr => by simp at hr, by simpa using horder.symm⟩
  | closed haccepted hbound =>
    exact iff_of_true (fun hb => absurd hb hbound) (appends_of_not_accepted haccepted)
  | filled d i k hopens haccepted hreturned hfound hfree hbelow horder =>
    have hbound : Bound q s := by simp [Bound, hfound]
    have hbound' : Bound q (s.next c) := bound_of_orderAt (by simp [horder])
    have hbefore := (orderAt_of_findPort hfound).trans (ordered_of_free hfree)
    rw [observe_of_not_opens hopens (accepts_eq_some haccepted) (returns_eq_none hreturned),
      imp_iff_right hbound', appends_iff (arrives_of_acceptedBy haccepted) hfound hfree hbelow]
    simpa using (h hbound).put_iff hbefore horder
  | emptied cap d hopens haccepted hreturned hbound horder =>
    refine iff_of_true (fun _ => ?_) (appends_of_not_accepted haccepted)
    rw [observe_of_not_opens hopens (accepts_eq_none haccepted) (returns_eq_some hreturned)]
    simpa using (h hbound).take horder cap

theorem counted_observe (hdistinct : Distinct x.2) (h : Bound q x.2 → Counted q x) (c : UdpCall) :
    Bound q (observe q c x).2 → Counted q (observe q c x) := by
  obtain ⟨⟨accepted, returned⟩, s⟩ := x
  have hstep := order_step hdistinct c q
  intro hbound'
  cases hstep with
  | same hopens haccepted hreturned hagree =>
    have hcount := h (hagree.bound_iff.mp hbound')
    rw [observe_of_not_opens hopens (accepts_eq_none haccepted) (returns_eq_none hreturned)]
    simpa [Counted, hagree.orderAt_eq] using hcount
  | opened hopens haccepted hreturned horder =>
    rw [observe, if_pos hopens, accepts_eq_none haccepted, returns_eq_none hreturned]
    simp [Counted, horder]
  | closed haccepted hbound => exact absurd hbound' hbound
  | filled d i k hopens haccepted hreturned hfound hfree hbelow horder =>
    have hcount := h (by simp [Bound, hfound])
    rw [observe_of_not_opens hopens (accepts_eq_some haccepted) (returns_eq_none hreturned)]
    rw [Counted, orderAt_of_findPort hfound, ordered_of_free hfree] at hcount
    simp only [Counted, horder, length_append, length_cons, toList_some,
      toList_none, length_nil] at hcount ⊢
    omega
  | emptied cap d hopens haccepted hreturned hbound horder =>
    have hcount := h hbound
    rw [observe_of_not_opens hopens (accepts_eq_none haccepted) (returns_eq_some hreturned)]
    simp only [Counted, horder, length_append, length_cons, toList_some,
      toList_none, length_nil] at hcount ⊢
    omega

/-! ## Whole runs -/

theorem throughout_returnsInTurn (hx : WellFormed x.2) (hbound : ¬ Bound q x.2)
    (calls : List UdpCall) :
    Throughout (observe q) (fun x => Bound q x.2 → ReturnsInTurn q x) calls x ↔
      EachStep next (Appends q) calls x.2 := by
  have hiff : ∀ x : History × Udp, (Bound q x.2 → Counted q x) →
      ((Bound q x.2 → ReturnsInTurn q x) ↔ (Bound q x.2 → InOrder q x)) :=
    fun x hcount => forall_congr' fun hb =>
      ⟨fun h => h.inOrder (hcount hb), fun h => h.returnsInTurn⟩
  have hsnd : ∀ c y, (observe q c y).2 = next c y.2 := fun _ _ => rfl
  rw [← eachStep_map hsnd]
  refine throughout_iff_eachStep (I := fun x => WellFormed x.2 ∧ (Bound q x.2 → Counted q x))
    (eachStep_true calls x) ?_ ?_ ⟨hx, fun hb => absurd hb hbound⟩ fun hb => absurd hb hbound
  · rintro c y - ⟨hwf, hcount⟩
    exact ⟨hwf.next c, counted_observe hwf.distinct hcount c⟩
  · rintro c y - ⟨hwf, hcount⟩ hturn
    rw [hiff _ (counted_observe hwf.distinct hcount c)]
    exact inOrder_observe hwf.distinct ((hiff y hcount).mp hturn) c

theorem not_bound_atStart (q : ℕ) : ¬ Bound q Udp.atStart := by
  simp [Bound, findPort, Udp.atStart]

/-- The datagrams of a port are returned in the order in which they were accepted in exactly the
runs in which no call carries a datagram to the port while another one waits in its queue behind a
free slot. -/
theorem datagrams_returned_in_turn_iff (port : ℕ) (calls : List UdpCall) :
    Throughout (observe port) (fun x => Bound port x.2 → ReturnsInTurn port x) calls
        (⟨[], []⟩, Udp.atStart) ↔
      EachStep next (Appends port) calls Udp.atStart :=
  throughout_returnsInTurn WellFormed.atStart (not_bound_atStart port) calls

/-- Two datagrams arrive at port 5, one is received, a third one arrives and takes the slot of the
first, and the next receive returns the third. -/
theorem third_datagram_overtakes_second :
    let send (b : Byte) : UdpCall := .sendto 7 1 5 (some fun _ => b) 1
    let calls := [.bind 5, send 65, send 66, .recv 5 true 1, send 67, .recv 5 true 1]
    let x := runCalls (observe 5) calls (⟨[], []⟩, Udp.atStart)
    Bound 5 x.2 ∧ x.1.accepted = [⟨1, 7, [65]⟩, ⟨1, 7, [66]⟩, ⟨1, 7, [67]⟩] ∧
      x.1.returned = [(1, ⟨1, 7, [65]⟩), (1, ⟨1, 7, [67]⟩)] ∧ ¬ x.1.InTurn := by
  intro send calls x
  have haccepted : x.1.accepted = [⟨1, 7, [65]⟩, ⟨1, 7, [66]⟩, ⟨1, 7, [67]⟩] := by decide +kernel
  have hreturned : x.1.returned = [(1, ⟨1, 7, [65]⟩), (1, ⟨1, 7, [67]⟩)] := by decide +kernel
  refine ⟨?_, haccepted, hreturned, fun hturn => ?_⟩
  · unfold Bound
    decide +kernel
  · obtain ⟨d, hd, hcut⟩ := hturn 1 (1, ⟨1, 7, [67]⟩) (by rw [hreturned]; rfl)
    rw [haccepted] at hd
    obtain rfl := some.inj hd
    revert hcut
    decide

end NeverMind.Udp
