import NeverMind.Library.Slots
import NeverMind.Model.Udp

/-! # The table of ports

What the calls of `udp.c` do to the entries of the port table and to the order of the messages in
the queue of a port. -/

namespace NeverMind

open Function List

/-- A datagram with its source. -/
structure Datagram where
  srcIp : ℕ
  srcPort : ℕ
  bytes : List Byte
  deriving Repr, DecidableEq

/-- A datagram as a buffer of `cap` bytes receives it. -/
def Datagram.cut (cap : ℕ) (d : Datagram) : Datagram := { d with bytes := d.bytes.take cap }

def UdpMsg.datagram (m : UdpMsg) : Option Datagram :=
  if m.used then some ⟨m.srcIp, m.srcPort, readFirst m.len m.payload⟩ else none

def UdpMsg.stored (m : UdpMsg) : Datagram := ⟨m.srcIp, m.srcPort, readFirst m.len m.payload⟩

def UdpPort.queued (p : UdpPort) : Multiset Datagram := Slots.held fun j => (p.q j).datagram

def UdpPort.ordered (p : UdpPort) : List Datagram := Slots.inOrder fun j => (p.q j).datagram

def UdpPort.Fits (p : UdpPort) : Prop := ∀ k, (p.q k).len ≤ 1500

/-- The calls of `udp.c`. -/
inductive UdpCall where
  | bind (port : ℕ)
  | unbind (port : ℕ)
  | sendto (srcPort dstIp dstPort : ℕ) (payload : Option (ℕ → Byte)) (len : ℕ)
  | input (srcIp : ℕ) (payload : Option (ℕ → Byte)) (len : ℕ)
  | recv (port : ℕ) (payload : Bool) (cap : ℕ)

namespace Udp

variable {s : Udp} {i j : PortRef} {port : ℕ}

def next (c : UdpCall) (s : Udp) : Udp :=
  match c with
  | .bind port => (s.udpBind port).2
  | .unbind port => (s.udpUnbind port).2
  | .sendto srcPort dstIp dstPort payload len => (s.udpSendto srcPort dstIp dstPort payload len).2
  | .input srcIp payload len => s.udpInput srcIp payload len
  | .recv port payload cap => (s.udpRecv port payload cap).2

def Bound (port : ℕ) (s : Udp) : Prop := (s.findPort port).isSome

def queuedAt (port : ℕ) (s : Udp) : Multiset Datagram :=
  match s.findPort port with
  | some i => (s.ports i).queued
  | none => 0

def orderAt (port : ℕ) (s : Udp) : List Datagram :=
  match s.findPort port with
  | some i => (s.ports i).ordered
  | none => []

def HasRoom (port : ℕ) (s : Udp) : Prop :=
  ∃ i, s.findPort port = some i ∧ ∃ j, ((s.ports i).q j).used = false

/-- The first bytes of a payload, as many as a message can hold. -/
def kept (data : ℕ → Byte) (len : ℕ) : List Byte := (range (min len 1500)).map data

/-- A delivery was accepted if its result is not an error. -/
def deliveredTo (port dstPort srcIp srcPort : ℕ) (data : ℕ → Byte) (len : ℕ) (s : Udp) :
    Multiset Datagram :=
  if dstPort = port ∧ 0 ≤ (s.udpDeliver dstPort srcIp srcPort data len).1 then
    {⟨srcIp, srcPort, kept data len⟩}
  else 0

def acceptedBy (c : UdpCall) (s : Udp) (port : ℕ) : Multiset Datagram :=
  match c with
  | .sendto srcPort dstIp dstPort (some data) len =>
    if len = 0 then 0 else deliveredTo port dstPort dstIp srcPort data len s
  | .input srcIp (some data) len =>
    if len < 8 ∨ field16 data 4 < 8 ∨ field16 data 4 > len then 0
    else
      deliveredTo port (field16 data 2) srcIp (field16 data 0) (fun i => data (8 + i))
        (field16 data 4 - 8) s
  | _ => 0

/-- The datagram that a call has returned from a port, with the capacity of its buffer. -/
def returns (c : UdpCall) (s : Udp) (port : ℕ) : Option (ℕ × Datagram) :=
  match c with
  | .recv port' payload cap =>
    match (s.udpRecv port' payload cap).1.source with
    | some (srcIp, srcPort) =>
      if port' = port then some (cap, ⟨srcIp, srcPort, (s.udpRecv port' payload cap).1.bytes⟩)
      else none
    | none => none
  | _ => none

def returnedBy (c : UdpCall) (s : Udp) (port : ℕ) : Multiset (ℕ × Datagram) :=
  (returns c s port).elim 0 singleton

def Opens (c : UdpCall) (s : Udp) (port : ℕ) : Prop :=
  match c with
  | .bind port' => port' = port ∧ (s.udpBind port').1 = 0 ∧ s.findPort port' = none
  | _ => False

instance (c : UdpCall) (s : Udp) (port : ℕ) : Decidable (Opens c s port) := by
  unfold Opens
  split <;> infer_instance

def Distinct (s : Udp) : Prop :=
  ∀ i j, (s.ports i).used = true → (s.ports j).used = true → (s.ports i).port = (s.ports j).port →
    i = j

/-! ## Looking up ports -/

theorem findPort_some (h : s.findPort port = some i) :
    (s.ports i).used = true ∧ (s.ports i).port = port := by
  have hfound := find?_some h
  simpa using hfound

@[simp] theorem ports_setPort (i : PortRef) (p : UdpPort) (s : Udp) :
    (s.setPort i p).ports = update s.ports i p :=
  rfl

def serves (port : ℕ) (p : UdpPort) : Bool := p.used && p.port == port

theorem findPort_setPort {p : UdpPort} (h : serves port p = serves port (s.ports i)) :
    (s.setPort i p).findPort port = s.findPort port := by
  have hsame : ∀ k, serves port ((s.setPort i p).ports k) = serves port (s.ports k) := by
    intro k
    by_cases hki : k = i
    · subst hki
      simpa using h
    · simp [hki]
  unfold findPort
  exact congrArg (fun test => (finRange 64).find? test) (funext hsame)

/-- The tables have one entry for a port, or both have none. -/
def Agree (q : ℕ) (s s' : Udp) : Prop :=
  s'.findPort q = s.findPort q ∧ ∀ i, s.findPort q = some i → s'.ports i = s.ports i

variable {s' : Udp}

theorem Agree.bound_iff {q : ℕ} (h : Agree q s s') : Bound q s' ↔ Bound q s := by
  rw [Bound, Bound, h.1]

theorem Agree.setPort {q : ℕ} {p : UdpPort} (hold : serves q (s.ports i) = false)
    (hnew : serves q p = false) : Agree q s (s.setPort i p) := by
  refine ⟨findPort_setPort (hnew.trans hold.symm), ?_⟩
  intro k hk
  have hki : k ≠ i := by
    intro hki
    subst hki
    obtain ⟨hused, hport⟩ := findPort_some hk
    simp [serves, hused, hport] at hold
  simp [hki]

variable {msg : UdpMsg}

theorem Fits.update {p : UdpPort} (h : p.Fits) (hmsg : msg.len ≤ 1500) (k : Fin 16) :
    UdpPort.Fits { p with q := update p.q k msg } := by
  intro l
  by_cases hlk : l = k
  · subst hlk
    simpa using hmsg
  · simpa [hlk] using h l

theorem queuedAt_of_findPort (hfound : s.findPort port = some i) :
    queuedAt port s = (s.ports i).queued := by
  simp [queuedAt, hfound]

theorem orderAt_of_findPort (hfound : s.findPort port = some i) :
    orderAt port s = (s.ports i).ordered := by
  simp [orderAt, hfound]

theorem coe_orderAt (port : ℕ) (s : Udp) :
    (orderAt port s : Multiset Datagram) = queuedAt port s := by
  unfold orderAt queuedAt
  cases s.findPort port with
  | none => rfl
  | some i => exact Slots.coe_inOrder _

theorem Agree.orderAt_eq {q : ℕ} (h : Agree q s s') : orderAt q s' = orderAt q s := by
  unfold orderAt
  rw [h.1]
  cases hfound : s.findPort q with
  | none => rfl
  | some i => simp only [h.2 i hfound]

theorem Agree.queuedAt_eq {q : ℕ} (h : Agree q s s') : queuedAt q s' = queuedAt q s := by
  rw [← coe_orderAt, ← coe_orderAt, h.orderAt_eq]

theorem Agree.refl (q : ℕ) (s : Udp) : Agree q s s := ⟨rfl, fun _ _ => rfl⟩

/-! ## What the calls do to a queue -/

theorem readFirst_copyFirst_kept (data : ℕ → Byte) (len : ℕ) (old : Fin 1500 → Byte) :
    readFirst (min len 1500) (copyFirst (min len 1500) data old) = kept data len :=
  readFirst_copyFirst (by omega) data old

theorem slots_update (q : Fin 16 → UdpMsg) (k : Fin 16) (msg : UdpMsg) :
    (fun l => (update q k msg l).datagram) = update (fun l => (q l).datagram) k msg.datagram :=
  comp_update UdpMsg.datagram q k msg

variable {k : Fin 16}

/-- A change of the queue of the entry for a port. -/
structure QueueStep (port : ℕ) (i : PortRef) (p : UdpPort) (s : Udp) : Prop where
  found : s.findPort port = some i
  used : p.used = (s.ports i).used
  port_eq : p.port = (s.ports i).port
  fits : (s.ports i).Fits → p.Fits

theorem queueStep_update (hfound : s.findPort port = some i) (k : Fin 16) {m : UdpMsg}
    (hm : (s.ports i).Fits → m.len ≤ 1500) :
    QueueStep port i { s.ports i with q := update (s.ports i).q k m } s :=
  ⟨hfound, rfl, rfl, fun hfits => Fits.update hfits (hm hfits) k⟩

theorem queueStep_empty (hfound : s.findPort port = some i) (k : Fin 16) :
    QueueStep port i { s.ports i with
      q := update (s.ports i).q k { (s.ports i).q k with used := false } } s :=
  queueStep_update hfound k fun hfits => hfits k

/-- What `udpDeliver` does to the slots of a queue: it fills the first that is free. -/
inductive Fills (dstPort srcIp srcPort : ℕ) (data : ℕ → Byte) (len : ℕ) (s : Udp) :
    ℤ × Udp → Prop where
  | refused (hroom : ¬ HasRoom dstPort s) :
      Fills dstPort srcIp srcPort data len s (nmErr nmEfail, s)
  | filled (i : PortRef) (k : Fin 16) (msg : UdpMsg) (hfound : s.findPort dstPort = some i)
      (hfree : ((s.ports i).q k).used = false) (hbelow : ∀ j < k, ((s.ports i).q j).used = true)
      (hlen : msg.len ≤ 1500) (hmsg : msg.datagram = some ⟨srcIp, srcPort, kept data len⟩) :
      Fills dstPort srcIp srcPort data len s ((min len 1500 : ℕ),
        s.setPort i { s.ports i with q := update (s.ports i).q k msg })

theorem udpDeliver_fills (dstPort srcIp srcPort : ℕ) (data : ℕ → Byte) (len : ℕ) (s : Udp) :
    Fills dstPort srcIp srcPort data len s (s.udpDeliver dstPort srcIp srcPort data len) := by
  unfold udpDeliver
  cases hfound : s.findPort dstPort with
  | none =>
    refine .refused ?_
    rintro ⟨i, hi, -⟩
    simp [hi] at hfound
  | some i =>
    cases hfree : (finRange 16).find? fun j => !((s.ports i).q j).used with
    | none =>
      simp only [hfree]
      refine .refused ?_
      rintro ⟨i', hi', j, hj⟩
      obtain rfl : i = i' := Option.some.inj (hfound.symm.trans hi')
      have hused := find?_eq_none.mp hfree j (mem_finRange j)
      simp [hj] at hused
    | some k =>
      have hcount : (if len > udpPayloadMax then udpPayloadMax else len) = min len 1500 := by
        unfold udpPayloadMax
        split <;> omega
      simp only [hfree, hcount]
      refine .filled i k _ hfound ?_ ?_ (Nat.min_le_right _ _) ?_
      · simpa using find?_some hfree
      · simpa using Slots.eq_false_of_lt_find? hfree
      · simp [UdpMsg.datagram, readFirst_copyFirst_kept]

theorem HasRoom.udpDeliver (h : HasRoom port s) (srcIp srcPort : ℕ) (data : ℕ → Byte) (len : ℕ) :
    0 ≤ (s.udpDeliver port srcIp srcPort data len).1 := by
  have hfills := udpDeliver_fills port srcIp srcPort data len s
  generalize s.udpDeliver port srcIp srcPort data len = r at hfills ⊢
  cases hfills with
  | refused hroom => exact absurd h hroom
  | filled => exact Int.natCast_nonneg _

/-- What `udpRecv` does to the slots of a queue: it empties the first that is used. -/
inductive Empties (port : ℕ) (payload : Bool) (cap : ℕ) (s : Udp) : UdpReceived × Udp → Prop where
  | nothing (ret : ℤ) (hempty : payload = true → orderAt port s = []) :
      Empties port payload cap s (⟨ret, [], none⟩, s)
  | emptied (i : PortRef) (k : Fin 16) (hfound : s.findPort port = some i)
      (hused : ((s.ports i).q k).used = true) (hbelow : ∀ j < k, ((s.ports i).q j).used = false) :
      Empties port payload cap s
        (⟨(min cap ((s.ports i).q k).len : ℕ), (((s.ports i).q k).stored.cut cap).bytes,
          some (((s.ports i).q k).srcIp, ((s.ports i).q k).srcPort)⟩,
        s.setPort i { s.ports i with
          q := update (s.ports i).q k { (s.ports i).q k with used := false } })

theorem udpRecv_empties (port : ℕ) (payload : Bool) (cap : ℕ) (s : Udp) :
    Empties port payload cap s (s.udpRecv port payload cap) := by
  unfold udpRecv
  cases hfound : s.findPort port with
  | none => exact .nothing _ fun _ => by simp [orderAt, hfound]
  | some i =>
    cases payload with
    | false => exact .nothing _ (by simp)
    | true =>
      cases hfirst : (finRange 16).find? fun j => ((s.ports i).q j).used with
      | none =>
        simp only [hfirst]
        refine .nothing _ fun _ => ?_
        rw [orderAt_of_findPort hfound, UdpPort.ordered, Slots.inOrder, filterMap_eq_nil_iff]
        intro j hj
        have hfree := find?_eq_none.mp hfirst j hj
        simp [UdpMsg.datagram, hfree]
      | some k =>
        have hcount : (if ((s.ports i).q k).len < cap then ((s.ports i).q k).len else cap) =
            min cap ((s.ports i).q k).len := by
          split <;> omega
        -- the capacity cuts the bytes of the message
        have hcut : readFirst (min cap ((s.ports i).q k).len) ((s.ports i).q k).payload =
            (((s.ports i).q k).stored.cut cap).bytes := by
          rw [Datagram.cut, UdpMsg.stored, readFirst, readFirst, ← map_take, take_take]
        simp only [hfirst, hcount, hcut]
        refine .emptied i k hfound ?_ (Slots.eq_false_of_lt_find? hfirst)
        simpa using find?_some hfirst

/-! ## The entry of a port -/

namespace QueueStep

variable {p : UdpPort}

theorem serves_eq (h : QueueStep port i p s) (q : ℕ) : serves q p = serves q (s.ports i) := by
  simp [serves, h.used, h.port_eq]

theorem findPort_eq (h : QueueStep port i p s) (q : ℕ) :
    (s.setPort i p).findPort q = s.findPort q :=
  findPort_setPort (h.serves_eq q)

theorem bound_iff (h : QueueStep port i p s) (q : ℕ) : Bound q (s.setPort i p) ↔ Bound q s := by
  rw [Bound, Bound, h.findPort_eq]

theorem orderAt_self (h : QueueStep port i p s) : orderAt port (s.setPort i p) = p.ordered := by
  rw [orderAt_of_findPort ((h.findPort_eq port).trans h.found)]
  simp

theorem agree_of_ne (h : QueueStep port i p s) {q : ℕ} (hne : port ≠ q) :
    Agree q s (s.setPort i p) := by
  have hnot : serves q (s.ports i) = false := by
    simp [serves, (findPort_some h.found).2, hne]
  exact Agree.setPort hnot ((h.serves_eq q).trans hnot)

end QueueStep

/-- What `udpBind` can do. -/
inductive Binds (port : ℕ) (s : Udp) : ℤ × Udp → Prop where
  | refused : Binds port s (nmErr nmEfail, s)
  | already (hbound : Bound port s) : Binds port s (0, s)
  | fresh (i : PortRef) (p : UdpPort) (hzero : port ≠ 0) (hnone : s.findPort port = none)
      (hfree : (s.ports i).used = false) (hused : p.used = true) (hport : p.port = port)
      (hempty : p.queued = 0) (hfits : (s.ports i).Fits → p.Fits) :
      Binds port s (0, s.setPort i p)

theorem udpBind_spec (port : ℕ) (s : Udp) : Binds port s (s.udpBind port) := by
  unfold udpBind
  split
  · exact .refused
  · rename_i hzero
    cases hfound : s.findPort port with
    | some i => exact .already (by simp [Bound, hfound])
    | none =>
      cases hfree : (finRange 64).find? fun i => !(s.ports i).used with
      | none => exact .refused
      | some i =>
        have hunused : (s.ports i).used = false := by simpa using find?_some hfree
        refine .fresh i _ hzero hfound hunused rfl rfl ?_ (fun h => h)
        apply Slots.held_eq_zero
        intro k
        simp [UdpMsg.datagram]

/-- What `udpUnbind` can do. -/
inductive Unbinds (port : ℕ) (s : Udp) : ℤ × Udp → Prop where
  | refused (hnone : s.findPort port = none) : Unbinds port s (nmErr nmEfail, s)
  | freed (i : PortRef) (hfound : s.findPort port = some i) :
      Unbinds port s (0, s.setPort i { s.ports i with used := false })

theorem udpUnbind_spec (port : ℕ) (s : Udp) : Unbinds port s (s.udpUnbind port) := by
  unfold udpUnbind
  cases hfound : s.findPort port with
  | none => exact .refused hfound
  | some i => exact .freed i hfound

/-- No port is bound twice, so that one unbind is enough. -/
theorem Distinct.not_bound_udpUnbind (h : Distinct s) (port : ℕ) :
    ¬ Bound port (s.udpUnbind port).2 := by
  have hspec := udpUnbind_spec port s
  generalize s.udpUnbind port = r at hspec ⊢
  cases hspec with
  | refused hnone => simp [Bound, hnone]
  | freed i hfound =>
    intro hbound
    obtain ⟨hused, hport⟩ := findPort_some hfound
    obtain ⟨k, hk⟩ := Option.isSome_iff_exists.mp hbound
    obtain ⟨hkused, hkport⟩ := findPort_some hk
    have hki : k ≠ i := by
      intro hki
      subst hki
      simp at hkused
    rw [ports_setPort, update_of_ne hki] at hkused hkport
    exact hki (h k i hkused hused (hkport.trans hport.symm))

theorem Agree.udpUnbind {q : ℕ} (hne : port ≠ q) (s : Udp) : Agree q s (s.udpUnbind port).2 := by
  have hspec := udpUnbind_spec port s
  generalize s.udpUnbind port = r at hspec ⊢
  cases hspec with
  | refused hnone => exact .refl q s
  | freed i hfound =>
    apply Agree.setPort
    · simp [serves, (findPort_some hfound).2, hne]
    · simp [serves]

/-! ## What the calls do to the order of a queue -/

/-- What any call can do to the ports and the order of the queue of one port. -/
inductive OrderStep (c : UdpCall) (s : Udp) (q : ℕ) : Udp → Prop where
  | same (hopens : ¬ Opens c s q) (haccepted : acceptedBy c s q = 0)
      (hreturned : returnedBy c s q = 0) {s' : Udp} (hagree : Agree q s s') : OrderStep c s q s'
  | opened (hopens : Opens c s q) (haccepted : acceptedBy c s q = 0)
      (hreturned : returnedBy c s q = 0) {s' : Udp} (horder : orderAt q s' = []) :
      OrderStep c s q s'
  | closed (haccepted : acceptedBy c s q = 0) {s' : Udp} (hbound : ¬ Bound q s') :
      OrderStep c s q s'
  | filled (d : Datagram) (i : PortRef) (k : Fin 16) (hopens : ¬ Opens c s q)
      (haccepted : acceptedBy c s q = {d}) (hreturned : returnedBy c s q = 0) {s' : Udp}
      (hfound : s.findPort q = some i) (hfree : ((s.ports i).q k).used = false)
      (hbelow : ∀ j < k, ((s.ports i).q j).used = true)
      (horder : orderAt q s' = Slots.before (fun j => ((s.ports i).q j).datagram) k ++
        d :: Slots.behind (fun j => ((s.ports i).q j).datagram) k) : OrderStep c s q s'
  | emptied (cap : ℕ) (d : Datagram) (hopens : ¬ Opens c s q) (haccepted : acceptedBy c s q = 0)
      (hreturned : returnedBy c s q = {(cap, d.cut cap)}) {s' : Udp} (hbound : Bound q s)
      (horder : orderAt q s = d :: orderAt q s') : OrderStep c s q s'

theorem ordered_of_free {p : UdpPort} (hfree : (p.q k).used = false) :
    p.ordered = Slots.before (fun j => (p.q j).datagram) k ++
      Slots.behind (fun j => (p.q j).datagram) k := by
  have hnone : (p.q k).datagram = none := by simp [UdpMsg.datagram, hfree]
  rw [UdpPort.ordered, Slots.inOrder_eq _ k, hnone]
  rfl

theorem queuedAt_of_filled {d : Datagram} {q : ℕ} (hfound : s.findPort q = some i)
    (hfree : ((s.ports i).q k).used = false)
    (horder : orderAt q s' = Slots.before (fun j => ((s.ports i).q j).datagram) k ++
      d :: Slots.behind (fun j => ((s.ports i).q j).datagram) k) :
    queuedAt q s' = d ::ₘ queuedAt q s := by
  rw [← coe_orderAt, ← coe_orderAt, horder, orderAt_of_findPort hfound, ordered_of_free hfree]
  exact Multiset.coe_eq_coe.mpr perm_middle

theorem ordered_fill {p : UdpPort} {d : Datagram} (hmsg : msg.datagram = some d) :
    UdpPort.ordered { p with q := update p.q k msg } = Slots.before (fun j => (p.q j).datagram) k ++
        d :: Slots.behind (fun j => (p.q j).datagram) k := by
  rw [UdpPort.ordered, slots_update, Slots.inOrder_update, hmsg]
  rfl

theorem ordered_empty {p : UdpPort} (hused : (p.q k).used = true)
    (hbelow : ∀ j < k, (p.q j).used = false) :
    p.ordered = (p.q k).stored ::
      UdpPort.ordered { p with q := update p.q k { p.q k with used := false } } := by
  have hfirst : Slots.before (fun j => (p.q j).datagram) k = [] :=
    Slots.before_eq_nil fun j hj => by simp [UdpMsg.datagram, hbelow j hj]
  have hsome : (p.q k).datagram = some (p.q k).stored := by
    simp [UdpMsg.datagram, UdpMsg.stored, hused]
  rw [UdpPort.ordered, UdpPort.ordered, slots_update, Slots.inOrder_update,
    Slots.inOrder_eq _ k, hfirst, hsome]
  rfl

theorem bind_step (port : ℕ) (s : Udp) (q : ℕ) : OrderStep (.bind port) s q (s.udpBind port).2 := by
  have hspec := udpBind_spec port s
  have hopens : Opens (.bind port) s q ↔
      port = q ∧ (s.udpBind port).1 = 0 ∧ s.findPort port = none := Iff.rfl
  generalize s.udpBind port = r at hspec hopens ⊢
  cases hspec with
  | refused =>
    refine .same ?_ rfl rfl (.refl q s)
    rw [hopens]
    rintro ⟨-, hzero, -⟩
    exact absurd hzero nmErr_nmEfail_neg.ne
  | already hbound =>
    refine .same ?_ rfl rfl (.refl q s)
    rw [hopens]
    rintro ⟨-, -, hnone⟩
    simp [Bound, hnone] at hbound
  | fresh i p hzero hnone hfree hused hport hempty hfits =>
    have hold : serves q (s.ports i) = false := by simp [serves, hfree]
    by_cases hpq : port = q
    · subst hpq
      refine .opened (hopens.mpr ⟨rfl, rfl, hnone⟩) rfl rfl ?_
      cases hfound : (s.setPort i p).findPort port with
      | none => simp [orderAt, hfound]
      | some k =>
        have hki : k = i := by
          by_contra hki
          obtain ⟨hkused, hkport⟩ := findPort_some hfound
          rw [ports_setPort, update_of_ne hki] at hkused hkport
          have hserved := find?_eq_none.mp hnone k (mem_finRange k)
          simp [hkused, hkport] at hserved
        rw [← Multiset.coe_eq_zero, coe_orderAt, queuedAt_of_findPort hfound, hki]
        simpa using hempty
    · have hnew : serves q p = false := by simp [serves, hport, hpq]
      exact .same (fun h => hpq (hopens.mp h).1) rfl rfl (Agree.setPort hold hnew)

theorem not_opens {c : UdpCall} (h : ∀ port, c ≠ .bind port) {q : ℕ} : ¬ Opens c s q := by
  cases c with
  | bind port => exact absurd rfl (h port)
  | _ => exact not_false

theorem unbind_step (h : Distinct s) (port q : ℕ) :
    OrderStep (.unbind port) s q (s.udpUnbind port).2 := by
  by_cases hpq : port = q
  · subst hpq
    exact .closed rfl (h.not_bound_udpUnbind port)
  · exact .same (not_opens (by simp)) rfl rfl (Agree.udpUnbind hpq s)

/-- The call is refused, or it delivers a datagram. -/
def Carries (c : UdpCall) (s : Udp) : Prop :=
  (s.next c = s ∧ ∀ q, acceptedBy c s q = 0) ∨ ∃ dstPort srcIp srcPort data len,
      s.next c = (s.udpDeliver dstPort srcIp srcPort data len).2 ∧
        ∀ q, acceptedBy c s q = deliveredTo q dstPort srcIp srcPort data len s

theorem carries_sendto (srcPort dstIp dstPort : ℕ) (payload : Option (ℕ → Byte)) (len : ℕ)
    (s : Udp) : Carries (.sendto srcPort dstIp dstPort payload len) s := by
  cases payload with
  | none => exact .inl ⟨rfl, fun _ => rfl⟩
  | some data =>
    by_cases hlen : len = 0
    · exact .inl ⟨by rw [next, udpSendto, if_pos hlen], fun _ => if_pos hlen⟩
    · exact .inr ⟨_, _, _, _, _, by rw [next, udpSendto, if_neg hlen], fun _ => if_neg hlen⟩

theorem carries_input (srcIp : ℕ) (payload : Option (ℕ → Byte)) (len : ℕ) (s : Udp) :
    Carries (.input srcIp payload len) s := by
  cases payload with
  | none => exact .inl ⟨rfl, fun _ => rfl⟩
  | some data =>
    by_cases hshort : len < 8
    · exact .inl ⟨by rw [next, udpInput, if_pos hshort], fun _ => if_pos (.inl hshort)⟩
    · by_cases hbad : field16 data 4 < 8 ∨ field16 data 4 > len
      · exact .inl ⟨by rw [next, udpInput, if_neg hshort, if_pos hbad], fun _ => if_pos (.inr hbad)⟩
      · exact .inr ⟨_, _, _, _, _, by rw [next, udpInput, if_neg hshort, if_neg hbad],
          fun _ => if_neg (not_or.mpr ⟨hshort, hbad⟩)⟩

theorem deliver_step {c : UdpCall} {q dstPort srcIp srcPort len : ℕ} {data : ℕ → Byte}
    (hopens : ¬ Opens c s q) (hreturned : returnedBy c s q = 0)
    (haccepted : acceptedBy c s q = deliveredTo q dstPort srcIp srcPort data len s) :
    OrderStep c s q (s.udpDeliver dstPort srcIp srcPort data len).2 := by
  have hspec := udpDeliver_fills dstPort srcIp srcPort data len s
  rw [deliveredTo] at haccepted
  generalize s.udpDeliver dstPort srcIp srcPort data len = r at hspec haccepted ⊢
  cases hspec with
  | refused hroom =>
    refine .same hopens ?_ hreturned (.refl q s)
    rw [haccepted, if_neg]
    rintro ⟨-, hret⟩
    exact absurd hret nmErr_nmEfail_neg.not_ge
  | filled i k msg hfound hfree hbelow hlen hmsg =>
    have hstep := queueStep_update hfound k fun _ => hlen
    by_cases hdq : dstPort = q
    · subst hdq
      refine .filled ⟨srcIp, srcPort, kept data len⟩ i k hopens ?_ hreturned hfound hfree hbelow ?_
      · rw [haccepted, if_pos ⟨rfl, Int.natCast_nonneg _⟩]
      · rw [hstep.orderAt_self, ordered_fill hmsg]
    · refine .same hopens ?_ hreturned (hstep.agree_of_ne hdq)
      rw [haccepted, if_neg fun hboth => hdq hboth.1]

theorem Carries.step {c : UdpCall} (h : Carries c s) {q : ℕ} (hopens : ¬ Opens c s q)
    (hreturned : returnedBy c s q = 0) : OrderStep c s q (s.next c) := by
  obtain ⟨hsame, hnone⟩ | ⟨dstPort, srcIp, srcPort, data, len, hnext, haccepted⟩ := h
  · rw [hsame]
    exact .same hopens (hnone q) hreturned (.refl q s)
  · rw [hnext]
    exact deliver_step hopens hreturned (haccepted q)

/-- A receive hands out the first datagram of its port, if there is one. -/
theorem recv_front (port : ℕ) (payload : Bool) (cap : ℕ) (s : Udp) :
    (returnedBy (.recv port payload cap) s port = 0 ∧ s.next (.recv port payload cap) = s ∧
        (payload = true → orderAt port s = [])) ∨
      ∃ d, returnedBy (.recv port payload cap) s port = {(cap, d.cut cap)} ∧ Bound port s ∧
        orderAt port s = d :: orderAt port (s.next (.recv port payload cap)) := by
  have hspec := udpRecv_empties port payload cap s
  rw [returnedBy, returns, next]
  generalize s.udpRecv port payload cap = r at hspec ⊢
  cases hspec with
  | nothing ret hempty => exact .inl ⟨rfl, rfl, hempty⟩
  | emptied i k hfound hused hbelow =>
    dsimp only
    rw [if_pos rfl]
    refine .inr ⟨((s.ports i).q k).stored, rfl, by simp [Bound, hfound], ?_⟩
    rw [(queueStep_empty hfound k).orderAt_self, orderAt_of_findPort hfound]
    exact ordered_empty hused hbelow

theorem recv_other {q : ℕ} (hne : port ≠ q) (payload : Bool) (cap : ℕ) (s : Udp) :
    returnedBy (.recv port payload cap) s q = 0 ∧ Agree q s (s.next (.recv port payload cap)) := by
  have hspec := udpRecv_empties port payload cap s
  rw [returnedBy, returns, next]
  generalize s.udpRecv port payload cap = r at hspec ⊢
  cases hspec with
  | nothing ret hempty => exact ⟨rfl, rfl, fun _ _ => rfl⟩
  | emptied i k hfound hused hbelow =>
    exact ⟨congrArg (Option.elim · 0 singleton) (if_neg hne),
      (queueStep_empty hfound k).agree_of_ne hne⟩

theorem recv_step (port : ℕ) (payload : Bool) (cap : ℕ) (s : Udp) (q : ℕ) :
    OrderStep (.recv port payload cap) s q (s.next (.recv port payload cap)) := by
  by_cases hpq : port = q
  · subst hpq
    obtain ⟨hreturned, hsame, -⟩ | ⟨d, hreturned, hbound, horder⟩ := recv_front port payload cap s
    · rw [hsame]
      exact .same (not_opens (by simp)) rfl hreturned (.refl _ s)
    · exact .emptied cap d (not_opens (by simp)) rfl hreturned hbound horder
  · obtain ⟨hreturned, hagree⟩ := recv_other hpq payload cap s
    exact .same (not_opens (by simp)) rfl hreturned hagree

/-- The tables differ in the queue of one entry at most. -/
def Queued (s s' : Udp) : Prop := s' = s ∨ ∃ port i p, QueueStep port i p s ∧ s' = s.setPort i p

theorem Carries.queued {c : UdpCall} (h : Carries c s) : Queued s (s.next c) := by
  obtain ⟨hsame, -⟩ | ⟨dstPort, srcIp, srcPort, data, len, hnext, -⟩ := h
  · exact .inl hsame
  · have hfills := udpDeliver_fills dstPort srcIp srcPort data len s
    rw [hnext]
    generalize s.udpDeliver dstPort srcIp srcPort data len = r at hfills ⊢
    cases hfills with
    | refused hroom => exact .inl rfl
    | filled i k msg hfound hfree hbelow hlen hmsg =>
      exact .inr ⟨_, _, _, queueStep_update hfound k fun _ => hlen, rfl⟩

theorem queued_recv (port : ℕ) (payload : Bool) (cap : ℕ) (s : Udp) :
    Queued s (s.udpRecv port payload cap).2 := by
  have hempties := udpRecv_empties port payload cap s
  generalize s.udpRecv port payload cap = r at hempties ⊢
  cases hempties with
  | nothing ret hempty => exact .inl rfl
  | emptied i k hfound hused hbelow => exact .inr ⟨_, _, _, queueStep_empty hfound k, rfl⟩

theorem Queued.bound_iff (h : Queued s s') (q : ℕ) : Bound q s' ↔ Bound q s := by
  obtain rfl | ⟨port, i, p, hstep, rfl⟩ := h
  · rfl
  · exact hstep.bound_iff q

theorem order_step (h : Distinct s) (c : UdpCall) (q : ℕ) : OrderStep c s q (s.next c) := by
  cases c with
  | bind port => exact bind_step port s q
  | unbind port => exact unbind_step h port q
  | sendto srcPort dstIp dstPort payload len =>
    exact (carries_sendto _ _ _ payload len s).step (not_opens (by simp)) rfl
  | input srcIp payload len =>
    exact (carries_input srcIp payload len s).step (not_opens (by simp)) rfl
  | recv port payload cap => exact recv_step port payload cap s q

end Udp

end NeverMind
