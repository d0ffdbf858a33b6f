import NeverMind.Model.Tcp

/-! # What the TCP calls change

`SlotStep` lists everything that a call can do to one slot of the connection table. -/

namespace NeverMind

open Option Function

/-- The calls of `tcp.c`. -/
inductive TcpCall where
  | listen (port : ℕ)
  | connect (dstIp dstPort srcPort : ℕ)
  | accept (port : ℕ)
  | send (id : ℤ) (payload : Option (ℕ → Byte)) (len : ℕ)
  | recv (id : ℤ) (payload : Bool) (cap : ℕ)
  | close (id : ℤ)

def TcpCall.opens : TcpCall → Bool
  | .listen _ => true
  | .connect _ _ _ => true
  | _ => false

namespace Tcp

variable {s s' : Tcp} {i j : ConnRef} {id : ℤ}

@[simp] theorem conns_setConn (i : ConnRef) (c : TcpConn) (s : Tcp) :
    (s.setConn i c).conns = update s.conns i c :=
  rfl

/-- The result of a call, with the bytes it returns, and the table it leaves. -/
def call (c : TcpCall) (s : Tcp) : (ℤ × List Byte) × Tcp :=
  match c with
  | .listen port => (((s.tcpListen port).1, []), (s.tcpListen port).2)
  | .connect dstIp dstPort srcPort =>
    (((s.tcpConnect dstIp dstPort srcPort).1, []), (s.tcpConnect dstIp dstPort srcPort).2)
  | .accept port => (((s.tcpAccept port).1, []), (s.tcpAccept port).2)
  | .send id payload len => (((s.tcpSend id payload len).1, []), (s.tcpSend id payload len).2)
  | .recv id payload cap => s.tcpRecv id payload cap
  | .close id => (((s.tcpClose id).1, []), (s.tcpClose id).2)

def pending (c : TcpConn) : List Byte := readFirst c.rxLen c.rxBuf

theorem pending_of_rxLen {c : TcpConn} (h : c.rxLen = 0) : pending c = [] := by
  rw [pending, h, readFirst_zero]

theorem findById_some (h : s.findById id = some i) :
    (s.conns i).used = true ∧ (s.conns i).id = id := by
  have hfound := List.find?_some h
  simpa using hfound

def sendCount (len : ℕ) : ℕ := if len > tcpBufMax then tcpBufMax else len

theorem sendCount_le (len : ℕ) : sendCount len ≤ 2048 := by
  unfold sendCount tcpBufMax
  split <;> omega

/-- A send that succeeds: both ends are open and there is something to send. -/
structure Sends (id : ℤ) (payload : Option (ℕ → Byte)) (len : ℕ) (data : ℕ → Byte)
    (c peer : ConnRef) (s : Tcp) : Prop where
  data : payload = some data
  len : len ≠ 0
  found : s.findById id = some c
  open_end : (s.conns c).state = .established
  peer_found : s.findById (s.conns c).peerId = some peer
  open_peer : (s.conns peer).state = .established

def fill (data : ℕ → Byte) (len : ℕ) (c : TcpConn) : TcpConn :=
  { c with rxBuf := copyFirst (sendCount len) data c.rxBuf, rxLen := sendCount len }

theorem pending_fill (data : ℕ → Byte) (len : ℕ) (c : TcpConn) :
    pending (fill data len c) = (List.range (sendCount len)).map data :=
  readFirst_copyFirst (sendCount_le len) data c.rxBuf

theorem tcpSend_spec (id : ℤ) (payload : Option (ℕ → Byte)) (len : ℕ) (s : Tcp) :
    (s.tcpSend id payload len = (nmErr nmEfail, s) ∧
        ∀ data c peer, ¬ Sends id payload len data c peer s) ∨
      ∃ data c peer, Sends id payload len data c peer s ∧ s.tcpSend id payload len =
          ((sendCount len : ℤ), s.setConn peer (fill data len (s.conns peer))) := by
  unfold tcpSend
  split
  · rename_i c data hfound
    split
    · rename_i hbad
      refine .inl ⟨rfl, fun data' c' peer hsends => ?_⟩
      have hc : c' = c := some.inj (hsends.found.symm.trans hfound)
      subst hc
      exact hbad.elim (fun h => h hsends.open_end) hsends.len
    · rename_i hgood
      rw [not_or, not_not] at hgood
      split
      · rename_i hnone
        refine .inl ⟨rfl, fun data' c' peer hsends => ?_⟩
        have hc : c' = c := some.inj (hsends.found.symm.trans hfound)
        subst hc
        have hpeer := hsends.peer_found
        rw [hnone] at hpeer
        cases hpeer
      · rename_i peer hpeer
        split
        · rename_i hclosed
          refine .inl ⟨rfl, fun data' c' peer' hsends => ?_⟩
          have hc : c' = c := some.inj (hsends.found.symm.trans hfound)
          subst hc
          have hp : peer' = peer := some.inj (hsends.peer_found.symm.trans hpeer)
          subst hp
          exact hclosed hsends.open_peer
        · rename_i hopen
          exact .inr ⟨data, c, peer, ⟨rfl, hgood.2, hfound, hgood.1, hpeer, not_not.mp hopen⟩, rfl⟩
  · rename_i hnone
    refine .inl ⟨rfl, fun data c peer hsends => ?_⟩
    exact hnone c data hsends.found hsends.data

/-- A receive that takes something. -/
structure Receives (id : ℤ) (payload : Bool) (c : ConnRef) (s : Tcp) : Prop where
  buffer : payload = true
  found : s.findById id = some c
  open_end : (s.conns c).state = .established
  waiting : (s.conns c).rxLen ≠ 0

theorem tcpRecv_spec (id : ℤ) (payload : Bool) (cap : ℕ) (s : Tcp) :
    ((s.tcpRecv id payload cap).1.2 = [] ∧ (s.tcpRecv id payload cap).2 = s ∧
        ∀ c, ¬ Receives id payload c s) ∨
      ∃ c, Receives id payload c s ∧
        (s.tcpRecv id payload cap).1.2 = (pending (s.conns c)).take cap ∧
        (s.tcpRecv id payload cap).2 = s.setConn c { s.conns c with rxLen := 0 } := by
  unfold tcpRecv
  split
  · rename_i hnone
    refine .inl ⟨rfl, rfl, fun c hreceives => ?_⟩
    have hfound := hreceives.found
    rw [hnone] at hfound
    cases hfound
  · rename_i c hfound
    have hsame : ∀ c', Receives id payload c' s → c' = c := fun c' hreceives =>
      some.inj (hreceives.found.symm.trans hfound)
    split
    · rename_i hbad
      refine .inl ⟨rfl, rfl, fun c' hreceives => ?_⟩
      have hc := hsame c' hreceives
      subst hc
      rw [hreceives.buffer] at hbad
      exact hbad.elim (fun h => h hreceives.open_end) (fun h => by cases h)
    · rename_i hgood
      rw [not_or, not_not, Bool.not_eq_false] at hgood
      split
      · rename_i hempty
        refine .inl ⟨rfl, rfl, fun c' hreceives => ?_⟩
        have hc := hsame c' hreceives
        subst hc
        exact hreceives.waiting hempty
      · rename_i hwaiting
        refine .inr ⟨c, ⟨hgood.2, hfound, hgood.1, hwaiting⟩, ?_, rfl⟩
        dsimp only [pending]
        split
        · rename_i hlt
          rw [List.take_of_length_le]
          simp [readFirst]
          omega
        · next hge => exact (take_readFirst (by omega) _).symm

/-! ## New connections -/

def opened (id : ℤ) (c : TcpConn) : TcpConn :=
  { c with used := true, id := id, state := .closed, peerId := -1, rxLen := 0 }

theorem allocConn_spec (s : Tcp) :
    s.allocConn = (none, s) ∨ ∃ i, (s.conns i).used = false ∧
        s.allocConn = (some i, { s.setConn i (opened s.nextId (s.conns i)) with
          nextId := i32 (s.nextId + 1) }) := by
  unfold allocConn
  split
  · exact .inl rfl
  · rename_i i hfound
    have hfree := List.find?_some hfound
    exact .inr ⟨i, by simpa using hfree, rfl⟩

theorem used_of_allocConn (h : s.allocConn = (none, s)) (i : ConnRef) :
    (s.conns i).used = true := by
  unfold allocConn at h
  split at h
  · next hnone => simpa using List.find?_eq_none.mp hnone i (List.mem_finRange i)
  · cases h

def client (dstIp dstPort srcPort : ℕ) (id peerId : ℤ) (c : TcpConn) : TcpConn :=
  { opened id c with
    state := .established, localIp := 0, peerIp := dstIp, peerPort := dstPort, localPort := srcPort
    peerId := peerId }

def server (dstIp dstPort srcPort : ℕ) (id peerId : ℤ) (c : TcpConn) : TcpConn :=
  { opened id c with
    state := .synRecv, localIp := dstIp, localPort := dstPort, peerIp := dstIp, peerPort := srcPort
    peerId := peerId }

theorem join_opened (dstIp dstPort srcPort : ℕ) (hne : i ≠ j) (first second next : ℤ) :
    join dstIp dstPort srcPort i j
        { (s.setConn i (opened first (s.conns i))).setConn j (opened second (s.conns j)) with
          nextId := next } =
      { (s.setConn i (client dstIp dstPort srcPort first second (s.conns i))).setConn j
          (server dstIp dstPort srcPort second first (s.conns j)) with nextId := next } := by
  simp only [join, setConn, Tcp.mk.injEq, and_true]
  funext k
  by_cases hkj : k = j
  · subst hkj
    simp [hne, hne.symm, server, opened]
  · by_cases hki : k = i
    · subst hki
      simp [hne, hne.symm, client, opened]
    · simp [hkj, hki]

def taken (c : TcpCall) (s : Tcp) : ℕ :=
  match c with
  | .listen _ => s.allocConn.1.isSome.toNat
  | .connect _ dstPort _ =>
    if s.findListener dstPort = none then 0
    else s.allocConn.1.isSome.toNat + s.allocConn.2.allocConn.1.isSome.toNat
  | _ => 0

/-- What a connection needs: a listener, and a free slot for each end. -/
def CanConnect (dstPort : ℕ) (s : Tcp) : Prop :=
  (s.findListener dstPort).isSome ∧
    ∃ i j, i ≠ j ∧ (s.conns i).used = false ∧ (s.conns j).used = false

/-- The ways a connect can end. -/
inductive ConnectEnds (dstIp dstPort srcPort : ℕ) (s : Tcp) : ℤ × Tcp → ℕ → Prop where
  | refused (hcannot : ¬ CanConnect dstPort s) :
      ConnectEnds dstIp dstPort srcPort s (nmErr nmEfail, s) 0
  | rolledBack (hcannot : ¬ CanConnect dstPort s) (i : ConnRef)
      (hfree : (s.conns i).used = false) (c : TcpConn) (hunused : c.used = false) :
      ConnectEnds dstIp dstPort srcPort s
        (nmErr nmEfail, { s.setConn i c with nextId := i32 (s.nextId + 1) }) 1
  | joined (l i j : ConnRef) (hl : s.findListener dstPort = some l) (hne : i ≠ j)
      (hi : (s.conns i).used = false) (hj : (s.conns j).used = false) (first second : ℤ)
      (hfirst : first = s.nextId) (hsecond : second = i32 (s.nextId + 1)) :
      ConnectEnds dstIp dstPort srcPort s
        (first, { (s.setConn i (client dstIp dstPort srcPort first second (s.conns i))).setConn j
            (server dstIp dstPort srcPort second first (s.conns j)) with
          nextId := i32 (second + 1) }) 2

def withFirst (i : ConnRef) (s : Tcp) : Tcp :=
  { s.setConn i (opened s.nextId (s.conns i)) with nextId := i32 (s.nextId + 1) }

theorem rollback_withFirst (i : ConnRef) (s : Tcp) :
    rollback none (rollback (some i) (s.withFirst i)) =
      { s.setConn i { opened s.nextId (s.conns i) with used := false } with
        nextId := i32 (s.nextId + 1) } := by
  simp [withFirst, rollback, setConn, opened]

/-- The second slot is another one, and was free before. -/
theorem allocConn_withFirst (i : ConnRef) (s : Tcp) :
    (s.withFirst i).allocConn = (none, s.withFirst i) ∨ ∃ j, i ≠ j ∧ (s.conns j).used = false ∧
        (s.withFirst i).allocConn = (some j, { (s.setConn i (opened s.nextId (s.conns i))).setConn j
              (opened (i32 (s.nextId + 1)) (s.conns j)) with
            nextId := i32 (i32 (s.nextId + 1) + 1) }) := by
  obtain hfull | ⟨j, hj, hrun⟩ := allocConn_spec (s.withFirst i)
  · exact .inl hfull
  · have hne : i ≠ j := by
      rintro rfl
      simp [withFirst, opened] at hj
    refine .inr ⟨j, hne, ?_, ?_⟩
    · simpa [withFirst, hne.symm] using hj
    · rw [hrun]
      simp [withFirst, setConn, hne.symm]

theorem not_canConnect_withFirst {dstPort : ℕ}
    (hfull : (s.withFirst i).allocConn = (none, s.withFirst i)) : ¬ CanConnect dstPort s := by
  rintro ⟨-, k, k', hne, hk, hk'⟩
  have honly : ∀ k, (s.conns k).used = false → k = i := by
    intro k hk
    by_contra hki
    have hused := used_of_allocConn hfull k
    simp [withFirst, hki, hk] at hused
  exact hne ((honly k hk).trans (honly k' hk').symm)

theorem tcpConnect_ends (dstIp dstPort srcPort : ℕ) (s : Tcp) :
    ConnectEnds dstIp dstPort srcPort s (s.tcpConnect dstIp dstPort srcPort)
      (taken (.connect dstIp dstPort srcPort) s) := by
  unfold tcpConnect taken
  dsimp only
  cases hl : s.findListener dstPort with
  | none =>
    refine .refused fun hcan => ?_
    simpa [hl] using hcan.1
  | some l =>
    rw [if_neg (some_ne_none l)]
    cases allocConn_spec s with
    | inl hfull =>
      rw [hfull]
      dsimp only
      rw [hfull]
      refine .refused ?_
      rintro ⟨-, k, -, -, hk, -⟩
      rw [used_of_allocConn hfull k] at hk
      cases hk
    | inr halloc =>
      obtain ⟨i, hi, hrun⟩ := halloc
      have hfirst : s.allocConn = (some i, s.withFirst i) := hrun
      rw [hfirst]
      dsimp only
      cases allocConn_withFirst i s with
      | inl hfull =>
        rw [hfull]
        dsimp only
        rw [rollback_withFirst]
        exact .rolledBack (not_canConnect_withFirst hfull) i hi _ rfl
      | inr halloc₂ =>
        obtain ⟨j, hne, hj, hrun₂⟩ := halloc₂
        rw [hrun₂]
        dsimp only
        rw [join_opened dstIp dstPort srcPort hne]
        have hid : (((s.setConn i (client dstIp dstPort srcPort s.nextId
            (i32 (s.nextId + 1)) (s.conns i))).setConn j (server dstIp dstPort srcPort
            (i32 (s.nextId + 1)) s.nextId (s.conns j))).conns i).id = s.nextId := by
          simp [hne, client, opened]
        rw [hid]
        exact .joined l i j hl hne hi hj _ _ rfl rfl

/-! ## One slot -/

/-- What a call can do to a slot. -/
inductive SlotStep (c : TcpCall) (s : Tcp) (i : ConnRef) : TcpConn → Prop where
  | kept : SlotStep c s i (s.conns i)
  | taken (conn : TcpConn) (hcall : c.opens = true) (hfree : (s.conns i).used = false)
      (hempty : conn.used = true → conn.rxLen = 0) : SlotStep c s i conn
  | accepted (hstate : (s.conns i).state = .synRecv) :
      SlotStep c s i { s.conns i with state := .established }
  | filled (id : ℤ) (payload : Option (ℕ → Byte)) (len : ℕ) (data : ℕ → Byte) (from_ : ConnRef)
      (hcall : c = .send id payload len) (hsends : Sends id payload len data from_ i s) :
      SlotStep c s i (fill data len (s.conns i))
  | drained (id : ℤ) (payload : Bool) (cap : ℕ) (hcall : c = .recv id payload cap)
      (hreceives : Receives id payload i s) : SlotStep c s i { s.conns i with rxLen := 0 }
  | closed (id : ℤ) (hcall : c = .close id) (hfound : s.findById id = some i) :
      SlotStep c s i { s.conns i with used := false }

theorem SlotStep.of_setConn {c : TcpCall} {conn : TcpConn} (hj : SlotStep c s j conn)
    (i : ConnRef) : SlotStep c s i ((s.setConn j conn).conns i) := by
  by_cases hij : i = j
  · subst hij
    rw [conns_setConn, update_self]
    exact hj
  · rw [conns_setConn, update_of_ne hij]
    exact .kept

theorem tcpListen_slot (port : ℕ) (s : Tcp) (i : ConnRef) :
    SlotStep (.listen port) s i ((s.tcpListen port).2.conns i) := by
  unfold tcpListen
  cases allocConn_spec s with
  | inl hfull =>
    rw [hfull]
    exact .kept
  | inr halloc =>
    obtain ⟨j, hfree, hrun⟩ := halloc
    rw [hrun]
    dsimp only [setConn]
    rw [update_idem, update_self]
    exact SlotStep.of_setConn (.taken _ rfl hfree fun _ => rfl) i

theorem tcpConnect_slot (dstIp dstPort srcPort : ℕ) (s : Tcp) (i : ConnRef) :
    SlotStep (.connect dstIp dstPort srcPort) s i
      ((s.tcpConnect dstIp dstPort srcPort).2.conns i) := by
  have hends := tcpConnect_ends dstIp dstPort srcPort s
  generalize s.tcpConnect dstIp dstPort srcPort = r at hends ⊢
  generalize taken (.connect dstIp dstPort srcPort) s = n at hends
  cases hends with
  | refused _ => exact .kept
  | rolledBack _ j hfree conn hunused =>
    exact SlotStep.of_setConn (.taken conn rfl hfree fun hused => by simp [hunused] at hused) i
  | joined _ cli srv _ hne hcli hsrv first second _ _ =>
    by_cases hi : i = srv
    · subst hi
      dsimp only [setConn]
      rw [update_self]
      exact .taken _ rfl hsrv fun _ => rfl
    · dsimp only [setConn]
      rw [update_of_ne hi]
      exact SlotStep.of_setConn (.taken _ rfl hcli fun _ => rfl) i

theorem call_slot (c : TcpCall) (s : Tcp) (i : ConnRef) :
    SlotStep c s i ((s.call c).2.conns i) := by
  cases c with
  | listen port => exact tcpListen_slot port s i
  | connect dstIp dstPort srcPort => exact tcpConnect_slot dstIp dstPort srcPort s i
  | accept port =>
    simp only [call, tcpAccept]
    split
    · exact .kept
    · rename_i j hfound
      have htest := List.find?_some hfound
      simp only [Bool.and_eq_true, beq_iff_eq] at htest
      exact SlotStep.of_setConn (.accepted htest.1.2) i
  | send id payload len =>
    simp only [call]
    cases tcpSend_spec id payload len s with
    | inl hfail =>
      rw [hfail.1]
      exact .kept
    | inr hsend =>
      obtain ⟨data, from_, peer, hsends, hrun⟩ := hsend
      rw [hrun]
      exact SlotStep.of_setConn (.filled id payload len data from_ rfl hsends) i
  | recv id payload cap =>
    simp only [call]
    cases tcpRecv_spec id payload cap s with
    | inl hfail =>
      rw [hfail.2.1]
      exact .kept
    | inr hrecv =>
      obtain ⟨j, hreceives, -, hrun⟩ := hrecv
      rw [hrun]
      exact SlotStep.of_setConn (.drained id payload cap rfl hreceives) i
  | close id =>
    simp only [call, tcpClose]
    split
    · exact .kept
    · next j hfound => exact SlotStep.of_setConn (.closed id rfl hfound) i

theorem nextId_call {c : TcpCall} (h : c.opens = false) (s : Tcp) :
    (s.call c).2.nextId = s.nextId := by
  cases c with
  | listen => cases h
  | connect => cases h
  | accept port =>
    simp only [call, tcpAccept]
    split <;> rfl
  | send id payload len =>
    simp only [call]
    cases tcpSend_spec id payload len s with
    | inl hfail => rw [hfail.1]
    | inr hsend =>
      obtain ⟨data, from_, peer, -, hrun⟩ := hsend
      rw [hrun]
      rfl
  | recv id payload cap =>
    simp only [call]
    cases tcpRecv_spec id payload cap s with
    | inl hfail => rw [hfail.2.1]
    | inr hrecv =>
      obtain ⟨j, -, -, hrun⟩ := hrecv
      rw [hrun]
      rfl
  | close id =>
    simp only [call, tcpClose]
    split <;> rfl

end Tcp

end NeverMind
