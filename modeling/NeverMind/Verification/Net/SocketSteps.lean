import NeverMind.Model.Socket
import NeverMind.Verification.Net.TcpCalls
import NeverMind.Verification.Net.UdpQueues

/-! # What a socket call does

Each call of `socket.c` is refused without effect, or has one of a few effects on the socket
table and the protocols. The invariants of the socket layer are read off these effects. -/

namespace NeverMind

open Option

/-! ## Ports in use -/

namespace Udp

variable {s : Udp} {q port : ℕ}

/-- The port is bound already, or an entry is free for it. -/
def CanBind (port : ℕ) (s : Udp) : Prop := port ≠ 0 ∧ (Bound port s ∨ ∃ i, (s.ports i).used = false)

theorem udpBind_eq_zero_iff : (s.udpBind port).1 = 0 ↔ CanBind port s := by
  unfold udpBind CanBind
  by_cases hzero : port = 0
  · simp [hzero, nmErr_nmEfail_neg.ne]
  · rw [if_neg hzero]
    cases hfound : s.findPort port with
    | some i => simp [hzero, Bound, hfound]
    | none =>
      cases hfree : (List.finRange 64).find? fun i => !(s.ports i).used with
      | none =>
        have hfull (i : PortRef) : (s.ports i).used = true := by
          simpa using List.find?_eq_none.mp hfree i (List.mem_finRange i)
        simp [Bound, hfound, hfull, nmErr_nmEfail_neg.ne]
      | some i =>
        have hunused : (s.ports i).used = false := by simpa using List.find?_some hfree
        simp only [true_iff]
        exact ⟨hzero, .inr ⟨i, hunused⟩⟩

theorem udpBind_failed (hret : (s.udpBind port).1 ≠ 0) : (s.udpBind port).2 = s := by
  have hspec := udpBind_spec port s
  generalize s.udpBind port = r at hspec hret ⊢
  cases hspec with
  | refused => rfl
  | already hbound => rfl
  | fresh => exact absurd rfl hret

end Udp

/-- The calls of `socket.c`, and the arrival of a packet. -/
inductive NetCall where
  | socket (domain type protocol : ℤ)
  | bind (fd : ℤ) (addr : Option SockAddr)
  | listen (fd : ℤ)
  | accept (fd : ℤ)
  | connect (fd : ℤ) (addr : Option SockAddr)
  | sendto (fd : ℤ) (buf : Option (ℕ → Byte)) (len : ℕ) (addr : Option SockAddr)
  | recvfrom (fd : ℤ) (buf : Bool) (len : ℕ)
  | closeSocket (fd : ℤ)
  | arrival (srcIp : ℕ) (payload : Option (ℕ → Byte)) (len : ℕ)

namespace Net

variable {s s' : Net} {i j : SockRef} {fd : ℤ}

def next (c : NetCall) (s : Net) : Net :=
  match c with
  | .socket domain type protocol => (s.nmSocket domain type protocol).2
  | .bind fd addr => (s.nmBind fd addr).2
  | .listen fd => (s.nmListen fd).2
  | .accept fd => (s.nmAccept fd).2
  | .connect fd addr => (s.nmConnect fd addr).2
  | .sendto fd buf len addr => (s.nmSendto fd buf len addr).2
  | .recvfrom fd buf len => (s.nmRecvfrom fd buf len).2
  | .closeSocket fd => (s.nmCloseSocket fd).2
  | .arrival srcIp payload len => { s with udp := s.udp.udpInput srcIp payload len }

/-- The states reached by any calls. -/
inductive Reached : Net → Prop where
  | start : Reached Net.atStart
  | step {s : Net} (h : Reached s) (c : NetCall) : Reached (s.next c)

/-! ## Tables -/

@[simp] theorem udp_setSock (i : SockRef) (e : SocketEntry) (s : Net) :
    (s.setSock i e).udp = s.udp :=
  rfl

@[simp] theorem socks_setSock (i : SockRef) (e : SocketEntry) (s : Net) :
    (s.setSock i e).socks = Function.update s.socks i e :=
  rfl

@[simp] theorem tcp_setSock (i : SockRef) (e : SocketEntry) (s : Net) :
    (s.setSock i e).tcp = s.tcp :=
  rfl

@[simp] theorem ephPort_setSock (i : SockRef) (e : SocketEntry) (s : Net) :
    (s.setSock i e).ephPort = s.ephPort :=
  rfl

theorem setSock_self (i : SockRef) (s : Net) : s.setSock i (s.socks i) = s := by
  rw [setSock, Function.update_eq_self]

theorem setSock_setSock (i : SockRef) (e e' : SocketEntry) (s : Net) :
    (s.setSock i e).setSock i e' = s.setSock i e' := by
  simp [setSock]

theorem getSock_val (h : (s.socks i).used = true) : s.getSock i.val = some i := by
  have hrange : (0 : ℤ) ≤ (i.val : ℤ) ∧ (i.val : ℤ) < 64 := by omega
  simp [getSock, hrange, h]

theorem getSock_eq_some : s.getSock fd = some i ↔ fd = (i.val : ℤ) ∧ (s.socks i).used = true := by
  constructor
  · intro h
    unfold getSock at h
    split at h
    · rename_i hrange
      dsimp only at h
      split at h
      · rename_i hused
        obtain rfl := some.inj h
        exact ⟨by simp only; omega, hused⟩
      · cases h
    · cases h
  · rintro ⟨rfl, hused⟩
    exact getSock_val hused

/-- A lookup depends on the entries in use only. -/
theorem getSock_of_used (hused : (s'.socks i).used = true) (h : s.getSock fd = some i) :
    s'.getSock fd = some i :=
  getSock_eq_some.mpr ⟨(getSock_eq_some.mp h).1, hused⟩

def newEntry (type : SockType) (protocol : ℤ) : SocketEntry :=
  ⟨true, type, protocol, 0, 0, 0, -1, false⟩

theorem allocSocketUnlocked_spec (type : SockType) (protocol : ℤ) (s : Net) :
    s.allocSocketUnlocked type protocol = (none, s) ∨ ∃ i, (s.socks i).used = false ∧
        s.allocSocketUnlocked type protocol = (some i, s.setSock i (newEntry type protocol)) := by
  unfold allocSocketUnlocked
  cases hfind : (List.finRange 64).find? fun i => !(s.socks i).used with
  | none => exact .inl rfl
  | some i => exact .inr ⟨i, by simpa using List.find?_some hfind, rfl⟩

/-! ## Effects -/

/-- The call gives socket `i` the next ephemeral port. -/
def Assigns (c : NetCall) (s : Net) (i : SockRef) : Prop :=
  match c with
  | .connect fd addr =>
    s.getSock fd = some i ∧ addr.isSome ∧ (s.socks i).type = .stream ∧ (s.socks i).localPort = 0
  | .sendto fd buf len addr =>
    s.getSock fd = some i ∧ buf.isSome ∧ len ≠ 0 ∧ addr.isSome ∧ (s.socks i).type = .dgram ∧
      (s.socks i).localPort = 0
  | _ => False

/-- The call binds datagram socket `i` to a port. -/
def BindsDgram (c : NetCall) (s : Net) (i : SockRef) (port : ℕ) : Prop :=
  match c with
  | .bind fd (some addr) =>
    s.getSock fd = some i ∧ addr.sinFamily = nmAfInet ∧ (s.socks i).type = .dgram ∧
      addr.sinPort = port ∧ s.udp.CanBind port
  | _ => False

def Closes (c : NetCall) (s : Net) (i : SockRef) : Prop :=
  match c with
  | .closeSocket fd => s.getSock fd = some i
  | _ => False

/-- The call gives stream socket `i` a connection: a listen needs a free slot, a connect needs
a listener and two. -/
def Attaches (c : NetCall) (s : Net) (i : SockRef) : Prop :=
  match c with
  | .listen fd =>
    s.getSock fd = some i ∧ (s.socks i).type = .stream ∧ (s.socks i).localPort ≠ 0 ∧
      ∃ k, (s.tcp.conns k).used = false
  | .connect fd (some addr) =>
    s.getSock fd = some i ∧ (s.socks i).type = .stream ∧ s.tcp.CanConnect addr.sinPort
  | _ => False

/-- What a call can do. -/
inductive Effect (s : Net) : NetCall → Net → Prop where
  /-- The call is refused, and does none of what it could have done. -/
  | refused {c : NetCall} (hassigns : ∀ i, ¬ Assigns c s i)
      (hbinds : ∀ i port, ¬ BindsDgram c s i port) (hcloses : ∀ i, ¬ Closes c s i)
      (hattaches : ∀ i, ¬ Attaches c s i) : Effect s c s
  | opened {i : SockRef} {domain type protocol : ℤ} {t : SockType}
      (hfree : (s.socks i).used = false) :
      Effect s (.socket domain type protocol) (s.setSock i (newEntry t protocol))
  | boundStream {fd : ℤ} {i : SockRef} {addr : SockAddr} (hget : s.getSock fd = some i)
      (htype : (s.socks i).type = .stream) :
      Effect s (.bind fd (some addr)) (s.setSock i { s.socks i with localPort := addr.sinPort })
  | boundDgram {fd : ℤ} {i : SockRef} {addr : SockAddr}
      (hbinds : BindsDgram (.bind fd (some addr)) s i addr.sinPort) :
      Effect s (.bind fd (some addr))
        { s.setSock i { s.socks i with localPort := addr.sinPort } with
          udp := (s.udp.udpBind addr.sinPort).2 }
  | listenFailed {fd : ℤ} {i : SockRef} (hget : s.getSock fd = some i)
      (hret : (s.tcp.tcpListen (s.socks i).localPort).1 < 0) :
      Effect s (.listen fd) { s with tcp := (s.tcp.tcpListen (s.socks i).localPort).2 }
  | listened {fd : ℤ} {i : SockRef} (hget : s.getSock fd = some i)
      (htype : (s.socks i).type = .stream) (hport : (s.socks i).localPort ≠ 0)
      (hret : 0 ≤ (s.tcp.tcpListen (s.socks i).localPort).1) :
      Effect s (.listen fd)
        { s.setSock i { s.socks i with
            tcpConnId := (s.tcp.tcpListen (s.socks i).localPort).1, listening := true } with
          tcp := (s.tcp.tcpListen (s.socks i).localPort).2 }
  | acceptFailed {fd : ℤ} {i : SockRef} (hget : s.getSock fd = some i)
      (hlistening : (s.socks i).listening = true)
      (hret : (s.tcp.tcpAccept (s.socks i).localPort).1 < 0) :
      Effect s (.accept fd) { s with tcp := (s.tcp.tcpAccept (s.socks i).localPort).2 }
  | acceptDropped {fd : ℤ} {i : SockRef} {r : ℤ × Tcp} (hget : s.getSock fd = some i)
      (hlistening : (s.socks i).listening = true)
      (hr : s.tcp.tcpAccept (s.socks i).localPort = r) (hret : 0 ≤ r.1) :
      Effect s (.accept fd) { s with tcp := (r.2.tcpClose r.1).2 }
  | accepted {fd : ℤ} {i child : SockRef} {r : ℤ × Tcp} (hget : s.getSock fd = some i)
      (hlistening : (s.socks i).listening = true)
      (hr : s.tcp.tcpAccept (s.socks i).localPort = r) (hret : 0 ≤ r.1)
      (hfree : (s.socks child).used = false) :
      Effect s (.accept fd)
        { s.setSock child { newEntry .stream 0 with
            localPort := (s.socks i).localPort, tcpConnId := r.1 } with
          tcp := r.2 }
  | connectFailed {fd : ℤ} {i : SockRef} {addr : SockAddr} {r : ℤ × Tcp}
      (hget : s.getSock fd = some i) (htype : (s.socks i).type = .stream)
      (hr : s.tcp.tcpConnect addr.sinAddr addr.sinPort (s.ensureLocalPort i).1 = r)
      (hret : r.1 < 0) :
      Effect s (.connect fd (some addr))
        { s with ephPort := (s.ensureLocalPort i).2.ephPort, tcp := r.2 }
  | connected {fd : ℤ} {i : SockRef} {addr : SockAddr} {r : ℤ × Tcp}
      (hget : s.getSock fd = some i) (htype : (s.socks i).type = .stream)
      (hr : s.tcp.tcpConnect addr.sinAddr addr.sinPort (s.ensureLocalPort i).1 = r)
      (hret : 0 ≤ r.1) :
      Effect s (.connect fd (some addr))
        { s.setSock i { s.socks i with
            localPort := (s.ensureLocalPort i).1, peerIp := addr.sinAddr
            peerPort := addr.sinPort, tcpConnId := r.1 } with
          ephPort := (s.ensureLocalPort i).2.ephPort, tcp := r.2 }
  | sentDgram {fd : ℤ} {i : SockRef} {buf : Option (ℕ → Byte)} {len : ℕ} {addr : SockAddr}
      {udp : Udp} (hget : s.getSock fd = some i) (hbuf : buf.isSome) (hlen : len ≠ 0)
      (htype : (s.socks i).type = .dgram)
      (hports : (s.udp.udpBind (s.ensureLocalPort i).1).2.Queued udp) :
      Effect s (.sendto fd buf len (some addr))
        { s.setSock i { s.socks i with localPort := (s.ensureLocalPort i).1 } with
          ephPort := (s.ensureLocalPort i).2.ephPort, udp := udp }
  | sentStream {fd : ℤ} {i : SockRef} {buf : Option (ℕ → Byte)} {len : ℕ} {addr : Option SockAddr}
      (hget : s.getSock fd = some i) (htype : (s.socks i).type = .stream) :
      Effect s (.sendto fd buf len addr)
        { s with tcp := (s.tcp.tcpSend (s.socks i).tcpConnId buf (len % 2 ^ 16)).2 }
  | receivedDgram {fd : ℤ} {buf : Bool} {len : ℕ} {udp : Udp}
      (hports : s.udp.Queued udp) :
      Effect s (.recvfrom fd buf len) { s with udp := udp }
  | receivedStream {fd : ℤ} {i : SockRef} {buf : Bool} {len : ℕ} (hget : s.getSock fd = some i) :
      Effect s (.recvfrom fd buf len)
        { s with tcp := (s.tcp.tcpRecv (s.socks i).tcpConnId buf (len % 2 ^ 16)).2 }
  | closedDgram {fd : ℤ} {i : SockRef} (hcloses : Closes (.closeSocket fd) s i)
      (htype : (s.socks i).type = .dgram) :
      Effect s (.closeSocket fd)
        { s.setSock i { s.socks i with used := false } with
          udp := if (s.socks i).localPort ≠ 0 then (s.udp.udpUnbind (s.socks i).localPort).2
            else s.udp }
  | closedStream {fd : ℤ} {i : SockRef} (hcloses : Closes (.closeSocket fd) s i)
      (htype : (s.socks i).type = .stream) :
      Effect s (.closeSocket fd)
        { s.setSock i { s.socks i with used := false } with
          tcp := if 0 < (s.socks i).tcpConnId then (s.tcp.tcpClose (s.socks i).tcpConnId).2
            else s.tcp }
  | arrived {srcIp : ℕ} {payload : Option (ℕ → Byte)} {len : ℕ} {udp : Udp}
      (hports : s.udp.Queued udp) :
      Effect s (.arrival srcIp payload len) { s with udp := udp }

theorem nmSocket_effect (domain type protocol : ℤ) (s : Net) :
    Effect s (.socket domain type protocol) (s.nmSocket domain type protocol).2 := by
  have hrefused : Effect s (.socket domain type protocol) s :=
    .refused (fun _ => not_false) (fun _ _ => not_false) (fun _ => not_false) (fun _ => not_false)
  unfold nmSocket
  split
  · exact hrefused
  · cases sockType type with
    | none => exact hrefused
    | some t =>
      obtain halloc | ⟨i, hfree, halloc⟩ := allocSocketUnlocked_spec t protocol s
      · simp only [halloc]
        exact hrefused
      · simp only [halloc]
        exact .opened hfree

theorem rolledBack_port (hget : s.getSock fd = some i) {port : ℕ}
    (hret : (s.udp.udpBind port).1 ≠ 0) :
    setLocalPort fd (s.socks i).localPort { s.setSock i { s.socks i with localPort := port } with
      udp := (s.udp.udpBind port).2 } = s := by
  have hused := (getSock_eq_some.mp hget).2
  rw [Udp.udpBind_failed hret, setLocalPort, getSock_of_used (s := s) ?_ hget]
  · simp [setSock]
  · simpa using hused

theorem nmBind_cases (fd : ℤ) (addr : Option SockAddr) (s : Net) :
    (s.nmBind fd addr = (nmErr nmEfail, s) ∧ ∀ i port, ¬ BindsDgram (.bind fd addr) s i port) ∨
      ((s.nmBind fd addr).1 = 0 ∧ Effect s (.bind fd addr) (s.nmBind fd addr).2) := by
  cases addr with
  | none =>
    refine .inl ⟨?_, fun _ _ => not_false⟩
    unfold nmBind
    cases s.getSock fd <;> rfl
  | some addr =>
    unfold nmBind
    cases hget : s.getSock fd with
    | none =>
      refine .inl ⟨rfl, ?_⟩
      rintro i port ⟨hget', -⟩
      rw [hget] at hget'
      cases hget'
    | some i =>
      dsimp -zeta only
      split
      · rename_i hfamily
        refine .inl ⟨rfl, ?_⟩
        rintro j port ⟨-, hfamily', -⟩
        exact hfamily hfamily'
      · rename_i hfamily
        extract_lets oldPort entry s' r s''
        cases htype : (s.socks i).type with
        | stream => exact .inr ⟨rfl, .boundStream hget htype⟩
        | dgram =>
          dsimp -zeta only
          split
          · rename_i hret
            have hback : setLocalPort fd oldPort s'' = s := rolledBack_port hget hret
            rw [hback]
            refine .inl ⟨rfl, ?_⟩
            rintro j port ⟨-, -, -, rfl, hcan⟩
            exact hret (Udp.udpBind_eq_zero_iff.mpr hcan)
          · rename_i hret
            exact .inr ⟨rfl, .boundDgram ⟨hget, not_not.mp hfamily, htype, rfl,
              Udp.udpBind_eq_zero_iff.mp (not_not.mp hret)⟩⟩

theorem nmBind_effect (fd : ℤ) (addr : Option SockAddr) (s : Net) :
    Effect s (.bind fd addr) (s.nmBind fd addr).2 := by
  obtain ⟨hrun, hbinds⟩ | ⟨-, heffect⟩ := nmBind_cases fd addr s
  · rw [hrun]
    exact .refused (fun _ => not_false) hbinds (fun _ => not_false) (fun _ => not_false)
  · exact heffect

theorem nmListen_cases (fd : ℤ) (s : Net) :
    (s.nmListen fd = (nmErr nmEfail, s) ∧ ∀ i, ¬ Attaches (.listen fd) s i) ∨
      ∃ i r, s.getSock fd = some i ∧ (s.socks i).type = .stream ∧ (s.socks i).localPort ≠ 0 ∧
        s.tcp.tcpListen (s.socks i).localPort = r ∧
        s.nmListen fd = if r.1 < 0 then (nmErr nmEfail, { s with tcp := r.2 })
          else (0, { s.setSock i { s.socks i with tcpConnId := r.1, listening := true } with
            tcp := r.2 }) := by
  unfold nmListen
  cases hget : s.getSock fd with
  | none =>
    refine .inl ⟨rfl, ?_⟩
    rintro i ⟨hget', -⟩
    rw [hget] at hget'
    cases hget'
  | some i =>
    dsimp only
    split
    · rename_i hbad
      refine .inl ⟨rfl, ?_⟩
      rintro j ⟨hget', htype, hport, -⟩
      obtain rfl := some.inj (hget.symm.trans hget')
      exact hbad.elim (fun h => h htype) hport
    · rename_i hgood
      obtain ⟨htype, hport⟩ := not_or.mp hgood
      have hagain (t : Tcp) : getSock fd { s with tcp := t } = some i := hget
      refine .inr ⟨i, _, rfl, not_not.mp htype, hport, rfl, ?_⟩
      simp only [hagain]
      rfl

theorem nmListen_effect (fd : ℤ) (s : Net) : Effect s (.listen fd) (s.nmListen fd).2 := by
  obtain ⟨hrun, hattaches⟩ | ⟨i, r, hget, htype, hport, rfl, hrun⟩ := nmListen_cases fd s
  · rw [hrun]
    exact .refused (fun _ => not_false) (fun _ _ => not_false) (fun _ => not_false) hattaches
  · rw [hrun]
    split
    · next hret => exact .listenFailed hget hret
    · next hret => exact .listened hget htype hport (not_lt.mp hret)

theorem nmAccept_effect (fd : ℤ) (s : Net) : Effect s (.accept fd) (s.nmAccept fd).2 := by
  have hrefused : Effect s (.accept fd) s :=
    .refused (fun _ => not_false) (fun _ _ => not_false) (fun _ => not_false) (fun _ => not_false)
  unfold nmAccept
  cases hget : s.getSock fd with
  | none => exact hrefused
  | some i =>
    dsimp only
    split
    · exact hrefused
    · rename_i hidle
      have hlistening : (s.socks i).listening = true := by simpa using hidle
      split
      · next hret => exact .acceptFailed hget hlistening hret
      · rename_i hret
        obtain ⟨r, hr⟩ : ∃ r, s.tcp.tcpAccept (s.socks i).localPort = r := ⟨_, rfl⟩
        rw [hr] at hret ⊢
        obtain halloc | ⟨child, hfree, halloc⟩ :=
          allocSocketUnlocked_spec .stream 0 { s with tcp := r.2 }
        · simp only [halloc]
          exact .acceptDropped hget hlistening hr (not_lt.mp hret)
        · simp only [halloc, setSock_setSock, socks_setSock, Function.update_self]
          exact .accepted hget hlistening hr (not_lt.mp hret) hfree

theorem udp_ensureLocalPort (i : SockRef) (s : Net) : (s.ensureLocalPort i).2.udp = s.udp := by
  unfold ensureLocalPort
  split <;> rfl

theorem used_ensureLocalPort (i j : SockRef) (s : Net) :
    ((s.ensureLocalPort i).2.socks j).used = (s.socks j).used := by
  unfold ensureLocalPort
  split
  · by_cases hj : j = i
    · subst hj
      simp [takeEphPort]
    · simp [takeEphPort, hj]
  · rfl

theorem ensureLocalPort_zero (h : (s.socks i).localPort = 0) :
    s.ensureLocalPort i = (s.ephPort, { s.setSock i { s.socks i with localPort := s.ephPort } with
        ephPort := (s.ephPort + 1) % 2 ^ 16 }) :=
  if_pos h

theorem ensureLocalPort_of_ne (h : (s.socks i).localPort ≠ 0) :
    s.ensureLocalPort i = ((s.socks i).localPort, s) :=
  if_neg h

theorem ensureLocalPort_snd (i : SockRef) (s : Net) :
    (s.ensureLocalPort i).2 = { s.setSock i { s.socks i with localPort := (s.ensureLocalPort i).1 }
      with ephPort := (s.ensureLocalPort i).2.ephPort } := by
  unfold ensureLocalPort
  split
  · rfl
  · exact (setSock_self i s).symm

/-- A connect is refused, or it ends as the connect of the connections does; if this fails, the
socket has its port back. -/
theorem nmConnect_cases (fd : ℤ) (addr : Option SockAddr) (s : Net) :
    (s.nmConnect fd addr = (nmErr nmEfail, s) ∧ (∀ i, ¬ Assigns (.connect fd addr) s i) ∧
        ∀ i, ¬ Attaches (.connect fd addr) s i) ∨
      ∃ i a r, addr = some a ∧ s.getSock fd = some i ∧ (s.socks i).type = .stream ∧
        s.tcp.tcpConnect a.sinAddr a.sinPort (s.ensureLocalPort i).1 = r ∧
        s.nmConnect fd addr = if r.1 < 0 then
            (nmErr nmEfail, { s with ephPort := (s.ensureLocalPort i).2.ephPort, tcp := r.2 })
          else (0, { s.setSock i { s.socks i with
              localPort := (s.ensureLocalPort i).1, peerIp := a.sinAddr
              peerPort := a.sinPort, tcpConnId := r.1 } with
            ephPort := (s.ensureLocalPort i).2.ephPort, tcp := r.2 }) := by
  unfold nmConnect
  cases hget : s.getSock fd with
  | none =>
    have hnone {i : SockRef} : s.getSock fd ≠ some i := by simp [hget]
    refine .inl ⟨rfl, fun i h => hnone h.1, fun i h => ?_⟩
    cases addr with
    | none => exact h
    | some addr => exact hnone h.1
  | some i =>
    cases addr with
    | none => exact .inl ⟨rfl, fun i h => by simp [Assigns] at h, fun _ => not_false⟩
    | some addr =>
      dsimp only
      split
      · rename_i htype
        have hsame {j : SockRef} (h : s.getSock fd = some j) : i = j :=
          some.inj (hget.symm.trans h)
        exact .inl ⟨rfl, fun j h => htype (hsame h.1 ▸ h.2.2.1),
          fun j h => htype (hsame h.1 ▸ h.2.1)⟩
      · rename_i htype
        have htcp : (s.ensureLocalPort i).2.tcp = s.tcp := by
          rw [ensureLocalPort_snd]
          rfl
        have hused := (getSock_eq_some.mp hget).2
        refine .inr ⟨i, addr, _, rfl, rfl, not_not.mp htype, rfl, ?_⟩
        rw [htcp]
        generalize s.tcp.tcpConnect addr.sinAddr addr.sinPort (s.ensureLocalPort i).1 = r
        have hagain : getSock fd { (s.ensureLocalPort i).2 with tcp := r.2 } = some i := by
          refine getSock_of_used (s := s) ?_ hget
          simpa [used_ensureLocalPort] using hused
        split
        · split
          · rename_i hauto
            simp only [hagain]
            rw [ensureLocalPort_zero hauto]
            simp [setSock, ← hauto]
          · next hport => rw [ensureLocalPort_of_ne hport]
        · simp only [hagain]
          rw [ensureLocalPort_snd]
          simp [setSock]

theorem nmConnect_effect (fd : ℤ) (addr : Option SockAddr) (s : Net) :
    Effect s (.connect fd addr) (s.nmConnect fd addr).2 := by
  obtain ⟨hrun, hassigns, hattaches⟩ | ⟨i, a, r, rfl, hget, htype, hr, hrun⟩ :=
    nmConnect_cases fd addr s
  · rw [hrun]
    exact .refused hassigns (fun _ _ => not_false) (fun _ => not_false) hattaches
  · rw [hrun]
    split
    · next hret => exact .connectFailed hget htype hr hret
    · next hret => exact .connected hget htype hr (not_lt.mp hret)

theorem nmSendto_effect (fd : ℤ) (buf : Option (ℕ → Byte)) (len : ℕ) (addr : Option SockAddr)
    (s : Net) : Effect s (.sendto fd buf len addr) (s.nmSendto fd buf len addr).2 := by
  have hrefused (h : ∀ i, ¬ Assigns (.sendto fd buf len addr) s i) :
      Effect s (.sendto fd buf len addr) s :=
    .refused h (fun _ _ => not_false) (fun _ => not_false) (fun _ => not_false)
  unfold nmSendto
  cases hget : s.getSock fd with
  | none =>
    refine hrefused ?_
    rintro i ⟨hget', -⟩
    rw [hget] at hget'
    cases hget'
  | some i =>
    have hsame {j : SockRef} (h : s.getSock fd = some j) : i = j :=
      some.inj (hget.symm.trans h)
    dsimp only
    split
    · rename_i hbad
      refine hrefused ?_
      rintro j ⟨-, hbuf, hlen, -⟩
      obtain hnone | hzero := hbad
      · simp [isNone_iff_eq_none.mp hnone] at hbuf
      · exact hlen hzero
    · rename_i hgood
      obtain ⟨hbuf, hlen⟩ := not_or.mp hgood
      split
      · rename_i htype
        cases addr with
        | none =>
          refine hrefused ?_
          rintro j ⟨-, -, -, hsome, -⟩
          cases hsome
        | some addr =>
          have hbuf' : buf.isSome := by simpa [isSome_iff_ne_none] using hbuf
          have heffect (udp : Udp) (hports : (s.udp.udpBind (s.ensureLocalPort i).1).2.Queued udp) :
              Effect s (.sendto fd buf len (some addr))
                { (s.ensureLocalPort i).2 with udp := udp } := by
            rw [ensureLocalPort_snd]
            exact .sentDgram hget hbuf' hlen htype hports
          rw [udp_ensureLocalPort]
          dsimp only
          split
          · exact heffect _ (.inl rfl)
          · exact heffect _ (Udp.carries_sendto ..).queued
      · rename_i htype
        split
        · refine hrefused ?_
          rintro j ⟨hget', -, -, -, hdgram, -⟩
          obtain rfl := hsame hget'
          rw [htype] at hdgram
          cases hdgram
        · exact .sentStream hget htype

theorem nmRecvfrom_effect (fd : ℤ) (buf : Bool) (len : ℕ) (s : Net) :
    Effect s (.recvfrom fd buf len) (s.nmRecvfrom fd buf len).2 := by
  have hrefused : Effect s (.recvfrom fd buf len) s :=
    .refused (fun _ => not_false) (fun _ _ => not_false) (fun _ => not_false) (fun _ => not_false)
  unfold nmRecvfrom
  cases hget : s.getSock fd with
  | none => exact hrefused
  | some i =>
    dsimp only
    split
    · exact hrefused
    · split
      · exact .receivedDgram (Udp.queued_recv ..)
      · split
        · exact hrefused
        · exact .receivedStream hget

theorem nmCloseSocket_effect (fd : ℤ) (s : Net) :
    Effect s (.closeSocket fd) (s.nmCloseSocket fd).2 := by
  unfold nmCloseSocket
  cases hget : s.getSock fd with
  | none =>
    refine .refused (fun _ => not_false) (fun _ _ => not_false) (fun i h => ?_)
      (fun _ => not_false)
    rw [Closes, hget] at h
    cases h
  | some i =>
    dsimp only
    split
    · rename_i htype
      have hclosed : Effect s (.closeSocket fd) _ := .closedDgram hget htype
      split
      · rename_i hport
        rw [if_pos hport] at hclosed
        exact hclosed
      · rename_i hport
        rw [if_neg hport] at hclosed
        exact hclosed
    · rename_i htype
      have hclosed : Effect s (.closeSocket fd) _ := .closedStream hget htype
      split
      · rename_i hid
        rw [if_pos hid] at hclosed
        exact hclosed
      · rename_i hid
        rw [if_neg hid] at hclosed
        exact hclosed

theorem next_effect (c : NetCall) (s : Net) : Effect s c (s.next c) := by
  cases c with
  | socket domain type protocol => exact nmSocket_effect domain type protocol s
  | bind fd addr => exact nmBind_effect fd addr s
  | listen fd => exact nmListen_effect fd s
  | accept fd => exact nmAccept_effect fd s
  | connect fd addr => exact nmConnect_effect fd addr s
  | sendto fd buf len addr => exact nmSendto_effect fd buf len addr s
  | recvfrom fd buf len => exact nmRecvfrom_effect fd buf len s
  | closeSocket fd => exact nmCloseSocket_effect fd s
  | arrival srcIp payload len => exact .arrived (Udp.carries_input ..).queued

/-! ## The port table -/

theorem wellFormed_next (h : s.udp.WellFormed) (c : NetCall) : (s.next c).udp.WellFormed := by
  have heffect := next_effect c s
  generalize s.next c = s' at heffect ⊢
  cases heffect with
  | boundDgram hbinds => exact h.bind _
  | sentDgram hget hbuf hlen htype hports => exact (h.bind _).queued hports
  | receivedDgram hports => exact h.queued hports
  | arrived hports => exact h.queued hports
  | closedDgram hcloses htype =>
    dsimp only
    split
    · exact h.unbind _
    · exact h
  | _ => exact h

theorem Reached.wellFormed (h : Reached s) : s.udp.WellFormed := by
  induction h with
  | start => exact .atStart
  | step h c ih => exact wellFormed_next ih c

end Net

end NeverMind
