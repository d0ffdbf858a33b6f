import NeverMind.Model.Socket

/-! # Socket calls between their critical sections

The calls of `socket.c` cut where they release the socket lock. A call enters with its first
critical section, and goes on with calls into the protocols, each under its own lock, and with
further critical sections. Other callers may run between any two of these. -/

namespace NeverMind

/-- What a caller has still to do, with the local variables it needs for it. -/
inductive Pending where
  | bindUdp (fd : ℤ) (oldPort port : ℕ)
  | bindRollback (fd : ℤ) (oldPort : ℕ)
  | listenTcp (fd : ℤ) (port : ℕ)
  | listenCommit (fd : ℤ) (id : ℤ)
  | acceptTcp (port : ℕ)
  | acceptCommit (port : ℕ) (conn : ℤ)
  | connectTcp (fd : ℤ) (localPort : ℕ) (localPortWasAuto : Bool) (dstIp dstPort : ℕ)
  | connectRollback (fd : ℤ) (localPort : ℕ)
  | connectCommit (fd : ℤ) (dstIp dstPort : ℕ) (conn : ℤ)
  /-- `tcp_close` before the call returns. -/
  | closeTcp (id ret : ℤ)
  | closeUdp (localPort : ℕ)
  deriving Repr, DecidableEq

/-- A part of a call returns to its caller, or leaves more to do. -/
inductive Phase where
  | done (ret : ℤ)
  | more (p : Pending)
  deriving Repr, DecidableEq

/-- The calls that take the socket lock to create, change or remove sockets. -/
inductive SockCall where
  | socket (domain type protocol : ℤ)
  | bind (fd : ℤ) (addr : Option SockAddr)
  | listen (fd : ℤ)
  | accept (fd : ℤ)
  | connect (fd : ℤ) (addr : Option SockAddr)
  | closeSocket (fd : ℤ)

namespace SockCall

def failed : Phase := .done (nmErr nmEfail)

/-- The first critical section of `nm_bind`. -/
def enterBind (fd : ℤ) (addr : Option SockAddr) (s : Net) : Phase × Net :=
  match s.getSock fd, addr with
  | some i, some addr =>
    if addr.sinFamily ≠ nmAfInet then (failed, s)
    else
      let oldPort := (s.socks i).localPort
      let s' := s.setSock i { s.socks i with localPort := addr.sinPort }
      match (s.socks i).type with
      | .stream => (.done 0, s')
      | .dgram => (.more (.bindUdp fd oldPort addr.sinPort), s')
  | _, _ => (failed, s)

def enterListen (fd : ℤ) (s : Net) : Phase × Net :=
  match s.getSock fd with
  | none => (failed, s)
  | some i =>
    if (s.socks i).type ≠ .stream ∨ (s.socks i).localPort = 0 then (failed, s)
    else (.more (.listenTcp fd (s.socks i).localPort), s)

def enterAccept (fd : ℤ) (s : Net) : Phase × Net :=
  match s.getSock fd with
  | none => (failed, s)
  | some i =>
    if (s.socks i).listening = false then (failed, s)
    else (.more (.acceptTcp (s.socks i).localPort), s)

def enterConnect (fd : ℤ) (addr : Option SockAddr) (s : Net) : Phase × Net :=
  match s.getSock fd, addr with
  | some i, some addr =>
    if (s.socks i).type ≠ .stream then (failed, s)
    else
      let port := s.ensureLocalPort i
      (.more (.connectTcp fd port.1 ((s.socks i).localPort == 0) addr.sinAddr addr.sinPort), port.2)
  | _, _ => (failed, s)

def enterCloseSocket (fd : ℤ) (s : Net) : Phase × Net :=
  match s.getSock fd with
  | none => (failed, s)
  | some i =>
    let e := s.socks i
    let s := s.setSock i { e with used := false }
    match e.type with
    | .dgram => (if e.localPort ≠ 0 then .more (.closeUdp e.localPort) else .done 0, s)
    | .stream => (if 0 < e.tcpConnId then .more (.closeTcp e.tcpConnId 0) else .done 0, s)

/-- The first critical section of a call. -/
def enter (c : SockCall) (s : Net) : Phase × Net :=
  match c with
  | .socket domain type protocol =>
    (.done (s.nmSocket domain type protocol).1, (s.nmSocket domain type protocol).2)
  | .bind fd addr => enterBind fd addr s
  | .listen fd => enterListen fd s
  | .accept fd => enterAccept fd s
  | .connect fd addr => enterConnect fd addr s
  | .closeSocket fd => enterCloseSocket fd s

end SockCall

namespace Pending

/-- The next part of a call. -/
def resume (p : Pending) (s : Net) : Phase × Net :=
  match p with
  | .bindUdp fd oldPort port =>
    let r := s.udp.udpBind port
    (if r.1 ≠ 0 then .more (.bindRollback fd oldPort) else .done 0, { s with udp := r.2 })
  | .bindRollback fd oldPort => (.done (nmErr nmEfail), s.setLocalPort fd oldPort)
  | .listenTcp fd port =>
    let r := s.tcp.tcpListen port
    (if r.1 < 0 then .done (nmErr nmEfail) else .more (.listenCommit fd r.1), { s with tcp := r.2 })
  | .listenCommit fd id =>
    match s.getSock fd with
    | none => (.more (.closeTcp id (nmErr nmEfail)), s)
    | some i => (.done 0, s.setSock i { s.socks i with tcpConnId := id, listening := true })
  | .acceptTcp port =>
    let r := s.tcp.tcpAccept port
    (if r.1 < 0 then .done (nmErr nmEfail) else .more (.acceptCommit port r.1),
      { s with tcp := r.2 })
  | .acceptCommit port conn =>
    match s.allocSocketUnlocked .stream 0 with
    | (none, s) => (.more (.closeTcp conn (nmErr nmEfail)), s)
    | (some child, s) =>
      (.done child.val, s.setSock child { s.socks child with localPort := port, tcpConnId := conn })
  | .connectTcp fd localPort localPortWasAuto dstIp dstPort =>
    let r := s.tcp.tcpConnect dstIp dstPort localPort
    (if r.1 < 0 then
        if localPortWasAuto then .more (.connectRollback fd localPort)
        else .done (nmErr nmEfail)
      else .more (.connectCommit fd dstIp dstPort r.1),
      { s with tcp := r.2 })
  | .connectRollback fd localPort =>
    match s.getSock fd with
    | none => (.done (nmErr nmEfail), s)
    | some i =>
      if (s.socks i).localPort = localPort then
        (.done (nmErr nmEfail), s.setSock i { s.socks i with localPort := 0 })
      else (.done (nmErr nmEfail), s)
  | .connectCommit fd dstIp dstPort conn =>
    match s.getSock fd with
    | none => (.more (.closeTcp conn (nmErr nmEfail)), s)
    | some i =>
      (.done 0, s.setSock i { s.socks i with
        peerIp := dstIp, peerPort := dstPort, tcpConnId := conn })
  | .closeTcp id ret => (.done ret, { s with tcp := (s.tcp.tcpClose id).2 })
  | .closeUdp localPort => (.done 0, { s with udp := (s.udp.udpUnbind localPort).2 })

/-- The descriptor that the rest of the call looks up again. -/
def fd : Pending → Option ℤ
  | .bindUdp fd _ _ => some fd
  | .bindRollback fd _ => some fd
  | .listenTcp fd _ => some fd
  | .listenCommit fd _ => some fd
  | .connectTcp fd _ _ _ _ => some fd
  | .connectRollback fd _ => some fd
  | .connectCommit fd _ _ _ => some fd
  | _ => none

/-- The critical sections that commit or roll back a `nm_bind`, `nm_listen` or `nm_connect`. -/
def settles : Pending → Bool
  | .bindRollback _ _ => true
  | .listenCommit _ _ => true
  | .connectRollback _ _ => true
  | .connectCommit _ _ _ _ => true
  | _ => false

end Pending

/-- The kernel with its callers. The instance of a slot is the number of its last creation, and
a caller's pending call comes with the instance that its first section saw; neither is in
the source. -/
structure Callers (τ : Type*) where
  net : Net
  pending : τ → Option (Pending × ℕ)
  inst : SockRef → ℕ
  created : ℕ

/-- A caller starts a call or goes on with it. -/
inductive Action (τ : Type*) where
  | enter (t : τ) (c : SockCall)
  | resume (t : τ)

namespace Callers

variable {τ : Type*} [DecidableEq τ]

/-- No caller has a call open at the start of the kernel. -/
def atStart : Callers τ where
  net := Net.atStart
  pending := fun _ => none
  inst := fun _ => 0
  created := 0

/-- The instance that a lookup finds. -/
def instAt (fd : Option ℤ) (s : Callers τ) : ℕ :=
  match fd.bind fun fd => s.net.getSock fd with
  | none => 0
  | some i => s.inst i

/-- The slot was free and is in use. -/
def Creates (s s' : Net) (i : SockRef) : Prop := (s.socks i).used = false ∧ (s'.socks i).used = true

instance (s s' : Net) (i : SockRef) : Decidable (Creates s s' i) :=
  inferInstanceAs (Decidable (_ ∧ _))

/-- Caller `t` has done a part of a call that saw instance `seen`. -/
def after (t : τ) (seen : ℕ) (r : Phase × Net) (s : Callers τ) : Callers τ where
  net := r.2
  pending := Function.update s.pending t
    (match r.1 with
    | .done _ => none
    | .more p => some (p, seen))
  inst := fun i => if Creates s.net r.2 i then s.created + 1 else s.inst i
  created := s.created + 1

/-- What the first section of a call sees. -/
def seen (r : Phase × Net) (s : Callers τ) : ℕ :=
  match r.1 with
  | .done _ => 0
  | .more p => s.instAt p.fd

def step (a : Action τ) (s : Callers τ) : Callers τ :=
  match a with
  | .enter t c =>
    match s.pending t with
    | some _ => s
    | none => s.after t (s.seen (c.enter s.net)) (c.enter s.net)
  | .resume t =>
    match s.pending t with
    | none => s
    | some (p, n) => s.after t n (p.resume s.net)

end Callers

end NeverMind
