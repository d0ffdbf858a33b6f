import NeverMind.Model.Tcp
import NeverMind.Model.Udp

/-! # Sockets

`kernel/net/socket.c` over `tcp.c` and `udp.c`. The socket lock is released before every call
into the protocols, and the entry is looked up again after it. -/

namespace NeverMind

def nmAfInet : ℤ := 2

def nmSockStream : ℤ := 1

def nmSockDgram : ℤ := 2

/-- The socket types that `nm_socket` lets through. -/
inductive SockType where
  | stream
  | dgram
  deriving Repr, DecidableEq

/-- `struct nm_sockaddr_in`. -/
structure SockAddr where
  sinFamily : ℤ
  sinPort : ℕ
  sinAddr : ℕ
  deriving Repr, DecidableEq

/-- `struct nm_socket_entry`. -/
structure SocketEntry where
  used : Bool
  type : SockType
  proto : ℤ
  localPort : ℕ
  peerIp : ℕ
  peerPort : ℕ
  tcpConnId : ℤ
  listening : Bool
  deriving Repr, DecidableEq

/-- A pointer into the socket table. -/
abbrev SockRef := Fin 64

/-- The static variables of `socket.c`, `tcp.c` and `udp.c`. -/
structure Net where
  socks : SockRef → SocketEntry
  ephPort : ℕ
  tcp : Tcp
  udp : Udp

/-- The static variables at the start of the kernel. -/
def Net.atStart : Net where
  socks := fun _ => ⟨false, .stream, 0, 0, 0, 0, 0, false⟩
  ephPort := 40000
  tcp := Tcp.atStart
  udp := Udp.atStart

namespace Net

def setSock (i : SockRef) (e : SocketEntry) (s : Net) : Net :=
  { s with socks := Function.update s.socks i e }

def getSock (fd : ℤ) (s : Net) : Option SockRef :=
  if h : 0 ≤ fd ∧ fd < 64 then
    let i : SockRef := ⟨fd.toNat, by omega⟩
    if (s.socks i).used then some i else none
  else none

def allocSocketUnlocked (type : SockType) (protocol : ℤ) (s : Net) : Option SockRef × Net :=
  match (List.finRange 64).find? fun i => !(s.socks i).used with
  | none => (none, s)
  | some i => (some i, s.setSock i ⟨true, type, protocol, 0, 0, 0, -1, false⟩)

def sockType (type : ℤ) : Option SockType :=
  if type = nmSockDgram then some .dgram
  else if type = nmSockStream then some .stream
  else none

def nmSocket (domain type protocol : ℤ) (s : Net) : ℤ × Net :=
  if domain ≠ nmAfInet then (nmErr nmEfail, s)
  else
    match sockType type with
    | none => (nmErr nmEfail, s)
    | some type =>
      match s.allocSocketUnlocked type protocol with
      | (none, s) => (nmErr nmEfail, s)
      | (some i, s) => ((i.val : ℤ), s)

/-- Store a local port, if the socket is still there. -/
def setLocalPort (fd : ℤ) (port : ℕ) (s : Net) : Net :=
  match s.getSock fd with
  | none => s
  | some i => s.setSock i { s.socks i with localPort := port }

def nmBind (fd : ℤ) (addr : Option SockAddr) (s : Net) : ℤ × Net :=
  match s.getSock fd, addr with
  | some i, some addr =>
    if addr.sinFamily ≠ nmAfInet then (nmErr nmEfail, s)
    else
      let oldPort := (s.socks i).localPort
      let s' := s.setSock i { s.socks i with localPort := addr.sinPort }
      match (s.socks i).type with
      | .stream => (0, s')
      | .dgram =>
        let r := s'.udp.udpBind addr.sinPort
        let s'' := { s' with udp := r.2 }
        if r.1 ≠ 0 then (nmErr nmEfail, s''.setLocalPort fd oldPort) else (0, s'')
  | _, _ => (nmErr nmEfail, s)

def nmListen (fd : ℤ) (s : Net) : ℤ × Net :=
  match s.getSock fd with
  | none => (nmErr nmEfail, s)
  | some i =>
    if (s.socks i).type ≠ .stream ∨ (s.socks i).localPort = 0 then (nmErr nmEfail, s)
    else
      let r := s.tcp.tcpListen (s.socks i).localPort
      let s' := { s with tcp := r.2 }
      if r.1 < 0 then (nmErr nmEfail, s')
      else
        match s'.getSock fd with
        | none => (nmErr nmEfail, { s' with tcp := (s'.tcp.tcpClose r.1).2 })
        | some i => (0, s'.setSock i { s'.socks i with tcpConnId := r.1, listening := true })

/-- The address is stored for the caller, if there is a buffer for it. -/
def nmAccept (fd : ℤ) (s : Net) : (ℤ × Option SockAddr) × Net :=
  match s.getSock fd with
  | none => ((nmErr nmEfail, none), s)
  | some i =>
    if (s.socks i).listening = false then ((nmErr nmEfail, none), s)
    else
      let port := (s.socks i).localPort
      let r := s.tcp.tcpAccept port
      let s' := { s with tcp := r.2 }
      if r.1 < 0 then ((nmErr nmEfail, none), s')
      else
        match s'.allocSocketUnlocked .stream 0 with
        | (none, s') => ((nmErr nmEfail, none), { s' with tcp := (s'.tcp.tcpClose r.1).2 })
        | (some child, s') =>
          (((child.val : ℤ), some ⟨nmAfInet, port, 0⟩),
            s'.setSock child { s'.socks child with localPort := port, tcpConnId := r.1 })

/-- `eph_port++` on a `uint16_t`. -/
def takeEphPort (s : Net) : ℕ × Net := (s.ephPort, { s with ephPort := (s.ephPort + 1) % 2 ^ 16 })

/-- The local port of a socket, which gets the next ephemeral port if it has none. -/
def ensureLocalPort (i : SockRef) (s : Net) : ℕ × Net :=
  if (s.socks i).localPort = 0 then
    let r := s.takeEphPort
    (r.1, r.2.setSock i { s.socks i with localPort := r.1 })
  else ((s.socks i).localPort, s)

def nmConnect (fd : ℤ) (addr : Option SockAddr) (s : Net) : ℤ × Net :=
  match s.getSock fd, addr with
  | some i, some addr =>
    if (s.socks i).type ≠ .stream then (nmErr nmEfail, s)
    else
      let localPortWasAuto := (s.socks i).localPort = 0
      let port := s.ensureLocalPort i
      let r := port.2.tcp.tcpConnect addr.sinAddr addr.sinPort port.1
      let s' := { port.2 with tcp := r.2 }
      if r.1 < 0 then
        if localPortWasAuto then
          match s'.getSock fd with
          | none => (nmErr nmEfail, s')
          | some i =>
            if (s'.socks i).localPort = port.1 then
              (nmErr nmEfail, s'.setSock i { s'.socks i with localPort := 0 })
            else (nmErr nmEfail, s')
        else (nmErr nmEfail, s')
      else
        match s'.getSock fd with
        | none => (nmErr nmEfail, { s' with tcp := (s'.tcp.tcpClose r.1).2 })
        | some i =>
          (0, s'.setSock i { s'.socks i with
            peerIp := addr.sinAddr, peerPort := addr.sinPort, tcpConnId := r.1 })
  | _, _ => (nmErr nmEfail, s)

def nmSendto (fd : ℤ) (buf : Option (ℕ → Byte)) (len : ℕ) (addr : Option SockAddr) (s : Net) :
    ℤ × Net :=
  match s.getSock fd with
  | none => (nmErr nmEfail, s)
  | some i =>
    if buf.isNone ∨ len = 0 then (nmErr nmEfail, s)
    else
      match (s.socks i).type with
      | .dgram =>
        match addr with
        | none => (nmErr nmEfail, s)
        | some addr =>
          let port := s.ensureLocalPort i
          let b := port.2.udp.udpBind port.1
          let s' := { port.2 with udp := b.2 }
          if b.1 ≠ 0 then (nmErr nmEfail, s')
          else
            let r := s'.udp.udpSendto port.1 addr.sinAddr addr.sinPort buf (len % 2 ^ 16)
            (r.1, { s' with udp := r.2 })
      | .stream =>
        if (s.socks i).tcpConnId ≤ 0 then (nmErr nmEfail, s)
        else
          let r := s.tcp.tcpSend (s.socks i).tcpConnId buf (len % 2 ^ 16)
          (r.1, { s with tcp := r.2 })

/-- What `nm_recvfrom` stores: the bytes, and the address of the sender. -/
structure Received where
  ret : ℤ
  bytes : List Byte
  addr : Option SockAddr
  deriving Repr, DecidableEq

def nmRecvfrom (fd : ℤ) (buf : Bool) (len : ℕ) (s : Net) : Received × Net :=
  match s.getSock fd with
  | none => (⟨nmErr nmEfail, [], none⟩, s)
  | some i =>
    if buf = false ∨ len = 0 then (⟨nmErr nmEfail, [], none⟩, s)
    else
      match (s.socks i).type with
      | .dgram =>
        let r := s.udp.udpRecv (s.socks i).localPort buf (len % 2 ^ 16)
        let src := r.1.source.getD (0, 0)
        (⟨r.1.ret, r.1.bytes, if 0 ≤ r.1.ret then some ⟨nmAfInet, src.2, src.1⟩ else none⟩,
          { s with udp := r.2 })
      | .stream =>
        if (s.socks i).tcpConnId ≤ 0 then (⟨nmErr nmEfail, [], none⟩, s)
        else
          let r := s.tcp.tcpRecv (s.socks i).tcpConnId buf (len % 2 ^ 16)
          (⟨r.1.1, r.1.2, none⟩, { s with tcp := r.2 })

def nmCloseSocket (fd : ℤ) (s : Net) : ℤ × Net :=
  match s.getSock fd with
  | none => (nmErr nmEfail, s)
  | some i =>
    let e := s.socks i
    let s := s.setSock i { e with used := false }
    match e.type with
    | .dgram =>
      if e.localPort ≠ 0 then (0, { s with udp := (s.udp.udpUnbind e.localPort).2 }) else (0, s)
    | .stream =>
      if 0 < e.tcpConnId then (0, { s with tcp := (s.tcp.tcpClose e.tcpConnId).2 }) else (0, s)

end Net

end NeverMind
