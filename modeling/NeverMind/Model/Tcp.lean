import NeverMind.Library.Buffer
import NeverMind.Model.Fd

/-! # TCP connections

`kernel/net/tcp.c`: a table of 64 connections that live on one machine. A connection names its
peer by an identifier, and a send writes to the receive buffer of the peer. The spin lock is
released before every call returns. The counter of `net_stats_note_tcp_conn` belongs to
`net.c`. -/

namespace NeverMind

def tcpBufMax : ℕ := 2048

/-- `enum tcp_state`. -/
inductive TcpState where
  | closed
  | listen
  | synSent
  | synRecv
  | established
  deriving Repr, DecidableEq

/-- `struct tcp_conn`. -/
structure TcpConn where
  used : Bool
  id : ℤ
  state : TcpState
  localIp : ℕ
  localPort : ℕ
  peerIp : ℕ
  peerPort : ℕ
  peerId : ℤ
  rxLen : ℕ
  rxBuf : Fin 2048 → Byte

/-- A pointer into the connection table. -/
abbrev ConnRef := Fin 64

/-- The static variables of `tcp.c`. -/
structure Tcp where
  conns : ConnRef → TcpConn
  nextId : ℤ

/-- The static variables at the start of the kernel. -/
def Tcp.atStart : Tcp where
  conns := fun _ => ⟨false, 0, .closed, 0, 0, 0, 0, 0, 0, fun _ => 0⟩
  nextId := 1

namespace Tcp

def setConn (i : ConnRef) (c : TcpConn) (s : Tcp) : Tcp :=
  { s with conns := Function.update s.conns i c }

def findById (id : ℤ) (s : Tcp) : Option ConnRef :=
  (List.finRange 64).find? fun i => (s.conns i).used && (s.conns i).id == id

def findListener (port : ℕ) (s : Tcp) : Option ConnRef :=
  (List.finRange 64).find? fun i =>
    (s.conns i).used && (s.conns i).state == .listen && (s.conns i).localPort == port

def allocConn (s : Tcp) : Option ConnRef × Tcp :=
  match (List.finRange 64).find? fun i => !(s.conns i).used with
  | none => (none, s)
  | some i =>
    (some i, { s.setConn i { s.conns i with
        used := true, id := s.nextId, state := .closed, peerId := -1, rxLen := 0 } with
      nextId := i32 (s.nextId + 1) })

def tcpListen (port : ℕ) (s : Tcp) : ℤ × Tcp :=
  match s.allocConn with
  | (none, s) => (nmErr nmEfail, s)
  | (some i, s) =>
    ((s.conns i).id,
      s.setConn i { s.conns i with state := .listen, localIp := 0, localPort := port })

/-- Give back a connection that a failed connect has taken. -/
def rollback (i : Option ConnRef) (s : Tcp) : Tcp :=
  match i with
  | none => s
  | some i =>
    s.setConn i { s.conns i with used := false, state := .closed, peerId := -1, rxLen := 0 }

/-- The two ends of a new connection. -/
def join (dstIp dstPort srcPort : ℕ) (cli srv : ConnRef) (s : Tcp) : Tcp :=
  let s := s.setConn cli { s.conns cli with
    state := .established, localIp := 0, peerIp := dstIp, peerPort := dstPort,
    localPort := srcPort }
  let s := s.setConn srv { s.conns srv with
    state := .synRecv, localIp := dstIp, localPort := dstPort, peerIp := dstIp,
    peerPort := srcPort }
  let s := s.setConn cli { s.conns cli with peerId := (s.conns srv).id }
  s.setConn srv { s.conns srv with peerId := (s.conns cli).id }

def tcpConnect (dstIp dstPort srcPort : ℕ) (s : Tcp) : ℤ × Tcp :=
  match s.findListener dstPort with
  | none => (nmErr nmEfail, s)
  | some _ =>
    let cli := s.allocConn
    let srv := cli.2.allocConn
    match cli.1, srv.1 with
    | some i, some j =>
      let s := srv.2.join dstIp dstPort srcPort i j
      ((s.conns i).id, s)
    | _, _ => (nmErr nmEfail, (srv.2.rollback cli.1).rollback srv.1)

def tcpAccept (listenPort : ℕ) (s : Tcp) : ℤ × Tcp :=
  match (List.finRange 64).find? fun i =>
      (s.conns i).used && (s.conns i).state == .synRecv && (s.conns i).localPort == listenPort with
  | none => (nmErr nmEfail, s)
  | some i => ((s.conns i).id, s.setConn i { s.conns i with state := .established })

def tcpSend (connId : ℤ) (payload : Option (ℕ → Byte)) (len : ℕ) (s : Tcp) : ℤ × Tcp :=
  match s.findById connId, payload with
  | some c, some data =>
    if (s.conns c).state ≠ .established ∨ len = 0 then (nmErr nmEfail, s)
    else
      match s.findById (s.conns c).peerId with
      | none => (nmErr nmEfail, s)
      | some peer =>
        if (s.conns peer).state ≠ .established then (nmErr nmEfail, s)
        else
          let n := if len > tcpBufMax then tcpBufMax else len
          (n, s.setConn peer { s.conns peer with
            rxBuf := copyFirst n data (s.conns peer).rxBuf, rxLen := n })
  | _, _ => (nmErr nmEfail, s)

/-- The result is the count or an error, and the bytes stored to the payload buffer. -/
def tcpRecv (connId : ℤ) (payload : Bool) (cap : ℕ) (s : Tcp) : (ℤ × List Byte) × Tcp :=
  match s.findById connId with
  | none => ((nmErr nmEfail, []), s)
  | some c =>
    if (s.conns c).state ≠ .established ∨ payload = false then ((nmErr nmEfail, []), s)
    else if (s.conns c).rxLen = 0 then ((0, []), s)
    else
      let n := if (s.conns c).rxLen < cap then (s.conns c).rxLen else cap
      ((n, readFirst n (s.conns c).rxBuf), s.setConn c { s.conns c with rxLen := 0 })

def tcpClose (connId : ℤ) (s : Tcp) : ℤ × Tcp :=
  match s.findById connId with
  | none => (nmErr nmEfail, s)
  | some c => (0, s.setConn c { s.conns c with used := false })

end Tcp

end NeverMind
