import NeverMind.Library.Buffer
import NeverMind.Model.Fd

/-! # UDP ports

`kernel/net/udp.c`: 64 port entries with a queue of 16 messages each. A local send and a
packet from the wire both end in `udp_deliver`. The spin lock is released before every call
returns. The counters of `net_stats_note_udp_rx` and `net_stats_note_udp_tx` belong to
`net.c`. -/

namespace NeverMind

def udpPayloadMax : ℕ := 1500

/-- `struct udp_msg`. -/
structure UdpMsg where
  used : Bool
  srcIp : ℕ
  srcPort : ℕ
  len : ℕ
  payload : Fin 1500 → Byte

/-- `struct udp_port`. -/
structure UdpPort where
  used : Bool
  port : ℕ
  q : Fin 16 → UdpMsg

/-- A pointer into the port table. -/
abbrev PortRef := Fin 64

/-- The static variables of `udp.c`. -/
structure Udp where
  ports : PortRef → UdpPort

/-- The static variables at the start of the kernel. -/
def Udp.atStart : Udp where
  ports := fun _ => ⟨false, 0, fun _ => ⟨false, 0, 0, 0, fun _ => 0⟩⟩

namespace Udp

def setPort (i : PortRef) (p : UdpPort) (s : Udp) : Udp :=
  { s with ports := Function.update s.ports i p }

def findPort (port : ℕ) (s : Udp) : Option PortRef :=
  (List.finRange 64).find? fun i => (s.ports i).used && (s.ports i).port == port

def udpBind (port : ℕ) (s : Udp) : ℤ × Udp :=
  if port = 0 then (nmErr nmEfail, s)
  else
    match s.findPort port with
    | some _ => (0, s)
    | none =>
      match (List.finRange 64).find? fun i => !(s.ports i).used with
      | none => (nmErr nmEfail, s)
      | some i =>
        (0, s.setPort i
          { used := true, port := port, q := fun j => { (s.ports i).q j with used := false } })

def udpUnbind (port : ℕ) (s : Udp) : ℤ × Udp :=
  match s.findPort port with
  | none => (nmErr nmEfail, s)
  | some i => (0, s.setPort i { s.ports i with used := false })

def udpDeliver (dstPort srcIp srcPort : ℕ) (payload : ℕ → Byte) (len : ℕ) (s : Udp) : ℤ × Udp :=
  match s.findPort dstPort with
  | none => (nmErr nmEfail, s)
  | some i =>
    match (List.finRange 16).find? fun j => !((s.ports i).q j).used with
    | none => (nmErr nmEfail, s)
    | some j =>
      let n := if len > udpPayloadMax then udpPayloadMax else len
      let msg : UdpMsg :=
        { used := true, srcIp := srcIp, srcPort := srcPort, len := n
          payload := copyFirst n payload ((s.ports i).q j).payload }
      (n, s.setPort i { s.ports i with q := Function.update (s.ports i).q j msg })

/-- The destination address is recorded as the source, since every destination is local. -/
def udpSendto (srcPort dstIp dstPort : ℕ) (payload : Option (ℕ → Byte)) (len : ℕ) (s : Udp) :
    ℤ × Udp :=
  match payload with
  | none => (nmErr nmEfail, s)
  | some data => if len = 0 then (nmErr nmEfail, s) else s.udpDeliver dstPort dstIp srcPort data len

/-- What a receive stores: the bytes, and the source when a message was taken. -/
structure UdpReceived where
  ret : ℤ
  bytes : List Byte
  source : Option (ℕ × ℕ)
  deriving Repr, DecidableEq

def udpRecv (port : ℕ) (payload : Bool) (cap : ℕ) (s : Udp) : UdpReceived × Udp :=
  match s.findPort port with
  | none => (⟨nmErr nmEfail, [], none⟩, s)
  | some i =>
    if payload = false then (⟨nmErr nmEfail, [], none⟩, s)
    else
      match (List.finRange 16).find? fun j => ((s.ports i).q j).used with
      | none => (⟨0, [], none⟩, s)
      | some j =>
        let msg := (s.ports i).q j
        let n := if msg.len < cap then msg.len else cap
        (⟨n, readFirst n msg.payload, some (msg.srcIp, msg.srcPort)⟩, s.setPort i { s.ports i with
            q := Function.update (s.ports i).q j { msg with used := false } })

/-- A big-endian 16-bit field. -/
def field16 (payload : ℕ → Byte) (at_ : ℕ) : ℕ :=
  (payload at_).toNat * 256 + (payload (at_ + 1)).toNat

def udpInput (srcIp : ℕ) (payload : Option (ℕ → Byte)) (len : ℕ) (s : Udp) : Udp :=
  match payload with
  | none => s
  | some data =>
    if len < 8 then s
    else if field16 data 4 < 8 ∨ field16 data 4 > len then s
    else
      (s.udpDeliver (field16 data 2) srcIp (field16 data 0) (fun i => data (8 + i))
        (field16 data 4 - 8)).2

end Udp

end NeverMind
