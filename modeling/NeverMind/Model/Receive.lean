import NeverMind.Library.Reads
import NeverMind.Model.Arp
import NeverMind.Model.Udp

/-! # The receive path

`net_input_frame` of `kernel/net/net.c` and what it calls: `arp_input`, `ipv4_input`,
`icmp_input`, `udp_input` and `tcp_input`. Every read of the frame is recorded with its index.
The counters that the path does not touch are left out. -/

namespace NeverMind

def nmEthTypeArp : ℕ := 0x0806

def nmEthTypeIpv4 : ℕ := 0x0800

def nmIpProtoIcmp : ℕ := 1

def nmIpProtoTcp : ℕ := 6

def nmIpProtoUdp : ℕ := 17

/-- `sizeof(struct eth_hdr)`. -/
def ethHdrSize : ℕ := 14

/-- `struct nm_net_stats`. -/
structure NmNetStats where
  rxFrames : ℕ
  rxDropped : ℕ
  icmpEchoReq : ℕ
  icmpEchoRep : ℕ
  udpRx : ℕ

/-- The static variables of `net.c`, `arp.c` and `udp.c`. -/
structure Receiver where
  stats : NmNetStats
  arp : Arp
  udp : Udp

namespace Pointer

/-- A big-endian field of 16 bits. -/
def read16 (p : Pointer Byte) (i : ℕ) : Reads ℕ := do
  let high ← p.read i
  let low ← p.read (i + 1)
  return high.toNat * 2 ^ 8 + low.toNat

/-- A big-endian field of 32 bits. -/
def read32 (p : Pointer Byte) (i : ℕ) : Reads ℕ := do
  let high ← p.read16 i
  let low ← p.read16 (i + 2)
  return high * 2 ^ 16 + low

/-- A field of type `uint16_t` on a little-endian machine. -/
def load16 (p : Pointer Byte) (i : ℕ) : Reads ℕ := do
  let low ← p.read i
  let high ← p.read (i + 1)
  return high.toNat * 2 ^ 8 + low.toNat

end Pointer

def bswap16 (v : ℕ) : ℕ := (v >>> 8 ||| v <<< 8) % 2 ^ 16

namespace Receiver

/-- The part of `net_init` that clears the statistics. -/
def netInit (s : Receiver) : Receiver := { s with stats := ⟨0, 0, 0, 0, 0⟩ }

def netStatsNoteIcmpReq (s : Receiver) : Receiver :=
  { s with stats := { s.stats with icmpEchoReq := u64 (s.stats.icmpEchoReq + 1) } }

def netStatsNoteIcmpRep (s : Receiver) : Receiver :=
  { s with stats := { s.stats with icmpEchoRep := u64 (s.stats.icmpEchoRep + 1) } }

def netStatsNoteUdpRx (s : Receiver) : Receiver :=
  { s with stats := { s.stats with udpRx := u64 (s.stats.udpRx + 1) } }

/-- `stats.rx_frames++`. -/
def noteRxFrame (s : Receiver) : Receiver :=
  { s with stats := { s.stats with rxFrames := u64 (s.stats.rxFrames + 1) } }

/-- `stats.rx_dropped++`. -/
def noteRxDropped (s : Receiver) : Receiver :=
  { s with stats := { s.stats with rxDropped := u64 (s.stats.rxDropped + 1) } }

def arpInput (packet : Option (Pointer Byte)) (len : ℕ) (s : Receiver) : Reads Receiver :=
  match packet with
  | none => pure s
  | some packet =>
    if len < 28 then pure s
    else do
      let spa ← packet.read32 14
      let sha ← (packet.advance 8).copyTo 6 fun _ => 0
      return { s with arp := s.arp.arpCacheAdd spa sha }

def icmpInput (payload : Option (Pointer Byte)) (len : ℕ) (s : Receiver) : Reads Receiver :=
  match payload with
  | none => pure s
  | some payload =>
    if len < 8 then pure s
    else do
      let type ← payload.read 0
      if type.toNat = 8 then return s.netStatsNoteIcmpReq.netStatsNoteIcmpRep
      else if type.toNat = 0 then return s.netStatsNoteIcmpRep
      else return s

/-- The payload is read only when there is a free slot for it. -/
def udpDeliver (dstPort srcIp srcPort : ℕ) (payload : Pointer Byte) (len : ℕ) (s : Receiver) :
    Reads (ℤ × Receiver) :=
  match s.udp.findPort dstPort with
  | none => pure (nmErr nmEfail, s)
  | some i =>
    match (List.finRange 16).find? fun j => !((s.udp.ports i).q j).used with
    | none => pure (nmErr nmEfail, s)
    | some j => do
        let n := if len > udpPayloadMax then udpPayloadMax else len
        let bytes ← payload.copyTo n ((s.udp.ports i).q j).payload
        let msg : UdpMsg :=
          { used := true, srcIp := srcIp, srcPort := srcPort, len := n, payload := bytes }
        let entry := { s.udp.ports i with q := Function.update (s.udp.ports i).q j msg }
        return (n, netStatsNoteUdpRx { s with udp := s.udp.setPort i entry })

def udpInput (srcIp : ℕ) (payload : Option (Pointer Byte)) (len : ℕ) (s : Receiver) :
    Reads Receiver :=
  match payload with
  | none => pure s
  | some payload =>
    if len < 8 then pure s
    else do
      let srcPort ← payload.read16 0
      let dstPort ← payload.read16 2
      let udpLen ← payload.read16 4
      if udpLen < 8 ∨ udpLen > len then return s
      else
        let r ← s.udpDeliver dstPort srcIp srcPort (payload.advance 8) (udpLen - 8)
        return r.2

/-- The body is empty. -/
def tcpInput (s : Receiver) : Receiver := s

def ipv4Input (packet : Option (Pointer Byte)) (len : ℕ) (s : Receiver) : Reads Receiver :=
  match packet with
  | none => pure s
  | some packet =>
    if len < 20 then pure s
    else do
      let first ← packet.read 0
      let ihl := (first &&& 0x0F).toNat * 4 % 2 ^ 8
      if ihl < 20 ∨ len < ihl then return s
      else
        let proto ← packet.read 9
        let srcIp ← packet.read32 12
        -- `dst_ip` is read and handed on, but no protocol looks at it
        let _dstIp ← packet.read32 16
        let payload := packet.advance ihl
        let payloadLen := (len - ihl) % 2 ^ 16
        if proto.toNat = nmIpProtoIcmp then s.icmpInput (some payload) payloadLen
        else if proto.toNat = nmIpProtoUdp then s.udpInput srcIp (some payload) payloadLen
        else if proto.toNat = nmIpProtoTcp then return s.tcpInput
        else return s

def netInputFrame (frame : Option (ℕ → Byte)) (len : ℕ) (s : Receiver) : Reads (ℤ × Receiver) :=
  match frame with
  | none => pure (nmErr nmEfail, s.noteRxDropped)
  | some frame =>
    if len < ethHdrSize then pure (nmErr nmEfail, s.noteRxDropped)
    else do
      let eth : Pointer Byte := ⟨frame, 0⟩
      let ethType ← bswap16 <$> eth.load16 12
      let s := s.noteRxFrame
      let payload := eth.advance ethHdrSize
      let payloadLen := (len - ethHdrSize) % 2 ^ 16
      if ethType = nmEthTypeArp then
        let s ← s.arpInput (some payload) payloadLen
        return (0, s)
      else if ethType = nmEthTypeIpv4 then
        let s ← s.ipv4Input (some payload) payloadLen
        return (0, s)
      else return (nmErr nmEfail, s.noteRxDropped)

end Receiver

end NeverMind
