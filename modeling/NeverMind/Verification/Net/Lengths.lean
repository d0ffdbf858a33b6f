import NeverMind.Library.Narrowing
import NeverMind.Library.Run
import NeverMind.Verification.Net.SocketSteps

/-! # Lengths of socket calls

`nm_sendto` and `nm_recvfrom` take a 64-bit length and hand it to the protocols as a `uint16_t`.
The protocols look at a length only up to what they can take or have, so that a length that is
reduced modulo `2 ^ 16` makes a difference exactly if it falls below that. -/

namespace NeverMind

open List Int

theorem taken_eq_min (len cap : ℕ) : (if len < cap then len else cap) = min cap len := by
  split <;> omega

theorem cut_eq_min (len most : ℕ) : (if len > most then most else len) = min len most := by
  split <;> omega

theorem zero_iff_of_min {a b most : ℕ} (hmost : 0 < most) (h : min a most = min b most) :
    a = 0 ↔ b = 0 := by
  omega

/-- The result of a send, an error for no data or the number of bytes that are kept, tells how
much is kept. -/
theorem min_eq_of_sent {a b most : ℕ}
    (h : (if a = 0 then nmErr nmEfail else ((min a most : ℕ) : ℤ)) =
      if b = 0 then nmErr nmEfail else ((min b most : ℕ) : ℤ)) : min a most = min b most := by
  have herr : nmErr nmEfail < 0 := by decide
  split at h <;> split at h <;> omega

/-! ## The protocols -/

namespace Udp

variable {u : Udp}

/-- The bytes that a datagram to a port can have: none, if the port is not bound or its queue is
full. -/
def room (dstPort : ℕ) (u : Udp) : ℕ :=
  match u.findPort dstPort with
  | none => 0
  | some i =>
    match (finRange 16).find? fun j => !((u.ports i).q j).used with
    | none => 0
    | some _ => udpPayloadMax

def inQueue (port : ℕ) (u : Udp) : ℕ :=
  match u.findPort port with
  | none => 0
  | some i =>
    match (finRange 16).find? fun j => ((u.ports i).q j).used with
    | none => 0
    | some j => ((u.ports i).q j).len

theorem usesUpTo_udpSendto (srcPort dstIp dstPort : ℕ) (data : ℕ → Byte) (u : Udp) :
    UsesUpTo (u.room dstPort) Prod.fst fun len =>
      u.udpSendto srcPort dstIp dstPort (some data) len := by
  unfold udpSendto udpDeliver room
  dsimp only
  cases u.findPort dstPort with
  | none => simpa using usesUpTo_const _ _
  | some i =>
    dsimp only
    cases (finRange 16).find? fun j => !((u.ports i).q j).used with
    | none => simpa using usesUpTo_const _ _
    | some j =>
      simp only [cut_eq_min]
      refine ⟨?_, ?_⟩
      · intro a b hmin
        have hzero : a = 0 ↔ b = 0 := zero_iff_of_min (by decide) hmin
        simp only [hmin, hzero]
      · intro a b hret
        apply min_eq_of_sent
        simpa [apply_ite Prod.fst] using hret

theorem usesUpTo_udpRecv (port : ℕ) (u : Udp) :
    UsesUpTo (u.inQueue port) (fun r => r.1.ret) fun cap => u.udpRecv port true cap := by
  unfold udpRecv inQueue
  cases u.findPort port with
  | none => exact usesUpTo_const _ _
  | some i =>
    simp only [Bool.true_eq_false, if_false]
    cases (finRange 16).find? fun j => ((u.ports i).q j).used with
    | none => exact usesUpTo_const _ _
    | some j =>
      simp only [taken_eq_min]
      refine ⟨?_, ?_⟩
      · intro a b hmin
        simp only [hmin]
      · intro a b hret
        exact ofNat_inj.mp hret

theorem udpRecv_mono (port : ℕ) (u : Udp) {a b : ℕ} (hab : a ≤ b) :
    (u.udpRecv port true a).1.bytes <+: (u.udpRecv port true b).1.bytes ∧
      (u.udpRecv port true a).1.ret ≤ (u.udpRecv port true b).1.ret := by
  unfold udpRecv
  cases u.findPort port with
  | none => exact ⟨prefix_rfl, le_refl _⟩
  | some i =>
    simp only [Bool.true_eq_false, if_false]
    cases (finRange 16).find? fun j => ((u.ports i).q j).used with
    | none => exact ⟨prefix_rfl, le_refl _⟩
    | some j =>
      simp only [taken_eq_min]
      exact ⟨prefix_readFirst (by omega) _, by omega⟩

end Udp

namespace Tcp

/-- The bytes that a send on a connection can have: none, if an end is not open. -/
def room (connId : ℤ) (s : Tcp) : ℕ :=
  match s.findById connId with
  | none => 0
  | some c =>
    if (s.conns c).state ≠ .established then 0
    else
      match s.findById (s.conns c).peerId with
      | none => 0
      | some peer => if (s.conns peer).state ≠ .established then 0 else tcpBufMax

def inBuffer (connId : ℤ) (s : Tcp) : ℕ :=
  match s.findById connId with
  | none => 0
  | some c => if (s.conns c).state ≠ .established then 0 else (s.conns c).rxLen

theorem usesUpTo_tcpSend (connId : ℤ) (data : ℕ → Byte) (s : Tcp) :
    UsesUpTo (s.room connId) Prod.fst fun len => s.tcpSend connId (some data) len := by
  unfold tcpSend room
  cases s.findById connId with
  | none => exact usesUpTo_const _ _
  | some c =>
    by_cases hopen : (s.conns c).state = .established
    · simp only [hopen, ne_eq, not_true_eq_false, false_or, if_false]
      cases s.findById (s.conns c).peerId with
      | none => simpa using usesUpTo_const _ _
      | some peer =>
        by_cases hpeer : (s.conns peer).state = .established
        · simp only [hpeer, not_true_eq_false, if_false, cut_eq_min]
          refine ⟨?_, ?_⟩
          · intro a b hmin
            have hzero : a = 0 ↔ b = 0 := zero_iff_of_min (by decide) hmin
            simp only [hmin, hzero]
          · intro a b hret
            apply min_eq_of_sent
            simpa [apply_ite Prod.fst] using hret
        · simpa [hpeer] using usesUpTo_const _ _
    · simpa [hopen] using usesUpTo_const _ _

theorem usesUpTo_tcpRecv (connId : ℤ) (s : Tcp) :
    UsesUpTo (s.inBuffer connId) (fun r => r.1.1) fun cap => s.tcpRecv connId true cap := by
  unfold tcpRecv inBuffer
  cases s.findById connId with
  | none => exact usesUpTo_const _ _
  | some c =>
    by_cases hopen : (s.conns c).state = .established
    · simp only [hopen, ne_eq, not_true_eq_false, Bool.true_eq_false, or_self, if_false,
        taken_eq_min]
      by_cases hempty : (s.conns c).rxLen = 0
      · simpa [hempty] using usesUpTo_const _ _
      · simp only [hempty, if_false]
        refine ⟨?_, ?_⟩
        · intro a b hmin
          simp only [hmin]
        · intro a b hret
          exact ofNat_inj.mp hret
    · simpa [hopen] using usesUpTo_const _ _

theorem tcpRecv_mono (connId : ℤ) (s : Tcp) {a b : ℕ} (hab : a ≤ b) :
    (s.tcpRecv connId true a).1.2 <+: (s.tcpRecv connId true b).1.2 ∧
      (s.tcpRecv connId true a).1.1 ≤ (s.tcpRecv connId true b).1.1 := by
  unfold tcpRecv
  cases s.findById connId with
  | none => exact ⟨prefix_rfl, le_refl _⟩
  | some c =>
    dsimp only
    split
    · exact ⟨prefix_rfl, le_refl _⟩
    · split
      · exact ⟨prefix_rfl, le_refl _⟩
      · simp only [taken_eq_min]
        exact ⟨prefix_readFirst (by omega) _, by omega⟩

end Tcp

/-! ## The socket calls -/

namespace Net

variable {s : Net}

/-- The bytes that a send can have in a state: those that the protocol has room for, once the
local port of a datagram socket is bound. -/
def sendLimit (fd : ℤ) (buf : Option (ℕ → Byte)) (addr : Option SockAddr) (s : Net) : ℕ :=
  match s.getSock fd with
  | none => 0
  | some i =>
    if buf.isNone then 0
    else
      match (s.socks i).type with
      | .dgram =>
        match addr with
        | none => 0
        | some addr =>
          let port := s.ensureLocalPort i
          let b := port.2.udp.udpBind port.1
          if b.1 ≠ 0 then 0 else b.2.room addr.sinPort
      | .stream => if (s.socks i).tcpConnId ≤ 0 then 0 else s.tcp.room (s.socks i).tcpConnId

def recvLimit (fd : ℤ) (buf : Bool) (s : Net) : ℕ :=
  match s.getSock fd with
  | none => 0
  | some i =>
    if buf = false then 0
    else
      match (s.socks i).type with
      | .dgram => s.udp.inQueue (s.socks i).localPort
      | .stream => if (s.socks i).tcpConnId ≤ 0 then 0 else s.tcp.inBuffer (s.socks i).tcpConnId

theorem narrows_nmSendto (fd : ℤ) (buf : Option (ℕ → Byte)) (addr : Option SockAddr) (s : Net) :
    Narrows (s.sendLimit fd buf addr) Prod.fst fun len => s.nmSendto fd buf len addr := by
  unfold nmSendto sendLimit
  cases s.getSock fd with
  | none => exact narrows_const _ (nmErr nmEfail, s) fun _ _ => rfl
  | some i =>
    cases buf with
    | none => exact narrows_const _ (nmErr nmEfail, s) fun _ _ => by simp
    | some data =>
      simp only [Option.isNone_some, Bool.false_eq_true, false_or, if_false]
      cases (s.socks i).type with
      | dgram =>
        cases addr with
        | none => exact narrows_const _ (nmErr nmEfail, s) fun _ _ => by simp
        | some addr =>
          obtain ⟨port, hport⟩ : ∃ port, port = s.ensureLocalPort i := ⟨_, rfl⟩
          simp only [← hport]
          by_cases hbound : (port.2.udp.udpBind port.1).1 = 0
          · simp only [hbound, ne_eq, not_true_eq_false, if_false]
            refine (Udp.usesUpTo_udpSendto port.1 addr.sinAddr addr.sinPort data _).narrows
              (w := fun r => (r.1, { port.2 with udp := r.2 })) (fun _ => rfl) ?_
            intro len hlen
            simp only [hlen, if_false]
          · simp only [hbound, ne_eq, not_false_eq_true, if_true]
            exact narrows_const _ _ fun _ hlen => if_neg hlen
      | stream =>
        by_cases hconn : (s.socks i).tcpConnId ≤ 0
        · simp only [hconn, if_true]
          exact narrows_const _ (nmErr nmEfail, s) fun _ hlen => if_neg hlen
        · simp only [hconn, if_false]
          refine (Tcp.usesUpTo_tcpSend (s.socks i).tcpConnId data s.tcp).narrows
            (w := fun r => (r.1, { s with tcp := r.2 })) (fun _ => rfl) ?_
          intro len hlen
          simp only [hlen, if_false]

theorem narrows_nmRecvfrom (fd : ℤ) (buf : Bool) (s : Net) :
    Narrows (s.recvLimit fd buf) (fun r => r.1.ret) fun len => s.nmRecvfrom fd buf len := by
  unfold nmRecvfrom recvLimit
  cases s.getSock fd with
  | none => exact narrows_const _ (⟨nmErr nmEfail, [], none⟩, s) fun _ _ => rfl
  | some i =>
    cases buf with
    | false => exact narrows_const _ (⟨nmErr nmEfail, [], none⟩, s) fun _ _ => by simp
    | true =>
      simp only [Bool.true_eq_false, false_or, if_false]
      cases (s.socks i).type with
      | dgram =>
        refine (Udp.usesUpTo_udpRecv (s.socks i).localPort s.udp).narrows
          (w := fun r => (⟨r.1.ret, r.1.bytes, if 0 ≤ r.1.ret then
            some ⟨nmAfInet, (r.1.source.getD (0, 0)).2, (r.1.source.getD (0, 0)).1⟩
            else none⟩, { s with udp := r.2 })) (fun _ => rfl) ?_
        intro len hlen
        simp only [hlen, if_false]
      | stream =>
        by_cases hconn : (s.socks i).tcpConnId ≤ 0
        · simp only [hconn, if_true]
          exact narrows_const _ (⟨nmErr nmEfail, [], none⟩, s) fun _ hlen => if_neg hlen
        · simp only [hconn, if_false]
          refine (Tcp.usesUpTo_tcpRecv (s.socks i).tcpConnId s.tcp).narrows
            (w := fun r => (⟨r.1.1, r.1.2, none⟩, { s with tcp := r.2 })) (fun _ => rfl) ?_
          intro len hlen
          simp only [hlen, if_false]

/-- A receive with a larger narrowed length has the bytes of one with a smaller, and more. -/
theorem nmRecvfrom_mono (fd : ℤ) (buf : Bool) (s : Net) {a b : ℕ} (ha : a ≠ 0) (hb : b ≠ 0)
    (hab : a % 2 ^ 16 ≤ b % 2 ^ 16) :
    (s.nmRecvfrom fd buf a).1.bytes <+: (s.nmRecvfrom fd buf b).1.bytes ∧
      (s.nmRecvfrom fd buf a).1.ret ≤ (s.nmRecvfrom fd buf b).1.ret := by
  unfold nmRecvfrom
  cases s.getSock fd with
  | none => exact ⟨prefix_rfl, le_refl _⟩
  | some i =>
    cases buf with
    | false => exact ⟨prefix_rfl, le_refl _⟩
    | true =>
      simp only [Bool.true_eq_false, ha, hb, or_self, if_false]
      cases (s.socks i).type with
      | dgram => exact Udp.udpRecv_mono _ _ hab
      | stream =>
        dsimp only
        split
        · exact ⟨prefix_rfl, le_refl _⟩
        · exact Tcp.tcpRecv_mono _ _ hab

/-- A send with a length does what it does with the length cut at 65535. -/
def SendKeepsLength (fd : ℤ) (buf : Option (ℕ → Byte)) (len : ℕ) (addr : Option SockAddr)
    (s : Net) : Prop :=
  s.nmSendto fd buf len addr = s.nmSendto fd buf (min len 65535) addr

/-- A receive with a length does what it does with the length cut at 65535, and a receive with a
smaller one has no more bytes. -/
structure RecvKeepsLength (fd : ℤ) (buf : Bool) (len : ℕ) (s : Net) : Prop where
  same : s.nmRecvfrom fd buf len = s.nmRecvfrom fd buf (min len 65535)
  larger : ∀ a, 1 ≤ a → a ≤ len →
    (s.nmRecvfrom fd buf a).1.bytes <+: (s.nmRecvfrom fd buf len).1.bytes ∧
      (s.nmRecvfrom fd buf a).1.ret ≤ (s.nmRecvfrom fd buf len).1.ret

theorem recvKeepsLength_iff (fd : ℤ) (buf : Bool) {len : ℕ} (hlen : 1 ≤ len) (s : Net) :
    RecvKeepsLength fd buf len s ↔
      s.nmRecvfrom fd buf len = s.nmRecvfrom fd buf (min len 65535) := by
  refine ⟨fun h => h.same, fun hsame => ⟨hsame, ?_⟩⟩
  intro a ha hle
  rw [hsame]
  exact nmRecvfrom_mono fd buf s (by omega) (by omega) (by omega)

/-- In every state, and for every length of at least 1, a send and a receive treat the length as
`min len 65535` exactly if it is that, or if it is still enough modulo `2 ^ 16` for what they can
send or take. -/
theorem socket_lengths_kept_iff (fd : ℤ) (buf : Option (ℕ → Byte)) (dst : Bool)
    (addr : Option SockAddr) {len : ℕ} (hlen : 1 ≤ len) (s : Net) :
    (SendKeepsLength fd buf len addr s ↔
      len ≤ 65535 ∨ min (s.sendLimit fd buf addr) 65535 ≤ len % 2 ^ 16) ∧
    (RecvKeepsLength fd dst len s ↔ len ≤ 65535 ∨ min (s.recvLimit fd dst) 65535 ≤ len % 2 ^ 16) :=
  ⟨(narrows_nmSendto fd buf addr s).eq_iff len,
    (recvKeepsLength_iff fd dst hlen s).trans ((narrows_nmRecvfrom fd dst s).eq_iff len)⟩

def oneQueued : Net :=
  runCalls next [.socket nmAfInet nmSockDgram 0, .bind 0 (some ⟨nmAfInet, 7, 0⟩),
    .sendto 0 (some fun _ => 5) 4 (some ⟨nmAfInet, 7, 0⟩)] atStart

theorem socket_lengths_kept_queued :
    1 ≤ 65540 ∧ oneQueued.recvLimit 0 true = 4 ∧ RecvKeepsLength 0 true 65540 oneQueued := by
  have hlimit : oneQueued.recvLimit 0 true = 4 := by decide +kernel
  refine ⟨by decide, hlimit, ?_⟩
  refine ((socket_lengths_kept_iff 0 none true none (by decide) oneQueued).2).mpr (.inr ?_)
  rw [hlimit]
  decide

/-- A receive of 65536 bytes returns none of the four, and the datagram is gone. -/
theorem receive_of_65536_loses_datagram :
    (oneQueued.nmRecvfrom 0 true 65536).1.ret = 0 ∧
      (oneQueued.nmRecvfrom 0 true 65536).2.recvLimit 0 true = 0 ∧
      ¬ RecvKeepsLength 0 true 65536 oneQueued := by
  have hret : (oneQueued.nmRecvfrom 0 true 65536).1.ret = 0 := by decide +kernel
  have hcut : (oneQueued.nmRecvfrom 0 true 65535).1.ret = 4 := by decide +kernel
  refine ⟨hret, by decide +kernel, fun hkeeps => ?_⟩
  have hsame := congrArg (fun r => r.1.ret) hkeeps.same
  rw [hret, show min 65536 65535 = 65535 by decide, hcut] at hsame
  cases hsame

end Net

end NeverMind
