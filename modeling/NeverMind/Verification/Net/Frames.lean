import NeverMind.Verification.Net.ReceivePath

/-! # Encoded datagrams

The frames that carry a UDP datagram, written out byte by byte, and what the receive path does
with them. -/

namespace NeverMind

/-! ## Encoding -/

def be16 (n : BitVec 16) : List Byte := [BitVec.ofNat 8 (n.toNat / 2 ^ 8), BitVec.ofNat 8 n.toNat]

def be32 (n : BitVec 32) : List Byte :=
  be16 (BitVec.ofNat 16 (n.toNat / 2 ^ 16)) ++ be16 (BitVec.ofNat 16 n.toNat)

/-- The fields of an Ethernet frame with a UDP datagram in an IPv4 packet. The header has
`optionWords` words of options, and anything may follow the datagram. -/
structure UdpFrame where
  macs : Fin 12 → Byte
  version : ℕ
  optionWords : ℕ
  tos : Byte
  totalLength : BitVec 16
  identification : BitVec 16
  fragment : BitVec 16
  ttl : Byte
  headerChecksum : BitVec 16
  srcIp : BitVec 32
  dstIp : BitVec 32
  options : List Byte
  srcPort : BitVec 16
  dstPort : BitVec 16
  udpChecksum : BitVec 16
  payload : List Byte
  padding : List Byte
  optionWords_le : optionWords ≤ 10
  length_options : options.length = 4 * optionWords
  length_payload : payload.length ≤ 1500

namespace UdpFrame

def ihl (f : UdpFrame) : ℕ := 5 + f.optionWords

def ethHeader (f : UdpFrame) : List Byte := List.ofFn f.macs ++ [0x08, 0x00]

def ipHeader (f : UdpFrame) : List Byte :=
  [BitVec.ofNat 8 (16 * f.version + f.ihl), f.tos] ++ be16 f.totalLength ++ be16 f.identification ++
    be16 f.fragment ++ [f.ttl, 17] ++ be16 f.headerChecksum ++ be32 f.srcIp ++ be32 f.dstIp ++
    f.options

def udpHeader (f : UdpFrame) : List Byte :=
  be16 f.srcPort ++ be16 f.dstPort ++ be16 (BitVec.ofNat 16 (8 + f.payload.length)) ++
    be16 f.udpChecksum

def bytes (f : UdpFrame) : List Byte :=
  f.ethHeader ++ (f.ipHeader ++ (f.udpHeader ++ (f.payload ++ f.padding)))

def datagram (f : UdpFrame) : Datagram := ⟨f.srcIp.toNat, f.srcPort.toNat, f.payload⟩

end UdpFrame

theorem field16_of_bytes {buf : ℕ → Byte} {i n : ℕ} (hn : n < 2 ^ 16)
    (hhigh : buf i = BitVec.ofNat 8 (n / 2 ^ 8)) (hlow : buf (i + 1) = BitVec.ofNat 8 n) :
    Udp.field16 buf i = n := by
  rw [Udp.field16, hhigh, hlow, BitVec.toNat_ofNat, BitVec.toNat_ofNat]
  omega

namespace UdpFrame

variable {f : UdpFrame} {buf : ℕ → Byte}

@[simp] theorem length_ethHeader (f : UdpFrame) : f.ethHeader.length = 14 := by
  simp [ethHeader]

@[simp] theorem length_ipHeader (f : UdpFrame) : f.ipHeader.length = 4 * f.ihl := by
  simp [ipHeader, be16, be32, f.length_options, ihl]
  omega

@[simp] theorem length_udpHeader (f : UdpFrame) : f.udpHeader.length = 8 := by
  simp [udpHeader, be16]

theorem length_bytes (f : UdpFrame) :
    f.bytes.length = 14 + 4 * f.ihl + 8 + f.payload.length + f.padding.length := by
  simp [bytes]
  omega

theorem startsWith_bytes (h : StartsWith buf f.bytes) :
    StartsWith buf f.ethHeader ∧ StartsWith (fun i => buf (14 + i)) f.ipHeader ∧
      StartsWith (fun i => buf (14 + 4 * f.ihl + i)) f.udpHeader ∧
        StartsWith (fun i => buf (14 + 4 * f.ihl + 8 + i)) f.payload := by
  simp only [bytes, startsWith_append, length_ethHeader, length_ipHeader, length_udpHeader] at h
  obtain ⟨heth, hip, hudp, hpayload, -⟩ := h
  exact ⟨heth, hip, by simpa only [Nat.add_assoc] using hudp,
    by simpa only [Nat.add_assoc] using hpayload⟩

theorem ethType_eq (h : StartsWith buf f.ethHeader) : Udp.field16 buf 12 = nmEthTypeIpv4 := by
  rw [ethHeader, startsWith_append, List.length_ofFn, startsWith_cons, startsWith_cons] at h
  obtain ⟨-, hhigh, hlow, -⟩ := h
  have hhigh : buf 12 = 0x08 := hhigh
  have hlow : buf 13 = 0x00 := hlow
  rw [Udp.field16, hhigh, hlow]
  rfl

theorem ipHeader_fields (h : StartsWith (fun i => buf (14 + i)) f.ipHeader) :
    Frame.ihl buf = f.ihl ∧ (buf 23).toNat = nmIpProtoUdp ∧ Frame.srcIp buf = f.srcIp.toNat := by
  simp only [ipHeader, be16, be32, List.cons_append, List.nil_append, startsWith_cons] at h
  obtain ⟨h14, -, -, -, -, -, -, -, -, h23, -, -, h26, h27, h28, h29, -⟩ := h
  refine ⟨?_, ?_, ?_⟩
  · have hfirst : buf 14 = BitVec.ofNat 8 (16 * f.version + f.ihl) := h14
    have hwords := f.optionWords_le
    rw [Frame.ihl, hfirst, BitVec.toNat_ofNat, ihl]
    omega
  · have hproto : buf 23 = 17 := h23
    rw [hproto]
    rfl
  · have hhigh := field16_of_bytes (BitVec.isLt _) h26 h27
    have hlow := field16_of_bytes (BitVec.isLt _) h28 h29
    have hlt := f.srcIp.isLt
    rw [BitVec.toNat_ofNat] at hhigh hlow
    change Udp.field16 buf 26 = _ at hhigh
    change Udp.field16 buf 28 = _ at hlow
    rw [Frame.srcIp, hhigh, hlow]
    omega

theorem udpHeader_fields (hihl : Frame.ihl buf = f.ihl)
    (h : StartsWith (fun i => buf (14 + 4 * f.ihl + i)) f.udpHeader) :
    Frame.srcPort buf = f.srcPort.toNat ∧ Frame.dstPort buf = f.dstPort.toNat ∧
      Frame.udpLen buf = 8 + f.payload.length := by
  simp only [udpHeader, be16, List.cons_append, List.nil_append, startsWith_cons] at h
  obtain ⟨h0, h1, h2, h3, h4, h5, -⟩ := h
  rw [← hihl] at h0 h1 h2 h3 h4 h5
  have hlen := field16_of_bytes (i := Frame.udpAt buf + 4) (BitVec.isLt _) h4 h5
  have hpayload := f.length_payload
  refine ⟨field16_of_bytes (BitVec.isLt _) h0 h1, field16_of_bytes (BitVec.isLt _) h2 h3, ?_⟩
  rw [BitVec.toNat_ofNat] at hlen
  rw [Frame.udpLen, hlen]
  omega

/-- The frame in memory is accepted unless the bytes after the Ethernet header are too many for
a `uint16_t`, and its fields are those that were encoded. -/
theorem accepted (h : StartsWith buf f.bytes)
    (hcount : 4 * f.ihl + 8 + f.payload.length ≤ Frame.ipLen f.bytes.length) :
    Frame.Accepted buf f.bytes.length ∧ Frame.dstPort buf = f.dstPort.toNat ∧
      Frame.srcIp buf = f.srcIp.toNat ∧ Frame.srcPort buf = f.srcPort.toNat ∧
        Udp.kept (Frame.payload buf) (Frame.udpLen buf - 8) = f.payload := by
  obtain ⟨heth, hip, hudp, hbytes⟩ := startsWith_bytes h
  obtain ⟨hihl, hproto, hsrcIp⟩ := ipHeader_fields hip
  obtain ⟨hsrcPort, hdstPort, hlen⟩ := udpHeader_fields hihl hudp
  have hpayload := f.length_payload
  have hlength := f.length_bytes
  refine ⟨⟨by omega, ethType_eq heth, ?_, hproto, by omega, by omega⟩, hdstPort, hsrcIp,
    hsrcPort, ?_⟩
  · rw [hihl, ihl]
    omega
  · rw [Udp.kept, hlen, Nat.add_sub_cancel_left, Nat.min_eq_left hpayload]
    rw [← hihl] at hbytes
    exact hbytes

end UdpFrame

/-! ## Delivery -/

/-- One datagram joins the queue of a port, and nothing else in the queues or in the ARP cache
changes. -/
structure Receiver.Queues (port : ℕ) (d : Datagram) (s s' : Receiver) : Prop where
  queued : s'.udp.queuedAt port = d ::ₘ s.udp.queuedAt port
  others : ∀ q, port ≠ q → s'.udp.queuedAt q = s.udp.queuedAt q
  arp : s'.arp = s.arp

namespace Udp

variable {s : Udp} {port : ℕ}

theorem queuedAt_udpDeliver {srcIp srcPort : ℕ} {data : ℕ → Byte} {len : ℕ}
    (h : s.udpDeliver port srcIp srcPort data len ≠ (nmErr nmEfail, s)) :
    queuedAt port (s.udpDeliver port srcIp srcPort data len).2 =
        ⟨srcIp, srcPort, kept data len⟩ ::ₘ queuedAt port s ∧
      ∀ q, port ≠ q → queuedAt q (s.udpDeliver port srcIp srcPort data len).2 = queuedAt q s := by
  have hfills := udpDeliver_fills port srcIp srcPort data len s
  generalize s.udpDeliver port srcIp srcPort data len = r at h hfills ⊢
  cases hfills with
  | refused hroom => exact absurd rfl h
  | filled i k msg hfound hfree hbelow hlen hmsg =>
    have hstep := queueStep_update hfound k fun _ => hlen
    exact ⟨queuedAt_of_filled hfound hfree (hstep.orderAt_self.trans (ordered_fill hmsg)),
      fun q hne => (hstep.agree_of_ne hne).queuedAt_eq⟩

end Udp

namespace Receiver

open NeverMind.Frame

theorem Queues.udp_ne {port : ℕ} {d : Datagram} {s s' : Receiver} (h : Queues port d s s') :
    s'.udp ≠ s.udp := by
  intro hsame
  have hcard := congrArg Multiset.card h.queued
  rw [hsame, Multiset.card_cons] at hcard
  omega

/-- An accepted frame that is not refused at its port queues the datagram that it carries. -/
theorem queues_of_accepted {buf : ℕ → Byte} {len : ℕ} {s : Receiver} (h : Accepted buf len)
    (hdeliver : s.udp.udpDeliver (dstPort buf) (srcIp buf) (srcPort buf) (payload buf)
      (udpLen buf - 8) ≠ (nmErr nmEfail, s.udp)) :
    Queues (dstPort buf) ⟨srcIp buf, srcPort buf, Udp.kept (payload buf) (udpLen buf - 8)⟩ s
      (s.netInputFrame (some buf) len).val.2 := by
  obtain ⟨hnot, -⟩ | ⟨-, harp, hudp⟩ := netInputFrame_val buf len s
  · exact absurd h hnot
  · obtain ⟨hqueued, hothers⟩ := Udp.queuedAt_udpDeliver hdeliver
    refine ⟨?_, ?_, harp⟩
    · rw [hudp, hqueued]
    · rw [hudp]
      exact hothers

theorem queues_encoded {f : UdpFrame} {buf : ℕ → Byte} {s : Receiver}
    (hbuf : StartsWith buf f.bytes)
    (hcount : 4 * f.ihl + 8 + f.payload.length ≤ ipLen f.bytes.length)
    (hroom : s.udp.HasRoom f.dstPort.toNat) :
    Queues f.dstPort.toNat f.datagram s (s.netInputFrame (some buf) f.bytes.length).val.2 := by
  obtain ⟨haccepted, hdst, hsrc, hport, hbytes⟩ := UdpFrame.accepted hbuf hcount
  rw [← hdst] at hroom
  have hqueues := queues_of_accepted haccepted fun hrefused => by
    have hret := hroom.udpDeliver (srcIp buf) (srcPort buf) (payload buf) (udpLen buf - 8)
    rw [hrefused] at hret
    exact nmErr_nmEfail_neg.not_ge hret
  rw [hdst, hsrc, hport, hbytes] at hqueues
  exact hqueues

/-- No byte outside the frame is read, and an encoded datagram whose port has room is queued. -/
theorem netInputFrame_receives :
    (∀ frame len (s : Receiver), ∀ k ∈ (s.netInputFrame frame len).addrs, k < len) ∧
      ∀ (f : UdpFrame) (buf : ℕ → Byte) (s : Receiver), StartsWith buf f.bytes →
        f.bytes.length ≤ 2048 → s.udp.HasRoom f.dstPort.toNat →
        Queues f.dstPort.toNat f.datagram s
          (s.netInputFrame (some buf) f.bytes.length).val.2 := by
  refine ⟨within_netInputFrame, fun f buf s hbuf hlen hroom => queues_encoded hbuf ?_ hroom⟩
  have hlength := f.length_bytes
  rw [ipLen]
  omega

def oneByteFrame (padding : List Byte) : UdpFrame where
  macs := fun _ => 0x52
  version := 4
  optionWords := 0
  tos := 0
  totalLength := 29
  identification := 0
  fragment := 0x4000
  ttl := 64
  headerChecksum := 0xB719
  srcIp := 0xC0A80102
  dstIp := 0xC0A80164
  options := []
  srcPort := 9
  dstPort := 7
  udpChecksum := 0
  payload := [42]
  padding := padding
  optionWords_le := Nat.zero_le _
  length_options := rfl
  length_payload := Nat.le_add_left 1 1499

def listening : Receiver := ⟨⟨0, 0, 0, 0, 0⟩, Arp.atStart, (Udp.atStart.udpBind 7).2⟩

theorem hasRoom_listening : listening.udp.HasRoom 7 := ⟨0, by decide +kernel, 0, by decide +kernel⟩

theorem netInputFrame_receives_oneByte :
    Queues 7 ⟨0xC0A80102, 9, [42]⟩ listening
      (listening.netInputFrame (some fun i => (oneByteFrame [0, 0, 0]).bytes.getD i 0) 46).val.2 :=
  netInputFrame_receives.2 (oneByteFrame [0, 0, 0]) _ listening startsWith_getD (by decide +kernel)
    hasRoom_listening

/-! ## Acceptance -/

/-- A datagram is queued only for an accepted frame, and it is the one that the frame carries,
with all its bytes within the frame. -/
theorem netInputFrame_accepts {buf : ℕ → Byte} {len : ℕ} {s : Receiver}
    (h : (s.netInputFrame (some buf) len).val.2.udp ≠ s.udp) :
    Accepted buf len ∧ udpAt buf + udpLen buf ≤ len ∧
      Queues (dstPort buf) ⟨srcIp buf, srcPort buf, Udp.kept (payload buf) (udpLen buf - 8)⟩ s
        (s.netInputFrame (some buf) len).val.2 := by
  obtain ⟨-, hsame⟩ | ⟨haccepted, -, hudp⟩ := netInputFrame_val buf len s
  · exact absurd hsame h
  · refine ⟨haccepted, ?_, queues_of_accepted haccepted fun hrefused => ?_⟩
    · have hheader := haccepted.eth_header
      have hfits := haccepted.udp_fits
      have hcount := Nat.mod_le (len - 14) (2 ^ 16)
      rw [ipLen] at hfits
      rw [udpAt]
      omega
    · rw [hudp, hrefused] at h
      exact h rfl

theorem netInputFrame_accepts_oneByte :
    Accepted (fun i => (oneByteFrame []).bytes.getD i 0) 43 := by
  have hqueues := queues_encoded (f := oneByteFrame []) startsWith_getD (by decide +kernel)
    hasRoom_listening
  exact (netInputFrame_accepts hqueues.udp_ne).1

def badHeaderFrame (totalLength : BitVec 16) : UdpFrame :=
  { oneByteFrame [] with version := 6, fragment := 1, totalLength := totalLength }

theorem badHeaderFrame_queued (totalLength : BitVec 16) :
    (listening.netInputFrame (some fun i => (badHeaderFrame totalLength).bytes.getD i 0)
      43).val.2.udp ≠ listening.udp := by
  have hlength : (badHeaderFrame totalLength).bytes.length = 43 := UdpFrame.length_bytes _
  have hcount : 4 * (badHeaderFrame totalLength).ihl + 8 +
      (badHeaderFrame totalLength).payload.length ≤
        ipLen (badHeaderFrame totalLength).bytes.length := by
    rw [hlength]
    exact le_rfl
  have hqueues := queues_encoded startsWith_getD hcount hasRoom_listening
  rw [hlength] at hqueues
  exact hqueues.udp_ne

/-- Neither the version, nor the fragment offset, nor the total length is what it should be when
a datagram is queued. -/
theorem bad_headers_queued :
    ¬ (∀ (buf : ℕ → Byte) (len : ℕ) (s : Receiver),
        (s.netInputFrame (some buf) len).val.2.udp ≠ s.udp → (buf 14).toNat / 16 = 4) ∧
      ¬ (∀ (buf : ℕ → Byte) (len : ℕ) (s : Receiver),
        (s.netInputFrame (some buf) len).val.2.udp ≠ s.udp → Udp.field16 buf 20 % 2 ^ 13 = 0) ∧
      ¬ (∀ (buf : ℕ → Byte) (len : ℕ) (s : Receiver),
        (s.netInputFrame (some buf) len).val.2.udp ≠ s.udp →
          4 * ihl buf + 8 ≤ Udp.field16 buf 16) ∧
      ¬ (∀ (buf : ℕ → Byte) (len : ℕ) (s : Receiver),
        (s.netInputFrame (some buf) len).val.2.udp ≠ s.udp → Udp.field16 buf 16 ≤ ipLen len) ∧
      ¬ (∀ (buf : ℕ → Byte) (len : ℕ) (s : Receiver),
        (s.netInputFrame (some buf) len).val.2.udp ≠ s.udp →
          udpLen buf ≤ Udp.field16 buf 16 - 4 * ihl buf) := by
  refine ⟨fun h => ?_, fun h => ?_, fun h => ?_, fun h => ?_, fun h => ?_⟩
  · exact absurd (h _ _ _ (badHeaderFrame_queued 0)) (by decide +kernel)
  · exact absurd (h _ _ _ (badHeaderFrame_queued 0)) (by decide +kernel)
  · exact absurd (h _ _ _ (badHeaderFrame_queued 0)) (by decide +kernel)
  · exact absurd (h _ _ _ (badHeaderFrame_queued 0xFFFF)) (by decide +kernel)
  · exact absurd (h _ _ _ (badHeaderFrame_queued 0)) (by decide +kernel)

end Receiver

end NeverMind
