import NeverMind.Model.Receive
import NeverMind.Verification.Net.UdpQueues

/-! # Frames from the wire

No read leaves the frame, and a frame that encodes a datagram puts that datagram into the
queue of its port. Conversely a datagram is queued only for a frame whose header fields pass
the checks that `Accepted` lists. -/

namespace NeverMind

open Reads Pointer Udp Nat

/-! ## Reads -/

namespace Pointer

variable {p : Pointer Byte} {i n : ℕ}

theorem within_read16 (h : p.addr + i + 1 < n) : Within n (p.read16 i) :=
  (within_read (by omega)).bind ((within_read (by omega)).bind (within_pure _))

theorem within_read32 (h : p.addr + i + 3 < n) : Within n (p.read32 i) :=
  (within_read16 (by omega)).bind ((within_read16 (by omega)).bind (within_pure _))

theorem within_load16 (h : p.addr + i + 1 < n) : Within n (p.load16 i) :=
  (within_read (by omega)).bind ((within_read (by omega)).bind (within_pure _))

@[simp] theorem val_read16 : (p.read16 i).val = field16 p.view i := rfl

end Pointer

namespace Receiver

variable {p : Pointer Byte} {len n : ℕ} {s : Receiver}

theorem within_arpInput (h : p.addr + len ≤ n) : Within n (s.arpInput (some p) len) := by
  unfold arpInput
  refine Within.ite (fun _ => within_pure s) fun hlen => ?_
  refine (within_read32 (by omega)).bind ((within_copyTo ?_).bind (within_pure _))
  rw [addr_advance]
  omega

theorem within_icmpInput (h : p.addr + len ≤ n) : Within n (s.icmpInput (some p) len) := by
  unfold icmpInput
  refine Within.ite (fun _ => within_pure s) fun hlen => ?_
  refine (within_read (by omega)).bind ?_
  exact Within.ite (fun _ => within_pure _) fun _ =>
    Within.ite (fun _ => within_pure _) fun _ => within_pure _

theorem within_udpDeliver (h : p.addr + len ≤ n) (dstPort srcIp srcPort : ℕ) :
    Within n (s.udpDeliver dstPort srcIp srcPort p len) := by
  unfold udpDeliver
  split
  · exact within_pure _
  · split
    · exact within_pure _
    · refine (within_copyTo ?_).bind (within_pure _)
      split <;> omega

theorem within_udpInput (h : p.addr + len ≤ n) (srcIp : ℕ) :
    Within n (s.udpInput srcIp (some p) len) := by
  unfold udpInput
  refine Within.ite (fun _ => within_pure s) fun hlen => ?_
  refine (within_read16 (by omega)).bind ((within_read16 (by omega)).bind
    ((within_read16 (by omega)).bind (Within.ite (fun _ => within_pure s) fun hfits => ?_)))
  refine (within_udpDeliver ?_ _ _ _).bind (within_pure _)
  rw [addr_advance]
  omega

theorem within_ipv4Input (h : p.addr + len ≤ n) : Within n (s.ipv4Input (some p) len) := by
  unfold ipv4Input
  refine Within.ite (fun _ => within_pure s) fun hlen => ?_
  refine (within_read (by omega)).bind (Within.ite (fun _ => within_pure s) fun hihl => ?_)
  refine (within_read (by omega)).bind ((within_read32 (by omega)).bind
    ((within_read32 (by omega)).bind ?_))
  dsimp only
  generalize hk : (((p.read 0).val &&& 0x0F).toNat * 4 % 2 ^ 8) = k at hihl ⊢
  have hpayload : (p.advance k).addr + (len - k) % 2 ^ 16 ≤ n := by
    have hmod := mod_le (len - k) (2 ^ 16)
    rw [addr_advance]
    omega
  exact Within.ite (fun _ => within_icmpInput hpayload) fun _ =>
    Within.ite (fun _ => within_udpInput hpayload _) fun _ =>
      Within.ite (fun _ => within_pure _) fun _ => within_pure s

/-- The receive path reads only bytes of the frame. -/
theorem within_netInputFrame (frame : Option (ℕ → Byte)) (len : ℕ) (s : Receiver) :
    Within len (s.netInputFrame frame len) := by
  unfold netInputFrame
  cases frame with
  | none => exact within_pure _
  | some buf =>
    refine Within.ite (fun _ => within_pure _) fun hlen => ?_
    rw [ethHdrSize] at hlen
    have hpayload : (Pointer.advance ⟨buf, 0⟩ ethHdrSize).addr + (len - ethHdrSize) % 2 ^ 16
        ≤ len := by
      have hmod := mod_le (len - ethHdrSize) (2 ^ 16)
      rw [addr_advance]
      simp only [ethHdrSize] at hmod ⊢
      omega
    have hload : Within len (bswap16 <$> Pointer.load16 ⟨buf, 0⟩ 12) :=
      (within_load16 (by dsimp only; omega)).bind (within_pure _)
    exact hload.bind (Within.ite (fun _ => (within_arpInput hpayload).bind (within_pure _))
      fun _ => Within.ite (fun _ => (within_ipv4Input hpayload).bind (within_pure _))
        fun _ => within_pure _)

/-! ## What the protocols do with a payload -/

/-- Apart from the counters, the delivery is that of `udp.c`. -/
theorem udpDeliver_val (dstPort srcIp srcPort : ℕ) (p : Pointer Byte) (len : ℕ) (s : Receiver) :
    (s.udpDeliver dstPort srcIp srcPort p len).val.2.arp = s.arp ∧
      (s.udpDeliver dstPort srcIp srcPort p len).val.2.udp =
        (s.udp.udpDeliver dstPort srcIp srcPort p.view len).2 := by
  unfold udpDeliver Udp.udpDeliver
  cases s.udp.findPort dstPort with
  | none => exact ⟨rfl, rfl⟩
  | some i =>
    dsimp only
    cases (List.finRange 16).find? fun j => !((s.udp.ports i).q j).used with
    | none => exact ⟨rfl, rfl⟩
    | some j => exact ⟨rfl, rfl⟩

theorem udpInput_val (srcIp : ℕ) (p : Pointer Byte) (len : ℕ) (s : Receiver) :
    (s.udpInput srcIp (some p) len).val.arp = s.arp ∧
      (s.udpInput srcIp (some p) len).val.udp = s.udp.udpInput srcIp (some p.view) len := by
  have hdeliver := udpDeliver_val (field16 p.view 2) srcIp (field16 p.view 0)
    (p.advance 8) (field16 p.view 4 - 8) s
  rw [view_advance] at hdeliver
  unfold udpInput Udp.udpInput
  simp only [val_ite, val_bind, val_pure]
  by_cases hlen : len < 8
  · simp only [if_pos hlen, and_self]
  · by_cases hbad : field16 p.view 4 < 8 ∨ field16 p.view 4 > len
    · have hread : (p.read16 4).val < 8 ∨ (p.read16 4).val > len := hbad
      simp only [if_neg hlen, if_pos hread, if_pos hbad, and_self]
    · have hread : ¬ ((p.read16 4).val < 8 ∨ (p.read16 4).val > len) := hbad
      simp only [if_neg hlen, if_neg hread, if_neg hbad]
      exact hdeliver

theorem icmpInput_val (p : Pointer Byte) (len : ℕ) (s : Receiver) :
    (s.icmpInput (some p) len).val.arp = s.arp ∧ (s.icmpInput (some p) len).val.udp = s.udp := by
  unfold icmpInput
  simp only [val_ite, val_bind, val_pure]
  split
  · exact ⟨rfl, rfl⟩
  · split
    · exact ⟨rfl, rfl⟩
    · split <;> exact ⟨rfl, rfl⟩

theorem arpInput_val (p : Pointer Byte) (len : ℕ) (s : Receiver) :
    (s.arpInput (some p) len).val.udp = s.udp := by
  unfold arpInput
  simp only [val_ite, val_bind, val_pure]
  split <;> rfl

theorem headerBytes (b : Byte) : (b &&& 0x0F).toNat * 4 % 2 ^ 8 = 4 * (b.toNat % 16) := by
  have hmask : (b &&& 0x0F).toNat = b.toNat % 16 := by
    rw [BitVec.toNat_and]
    exact and_two_pow_sub_one_eq_mod b.toNat 4
  rw [hmask]
  omega

/-- A packet goes to UDP if its header is within the packet and says so. -/
def ToUdp (packet : ℕ → Byte) (len : ℕ) : Prop :=
  5 ≤ (packet 0).toNat % 16 ∧ 4 * ((packet 0).toNat % 16) ≤ len ∧ (packet 9).toNat = nmIpProtoUdp

theorem ipv4Input_val (p : Pointer Byte) (len : ℕ) (hlen : len < 2 ^ 16) (s : Receiver) :
    (s.ipv4Input (some p) len).val.arp = s.arp ∧
      (¬ ToUdp p.view len ∧ (s.ipv4Input (some p) len).val.udp = s.udp ∨
        ToUdp p.view len ∧ (s.ipv4Input (some p) len).val.udp =
          s.udp.udpInput (field16 p.view 12 * 2 ^ 16 + field16 p.view 14)
            (some fun j => p.view (4 * ((p.view 0).toNat % 16) + j))
            (len - 4 * ((p.view 0).toNat % 16))) := by
  unfold ipv4Input
  simp only [val_ite, val_bind, val_pure]
  have hbytes := headerBytes (p.read 0).val
  generalize ((p.read 0).val &&& 0x0F).toNat * 4 % 2 ^ 8 = bytes at hbytes ⊢
  rw [ToUdp]
  change bytes = 4 * ((p.view 0).toNat % 16) at hbytes
  generalize (p.view 0).toNat % 16 = words at hbytes ⊢
  subst hbytes
  have hmod : (len - 4 * words) % 2 ^ 16 = len - 4 * words := mod_eq_of_lt (by omega)
  rw [hmod]
  by_cases hshort : len < 20
  · simp only [if_pos hshort, and_true, true_and]
    exact .inl (by omega)
  · by_cases hheader : 4 * words < 20 ∨ len < 4 * words
    · simp only [if_neg hshort, if_pos hheader, and_true, true_and]
      exact .inl (by omega)
    · simp only [if_neg hshort, if_neg hheader]
      by_cases hudp : (p.read 9).val.toNat = nmIpProtoUdp
      · have hicmp : (p.read 9).val.toNat ≠ nmIpProtoIcmp := by
          rw [hudp]
          decide
        simp only [if_neg hicmp, if_pos hudp]
        have hinput := udpInput_val (p.read32 12).val (p.advance (4 * words)) (len - 4 * words) s
        rw [view_advance] at hinput
        exact ⟨hinput.1, .inr ⟨⟨by omega, by omega, hudp⟩, hinput.2⟩⟩
      · simp only [if_neg hudp]
        have hicmp := icmpInput_val (p.advance (4 * words)) (len - 4 * words) s
        split
        · exact ⟨hicmp.1, .inl ⟨fun h => hudp h.2.2, hicmp.2⟩⟩
        · split <;> exact ⟨rfl, .inl ⟨fun h => hudp h.2.2, rfl⟩⟩

end Receiver

/-! ## Frames -/

theorem bswap16_bytes {low high : ℕ} (hlow : low < 2 ^ 8) (hhigh : high < 2 ^ 8) :
    bswap16 (high * 2 ^ 8 + low) = low * 2 ^ 8 + high := by
  have hright : (high * 2 ^ 8 + low) >>> 8 = high := by
    rw [shiftRight_eq_div_pow]
    omega
  have hleft : (high * 2 ^ 8 + low) <<< 8 = (high * 2 ^ 8 + low) * 2 ^ 8 := shiftLeft_eq ..
  rw [bswap16, hright, hleft, Nat.or_comm, Nat.mul_comm _ (2 ^ 8),
    ← two_pow_add_eq_or_of_lt hhigh]
  omega

namespace Frame

def ipLen (len : ℕ) : ℕ := (len - 14) % 2 ^ 16

def ihl (buf : ℕ → Byte) : ℕ := (buf 14).toNat % 16

def srcIp (buf : ℕ → Byte) : ℕ := field16 buf 26 * 2 ^ 16 + field16 buf 28

def udpAt (buf : ℕ → Byte) : ℕ := 14 + 4 * ihl buf

def srcPort (buf : ℕ → Byte) : ℕ := field16 buf (udpAt buf)

def dstPort (buf : ℕ → Byte) : ℕ := field16 buf (udpAt buf + 2)

def udpLen (buf : ℕ → Byte) : ℕ := field16 buf (udpAt buf + 4)

def payload (buf : ℕ → Byte) (k : ℕ) : Byte := buf (udpAt buf + 8 + k)

/-- Everything that the code checks before it delivers a datagram. -/
structure Accepted (buf : ℕ → Byte) (len : ℕ) : Prop where
  eth_header : 14 ≤ len
  eth_type : field16 buf 12 = nmEthTypeIpv4
  ip_header : 5 ≤ ihl buf
  proto : (buf 23).toNat = nmIpProtoUdp
  udp_header : 8 ≤ udpLen buf
  udp_fits : 4 * ihl buf + udpLen buf ≤ ipLen len

end Frame

namespace Receiver

open NeverMind.Frame

/-- What IPv4 hands to UDP is delivered if the UDP length is within it. -/
theorem udpInput_frame (buf : ℕ → Byte) (n srcIp : ℕ) (u : Udp) :
    u.udpInput srcIp (some fun j => buf (udpAt buf + j)) n = if 8 ≤ udpLen buf ∧ udpLen buf ≤ n then
        (u.udpDeliver (dstPort buf) srcIp (srcPort buf) (payload buf) (udpLen buf - 8)).2
      else u := by
  have hlen : field16 (fun j => buf (udpAt buf + j)) 4 = udpLen buf := rfl
  have hdst : field16 (fun j => buf (udpAt buf + j)) 2 = dstPort buf := rfl
  have hsrc : field16 (fun j => buf (udpAt buf + j)) 0 = srcPort buf := rfl
  have hpayload : (fun k => buf (udpAt buf + (8 + k))) = payload buf := by
    funext k
    rw [payload, add_assoc]
  unfold Udp.udpInput
  simp only [hlen, hdst, hsrc, hpayload]
  by_cases hshort : n < 8
  · rw [if_pos hshort, if_neg (by omega)]
  · rw [if_neg hshort]
    by_cases hbad : udpLen buf < 8 ∨ udpLen buf > n
    · rw [if_pos hbad, if_neg (by omega)]
    · rw [if_neg hbad, if_pos (by omega)]

/-- A frame is delivered as a datagram if it is accepted, and else queues nothing. -/
theorem netInputFrame_val (buf : ℕ → Byte) (len : ℕ) (s : Receiver) :
    ¬ Accepted buf len ∧ (s.netInputFrame (some buf) len).val.2.udp = s.udp ∨
      Accepted buf len ∧ (s.netInputFrame (some buf) len).val.2.arp = s.arp ∧
        (s.netInputFrame (some buf) len).val.2.udp =
          (s.udp.udpDeliver (dstPort buf) (srcIp buf) (srcPort buf) (payload buf)
            (udpLen buf - 8)).2 := by
  unfold netInputFrame
  simp only [val_ite, val_bind, val_pure]
  have htype : (bswap16 <$> Pointer.load16 ⟨buf, 0⟩ 12).val = field16 buf 12 :=
    bswap16_bytes (buf 12).isLt (buf 13).isLt
  generalize (bswap16 <$> Pointer.load16 ⟨buf, 0⟩ 12).val = ethType at htype ⊢
  subst htype
  by_cases hshort : len < ethHdrSize
  · rw [if_pos hshort]
    exact .inl ⟨fun h => hshort.not_ge h.eth_header, rfl⟩
  · rw [if_neg hshort]
    by_cases hip : field16 buf 12 = nmEthTypeIpv4
    · have harp : field16 buf 12 ≠ nmEthTypeArp := by
        rw [hip]
        decide
      rw [if_neg harp, if_pos hip]
      dsimp only
      have hview : (Pointer.advance ⟨buf, 0⟩ ethHdrSize).view = fun j => buf (14 + j) := by
        funext j
        simp [Pointer.view, Pointer.advance, ethHdrSize]
      have hinput := ipv4Input_val (Pointer.advance ⟨buf, 0⟩ ethHdrSize) (ipLen len)
        (mod_lt _ (by decide)) s.noteRxFrame
      rw [hview] at hinput
      obtain ⟨harp, ⟨hnot, hudp⟩ | ⟨⟨hheader, hwithin, hproto⟩, hudp⟩⟩ := hinput
      · refine .inl ⟨fun h => hnot ⟨h.ip_header, ?_, h.proto⟩, hudp⟩
        exact (le_add_right ..).trans h.udp_fits
      · have hpayload : (fun j => buf (14 + (4 * ihl buf + j))) = fun j => buf (udpAt buf + j) := by
          funext j
          rw [udpAt, add_assoc]
        have hinput := udpInput_frame buf (ipLen len - 4 * ihl buf) (srcIp buf) s.udp
        rw [← hpayload] at hinput
        replace hudp := hudp.trans hinput
        by_cases hfits : 8 ≤ udpLen buf ∧ udpLen buf ≤ ipLen len - 4 * ihl buf
        · rw [if_pos hfits] at hudp
          have haccepted : Accepted buf len :=
            ⟨not_lt.mp hshort, hip, hheader, hproto, hfits.1, by omega⟩
          exact .inr ⟨haccepted, harp, hudp⟩
        · rw [if_neg hfits] at hudp
          refine .inl ⟨fun h => hfits ⟨h.udp_header, ?_⟩, hudp⟩
          have hend := h.udp_fits
          omega
    · rw [if_neg hip]
      refine .inl ⟨fun h => hip h.eth_type, ?_⟩
      split
      · exact arpInput_val ..
      · rfl

end Receiver

end NeverMind
