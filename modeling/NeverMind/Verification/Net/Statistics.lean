import NeverMind.Verification.Net.ReceivePath

/-! # The statistics of the receive path

Over any sequence of frames those with a header are counted as received, those that are refused as
dropped, and each of the others at most once among the echo replies and the datagrams. -/

namespace NeverMind.Receiver

open Reads

/-- What the protocols do to the counters for one packet. -/
inductive Counted (a : NmNetStats) : NmNetStats → Prop where
  | nothing : Counted a a
  | request : Counted a { a with
      icmpEchoReq := u64 (a.icmpEchoReq + 1), icmpEchoRep := u64 (a.icmpEchoRep + 1) }
  | reply : Counted a { a with icmpEchoRep := u64 (a.icmpEchoRep + 1) }
  | datagram : Counted a { a with udpRx := u64 (a.udpRx + 1) }

theorem stats_arpInput (packet : Pointer Byte) (len : ℕ) (s : Receiver) :
    (s.arpInput (some packet) len).val.stats = s.stats := by
  simp only [arpInput, val_ite, val_bind, val_pure]
  split <;> rfl

theorem counted_icmpInput (payload : Pointer Byte) (len : ℕ) (s : Receiver) :
    Counted s.stats (s.icmpInput (some payload) len).val.stats := by
  simp only [icmpInput, val_ite, val_bind, val_pure]
  split_ifs
  · exact .nothing
  · exact .request
  · exact .reply
  · exact .nothing

theorem counted_udpDeliver (dstPort srcIp srcPort : ℕ) (payload : Pointer Byte) (len : ℕ)
    (s : Receiver) :
    Counted s.stats (s.udpDeliver dstPort srcIp srcPort payload len).val.2.stats := by
  unfold udpDeliver
  split
  · exact .nothing
  · split
    · exact .nothing
    · exact .datagram

theorem counted_udpInput (srcIp : ℕ) (payload : Pointer Byte) (len : ℕ) (s : Receiver) :
    Counted s.stats (s.udpInput srcIp (some payload) len).val.stats := by
  simp only [udpInput, val_ite, val_bind, val_pure]
  split_ifs
  · exact .nothing
  · exact .nothing
  · exact counted_udpDeliver _ _ _ _ _ s

theorem counted_ipv4Input (packet : Pointer Byte) (len : ℕ) (s : Receiver) :
    Counted s.stats (s.ipv4Input (some packet) len).val.stats := by
  simp only [ipv4Input, val_ite, val_bind, val_pure]
  split_ifs
  · exact .nothing
  · exact .nothing
  · exact counted_icmpInput _ _ s
  · exact counted_udpInput _ _ _ s
  · exact .nothing
  · exact .nothing

/-- A frame is long enough for its header. -/
def HasHeader (f : Option (ℕ → Byte) × ℕ) : Prop := f.1.isSome ∧ ethHdrSize ≤ f.2

instance (f : Option (ℕ → Byte) × ℕ) : Decidable (HasHeader f) :=
  inferInstanceAs (Decidable (_ ∧ _))

/-- What a frame does to the counters, with the result of the call. -/
inductive Noted (f : Option (ℕ → Byte) × ℕ) (a : NmNetStats) : ℤ → NmNetStats → Prop where
  | short (hf : ¬ HasHeader f) :
      Noted f a (nmErr nmEfail) { a with rxDropped := u64 (a.rxDropped + 1) }
  | unknown (hf : HasHeader f) : Noted f a (nmErr nmEfail)
      { a with rxFrames := u64 (a.rxFrames + 1), rxDropped := u64 (a.rxDropped + 1) }
  | received {b : NmNetStats} (hf : HasHeader f)
      (hb : Counted { a with rxFrames := u64 (a.rxFrames + 1) } b) : Noted f a 0 b

theorem netInputFrame_noted (f : Option (ℕ → Byte) × ℕ) (s : Receiver) :
    Noted f s.stats (s.netInputFrame f.1 f.2).val.1 (s.netInputFrame f.1 f.2).val.2.stats := by
  obtain ⟨frame, len⟩ := f
  cases frame with
  | none => exact .short (by simp [HasHeader])
  | some frame =>
    simp only [netInputFrame, val_ite, val_bind, val_pure]
    split_ifs with hshort harp hip
    · exact .short (by simp [HasHeader, hshort])
    · refine .received ⟨rfl, Nat.not_lt.mp hshort⟩ ?_
      rw [stats_arpInput]
      exact .nothing
    · exact .received ⟨rfl, Nat.not_lt.mp hshort⟩ (counted_ipv4Input _ _ s.noteRxFrame)
    · exact .unknown ⟨rfl, Nat.not_lt.mp hshort⟩

/-- The results of a sequence of frames, and the receiver after it. -/
def netInputFrames : List (Option (ℕ → Byte) × ℕ) → Receiver → List ℤ × Receiver
  | [], s => ([], s)
  | f :: fs, s =>
    let r := (s.netInputFrame f.1 f.2).val
    let rest := netInputFrames fs r.2
    (r.1 :: rest.1, rest.2)

/-- The counters account for a sequence of frames with their results. -/
structure Accounts (frames : List (Option (ℕ → Byte) × ℕ)) (results : List ℤ) (a : NmNetStats) :
    Prop where
  received : a.rxFrames = frames.countP (HasHeader ·)
  dropped : a.rxDropped + results.count 0 = frames.length
  requests : a.icmpEchoReq ≤ a.icmpEchoRep
  protocols : a.icmpEchoRep + a.udpRx ≤ results.count 0

variable {frames : List (Option (ℕ → Byte) × ℕ)} {results : List ℤ} {a b : NmNetStats}

theorem Accounts.step {f : Option (ℕ → Byte) × ℕ} {ret : ℤ} (h : Accounts frames results a)
    (hlen : frames.length + 1 < 2 ^ 64) (hnoted : Noted f a ret b) :
    Accounts (frames ++ [f]) (results ++ [ret]) b := by
  have hframes := frames.countP_le_length (p := (HasHeader ·))
  have hret : nmErr nmEfail ≠ 0 := by decide
  obtain ⟨hreceived, hdropped, hrequests, hprotocols⟩ := h
  have hinc : ∀ n ≤ frames.length, u64 (n + 1) = n + 1 := fun n hn => u64_of_lt (by omega)
  have hrx := hinc a.rxFrames (by omega)
  cases hnoted with
  | short hf =>
    have hdrop := hinc a.rxDropped (by omega)
    constructor <;> simp [hf, hret, hdrop] <;> omega
  | unknown hf =>
    have hdrop := hinc a.rxDropped (by omega)
    constructor <;> simp [hf, hret, hdrop, hrx] <;> omega
  | received hf hb =>
    have hreq := hinc a.icmpEchoReq (by omega)
    have hrep := hinc a.icmpEchoRep (by omega)
    have hudp := hinc a.udpRx (by omega)
    cases hb <;> constructor <;> simp [hf, hrx, hreq, hrep, hudp] <;> omega

/-- Every frame given to `net_input_frame` after `net_init` is counted: those with a header in
`rx_frames`, those that failed in `rx_dropped`, and each of the others at most once in the echo
replies or the datagrams; no more echo requests are counted than replies. -/
theorem statistics_account_for_frames (s : Receiver) (frames : List (Option (ℕ → Byte) × ℕ))
    (hlen : frames.length < 2 ^ 64) :
    Accounts frames (s.netInit.netInputFrames frames).1
      (s.netInit.netInputFrames frames).2.stats := by
  have hrun : ∀ before results (t : Receiver), Accounts before results t.stats →
      before.length + frames.length < 2 ^ 64 →
      Accounts (before ++ frames) (results ++ (t.netInputFrames frames).1)
        (t.netInputFrames frames).2.stats := by
    clear hlen
    induction frames with
    | nil =>
      intro before results t h _
      simpa [netInputFrames] using h
    | cons f frames ih =>
      intro before results t h hlen
      rw [List.length_cons] at hlen
      have hstep := h.step (by omega) (netInputFrame_noted f t)
      simpa [netInputFrames] using ih _ _ _ hstep (by simp; omega)
  exact hrun [] [] s.netInit ⟨rfl, rfl, le_rfl, le_rfl⟩ (by simpa using hlen)

/-- An echo request in an IPv4 packet. -/
def echoRequest (i : ℕ) : Byte :=
  if i = 12 ∨ i = 34 then 8 else if i = 14 then 0x45 else if i = 23 then 1 else 0

/-- No frame, an echo request, and a frame of an unknown type. -/
theorem statistics_account_for_three_frames :
    let frames := [(none, 0), (some echoRequest, 42), (some fun _ => 0, 42)]
    let r := netInputFrames frames (netInit ⟨⟨1, 2, 3, 4, 5⟩, Arp.atStart, Udp.atStart⟩)
    Accounts frames r.1 r.2.stats ∧ r.1.count 0 = 1 ∧ r.2.stats.icmpEchoReq = 1 :=
  ⟨statistics_account_for_frames _ _ (by decide), by decide +kernel, by decide +kernel⟩

end NeverMind.Receiver
