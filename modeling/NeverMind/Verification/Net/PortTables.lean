import NeverMind.Library.Run
import NeverMind.Verification.Net.SocketClose

/-! # Sockets and ports

`socket.c` keeps a port number in each datagram socket, and `udp.c` keeps the table of ports.
The two are updated one after the other. This module says which calls keep them in agreement. -/

namespace NeverMind

open Option Function

namespace Udp

variable {s : Udp} {q port : ℕ}

theorem bound_iff : Bound q s ↔ ∃ i, (s.ports i).used = true ∧ (s.ports i).port = q := by
  constructor
  · intro h
    obtain ⟨i, hi⟩ := isSome_iff_exists.mp h
    exact ⟨i, findPort_some hi⟩
  · rintro ⟨i, hused, hport⟩
    refine List.find?_isSome.mpr ⟨i, List.mem_finRange i, ?_⟩
    simp [hused, hport]

theorem ne_zero_of_udpBind (hret : (s.udpBind port).1 = 0) : port ≠ 0 := by
  intro hzero
  rw [udpBind, if_pos hzero] at hret
  exact nmErr_nmEfail_neg.ne hret

theorem udpBind_of_bound (hport : port ≠ 0) (h : Bound port s) : s.udpBind port = (0, s) := by
  obtain ⟨i, hi⟩ := isSome_iff_exists.mp h
  rw [udpBind, if_neg hport, hi]

theorem bound_udpBind (hret : (s.udpBind port).1 = 0) :
    Bound q (s.udpBind port).2 ↔ Bound q s ∨ q = port := by
  have hspec := udpBind_spec port s
  generalize s.udpBind port = r at hspec hret ⊢
  cases hspec with
  | refused => exact absurd hret nmErr_nmEfail_neg.ne
  | already hbound => exact ⟨.inl, fun h => h.elim id fun hq => hq ▸ hbound⟩
  | fresh i p _ _ hfree hused hport _ _ =>
    simp only [bound_iff, ports_setPort]
    constructor
    · rintro ⟨k, hk, hq⟩
      by_cases hki : k = i
      · rw [hki, update_self] at hq
        exact .inr (hq.symm.trans hport)
      · rw [update_of_ne hki] at hk hq
        exact .inl ⟨k, hk, hq⟩
    · rintro (⟨k, hk, hq⟩ | rfl)
      · have hki : k ≠ i := by
          rintro rfl
          rw [hfree] at hk
          cases hk
        exact ⟨k, by rwa [update_of_ne hki], by rwa [update_of_ne hki]⟩
      · exact ⟨i, by rwa [update_self], by rwa [update_self]⟩

theorem Distinct.bound_udpUnbind (h : Distinct s) :
    Bound q (s.udpUnbind port).2 ↔ Bound q s ∧ q ≠ port := by
  by_cases hq : q = port
  · subst hq
    simp [h.not_bound_udpUnbind q]
  · simp [(Agree.udpUnbind (Ne.symm hq) s).bound_iff, hq]

end Udp

namespace Net

variable {s : Net} {i : SockRef} {port : ℕ}

def Held (port : ℕ) (s : Net) : Prop := ∃ i, OpenDgram i s ∧ (s.socks i).localPort = port

def HeldByOther (i : SockRef) (port : ℕ) (s : Net) : Prop :=
  ∃ k, k ≠ i ∧ OpenDgram k s ∧ (s.socks k).localPort = port

def PortsAgree (s : Net) : Prop := ∀ port, Udp.Bound port s.udp ↔ port ≠ 0 ∧ Held port s

/-- What a call must respect for the tables to stay in agreement. -/
structure KeepsPorts (c : NetCall) (s : Net) : Prop where
  /-- A datagram socket that is bound again gives up no port, unless another socket has it. -/
  rebinds : ∀ i port, BindsDgram c s i port →
    (s.socks i).localPort = 0 ∨ (s.socks i).localPort = port ∨ HeldByOther i (s.socks i).localPort s
  /-- A port that a send chooses can be bound. -/
  assigns : ∀ i, Assigns c s i → (s.socks i).type = .dgram →
    s.ephPort = 0 ∨ s.udp.CanBind s.ephPort
  /-- A datagram socket that is closed shares its port with no other. -/
  closes : ∀ i, Closes c s i → (s.socks i).type = .dgram → (s.socks i).localPort ≠ 0 →
    ¬ HeldByOther i (s.socks i).localPort s

theorem held_setSock {e : SocketEntry} : Held port (s.setSock i e) ↔
    (e.used = true ∧ e.type = .dgram ∧ e.localPort = port) ∨ HeldByOther i port s := by
  constructor
  · rintro ⟨k, ⟨hused, htype⟩, hport⟩
    by_cases hki : k = i
    · rw [hki, socks_setSock, update_self] at hused htype hport
      exact .inl ⟨hused, htype, hport⟩
    · rw [socks_setSock, update_of_ne hki] at hused htype hport
      exact .inr ⟨k, hki, ⟨hused, htype⟩, hport⟩
  · rintro (⟨hused, htype, hport⟩ | ⟨k, hki, ⟨hused, htype⟩, hport⟩)
    · exact ⟨i, by simp [OpenDgram, hused, htype], by simp [hport]⟩
    · exact ⟨k, by simp [OpenDgram, hki, hused, htype], by simp [hki, hport]⟩

theorem held_iff (i : SockRef) : Held port s ↔
    (OpenDgram i s ∧ (s.socks i).localPort = port) ∨ HeldByOther i port s := by
  have h := @held_setSock s i port (s.socks i)
  rw [setSock_self] at h
  rw [h, OpenDgram, and_assoc]

theorem held_setSock_of_not {e : SocketEntry} (hold : ¬ OpenDgram i s)
    (hnew : ¬ (e.used = true ∧ e.type = .dgram)) : Held port (s.setSock i e) ↔ Held port s := by
  rw [held_setSock, held_iff i]
  simp only [hold, false_and, false_or, ← and_assoc, hnew]

theorem portsAgree_atStart : PortsAgree Net.atStart := by
  intro port
  simp [Udp.bound_iff, Net.atStart, Udp.atStart, Held, OpenDgram]

theorem PortsAgree.of_same {s' : Net} (h : PortsAgree s)
    (hbound : ∀ q, Udp.Bound q s'.udp ↔ Udp.Bound q s.udp)
    (hheld : ∀ q, q ≠ 0 → (Held q s' ↔ Held q s)) : PortsAgree s' := by
  intro q
  rw [hbound, h q]
  exact and_congr_right fun hq => (hheld q hq).symm

theorem keepsPorts_of_quiet {c : NetCall} (hbinds : ∀ i port, ¬ BindsDgram c s i port)
    (hassigns : ∀ i, Assigns c s i → (s.socks i).type = .stream)
    (hcloses : ∀ i, Closes c s i → (s.socks i).type = .stream) : KeepsPorts c s where
  rebinds := fun i port h => absurd h (hbinds i port)
  assigns := by
    intro i h htype
    rw [hassigns i h] at htype
    cases htype
  closes := by
    intro i h htype
    rw [hcloses i h] at htype
    cases htype

/-! ## The three calls that change a port -/

theorem PortsAgree.bound_iff (h : PortsAgree s) (hopen : OpenDgram i s) (q : ℕ) :
    Udp.Bound q s.udp ↔ q ≠ 0 ∧ ((s.socks i).localPort = q ∨ HeldByOther i q s) := by
  rw [h q, held_iff i]
  simp only [hopen, true_and]

theorem OpenDgram.held_setPort (hopen : OpenDgram i s) (port q : ℕ) :
    Held q (s.setSock i { s.socks i with localPort := port }) ↔ port = q ∨ HeldByOther i q s := by
  rw [held_setSock]
  simp only [hopen.1, hopen.2, true_and]

theorem portsAgree_bind (h : PortsAgree s) (hopen : OpenDgram i s)
    (hret : (s.udp.udpBind port).1 = 0) :
    PortsAgree { s.setSock i { s.socks i with localPort := port } with
        udp := (s.udp.udpBind port).2 } ↔
      (s.socks i).localPort = 0 ∨ (s.socks i).localPort = port ∨
        HeldByOther i (s.socks i).localPort s := by
  have hport := Udp.ne_zero_of_udpBind hret
  have hheld := hopen.held_setPort port
  have hagree := h.bound_iff hopen
  constructor
  · intro hafter
    by_cases hzero : (s.socks i).localPort = 0
    · exact .inl hzero
    · -- the old port stays bound, so somebody has to have it
      have hbound := (Udp.bound_udpBind hret).mpr (.inl ((hagree _).mpr ⟨hzero, .inl rfl⟩))
      exact .inr (((hheld _).mp ((hafter _).mp hbound).2).imp_left Eq.symm)
  · intro hold q
    refine (Udp.bound_udpBind hret).trans ?_
    refine Iff.trans ?_ (and_congr_right fun _ => (hheld q).symm)
    rw [hagree q]
    constructor
    · rintro (⟨hq, rfl | hother⟩ | rfl)
      · obtain hzero | hsame := hold
        · exact absurd hzero hq
        · exact ⟨hq, hsame.imp_left Eq.symm⟩
      · exact ⟨hq, .inr hother⟩
      · exact ⟨hport, .inl rfl⟩
    · rintro ⟨hq, rfl | hother⟩
      · exact .inr rfl
      · exact .inl ⟨hq, .inr hother⟩

variable {udp : Udp}

theorem portsAgree_assign (h : PortsAgree s) (hopen : OpenDgram i s)
    (hzero : (s.socks i).localPort = 0) (eph : ℕ)
    (hports : ∀ q, Udp.Bound q udp ↔ Udp.Bound q (s.udp.udpBind s.ephPort).2) :
    PortsAgree { s.setSock i { s.socks i with localPort := s.ephPort } with
        ephPort := eph, udp := udp } ↔
      s.ephPort = 0 ∨ s.udp.CanBind s.ephPort := by
  rw [← Udp.udpBind_eq_zero_iff]
  have hheld := hopen.held_setPort s.ephPort
  have hagree (q : ℕ) : Udp.Bound q s.udp ↔ q ≠ 0 ∧ HeldByOther i q s := by
    rw [h.bound_iff hopen q, hzero]
    exact and_congr_right fun hq => or_iff_right hq.symm
  have hafter : PortsAgree { s.setSock i { s.socks i with localPort := s.ephPort } with
      ephPort := eph, udp := udp } ↔
      ∀ q, Udp.Bound q (s.udp.udpBind s.ephPort).2 ↔ q ≠ 0 ∧ (s.ephPort = q ∨ HeldByOther i q s) :=
    forall_congr' fun q => by
      refine iff_congr (hports q) (and_congr_right fun _ => hheld q)
  rw [hafter]
  constructor
  · intro hall
    by_contra hfail
    obtain ⟨hne, hret⟩ := not_or.mp hfail
    have hbound := (hall s.ephPort).mpr ⟨hne, .inl rfl⟩
    rw [Udp.udpBind_failed hret] at hbound
    exact hret (by rw [Udp.udpBind_of_bound hne hbound])
  · rintro hok q
    by_cases hret : (s.udp.udpBind s.ephPort).1 = 0
    · have hne := Udp.ne_zero_of_udpBind hret
      rw [Udp.bound_udpBind hret, hagree]
      constructor
      · rintro (⟨hq, hother⟩ | rfl)
        · exact ⟨hq, .inr hother⟩
        · exact ⟨hne, .inl rfl⟩
      · rintro ⟨hq, rfl | hother⟩
        · exact .inr rfl
        · exact .inl ⟨hq, hother⟩
    · have hephZero := hok.resolve_right hret
      rw [Udp.udpBind_failed hret, hagree, hephZero]
      exact and_congr_right fun hq => (or_iff_right hq.symm).symm

/-- A socket that has a port sends from it; the port is bound already. -/
theorem PortsAgree.resend (h : PortsAgree s) (hopen : OpenDgram i s)
    (hport : (s.socks i).localPort ≠ 0)
    (hports : ∀ q, Udp.Bound q udp ↔ Udp.Bound q (s.udp.udpBind (s.socks i).localPort).2) :
    PortsAgree { s.setSock i (s.socks i) with udp := udp } := by
  have hbound : Udp.Bound (s.socks i).localPort s.udp := (h.bound_iff hopen _).mpr ⟨hport, .inl rfl⟩
  rw [Udp.udpBind_of_bound hport hbound] at hports
  rw [setSock_self]
  exact h.of_same hports fun _ _ => Iff.rfl

theorem portsAgree_close (hwf : s.udp.WellFormed) (h : PortsAgree s) (hopen : OpenDgram i s) :
    PortsAgree { s.setSock i { s.socks i with used := false } with
        udp := if (s.socks i).localPort ≠ 0 then (s.udp.udpUnbind (s.socks i).localPort).2
          else s.udp } ↔
      ((s.socks i).localPort ≠ 0 → ¬ HeldByOther i (s.socks i).localPort s) := by
  have hheld (q : ℕ) : Held q (s.setSock i { s.socks i with used := false }) ↔
      HeldByOther i q s := by
    rw [held_setSock]
    simp
  have hagree := h.bound_iff hopen
  have hafter {udp : Udp} : PortsAgree { s.setSock i { s.socks i with used := false } with
      udp := udp } ↔ ∀ q, Udp.Bound q udp ↔ q ≠ 0 ∧ HeldByOther i q s :=
    forall_congr' fun q => iff_congr Iff.rfl (and_congr_right fun _ => hheld q)
  rw [hafter]
  by_cases hzero : (s.socks i).localPort = 0
  · simp only [hzero, ne_eq, not_true_eq_false, if_false, false_imp_iff, iff_true]
    intro q
    rw [hagree, hzero]
    exact and_congr_right fun hq => or_iff_right hq.symm
  · simp only [hzero, ne_eq, not_false_eq_true, if_true, true_imp_iff]
    constructor
    · intro hall hother
      have hbound := (hall _).mpr ⟨hzero, hother⟩
      exact hwf.distinct.not_bound_udpUnbind _ hbound
    · intro halone q
      rw [hwf.distinct.bound_udpUnbind, hagree]
      constructor
      · rintro ⟨⟨hq, hmine | hother⟩, hne⟩
        · exact absurd hmine.symm hne
        · exact ⟨hq, hother⟩
      · rintro ⟨hq, hother⟩
        refine ⟨⟨hq, .inr hother⟩, ?_⟩
        rintro rfl
        exact halone hother

theorem portsAgree_sendto (h : PortsAgree s) (hopen : OpenDgram i s)
    (hports : ∀ q, Udp.Bound q udp ↔ Udp.Bound q (s.udp.udpBind (s.ensureLocalPort i).1).2) :
    PortsAgree { s.setSock i { s.socks i with localPort := (s.ensureLocalPort i).1 } with
        ephPort := (s.ensureLocalPort i).2.ephPort, udp := udp } ↔
      ((s.socks i).localPort = 0 → s.ephPort = 0 ∨ s.udp.CanBind s.ephPort) := by
  by_cases hzero : (s.socks i).localPort = 0
  · rw [ensureLocalPort_zero hzero] at hports ⊢
    rw [portsAgree_assign h hopen hzero _ hports]
    simp only [hzero, true_imp_iff]
  · rw [ensureLocalPort_of_ne hzero] at hports ⊢
    exact iff_of_true (h.resend hopen hzero hports) fun hz => absurd hz hzero

/-! ## What the conditions say of a call -/

variable {fd : ℤ}

theorem keepsPorts_bind {addr : SockAddr}
    (hbinds : BindsDgram (.bind fd (some addr)) s i addr.sinPort) :
    KeepsPorts (.bind fd (some addr)) s ↔
      (s.socks i).localPort = 0 ∨ (s.socks i).localPort = addr.sinPort ∨
        HeldByOther i (s.socks i).localPort s := by
  constructor
  · intro hkeeps
    exact hkeeps.rebinds i _ hbinds
  · intro hold
    refine ⟨?_, fun _ => False.elim, fun _ => False.elim⟩
    rintro j port ⟨hget, -, -, rfl, -⟩
    obtain rfl := some.inj (hbinds.1.symm.trans hget)
    exact hold

theorem keepsPorts_sendto {buf : Option (ℕ → Byte)} {len : ℕ} {addr : SockAddr}
    (hget : s.getSock fd = some i) (hbuf : buf.isSome) (hlen : len ≠ 0)
    (htype : (s.socks i).type = .dgram) :
    KeepsPorts (.sendto fd buf len (some addr)) s ↔
      ((s.socks i).localPort = 0 → s.ephPort = 0 ∨ s.udp.CanBind s.ephPort) := by
  constructor
  · intro hkeeps hzero
    exact hkeeps.assigns i ⟨hget, hbuf, hlen, rfl, htype, hzero⟩ htype
  · intro hok
    refine ⟨fun _ _ => False.elim, ?_, fun _ => False.elim⟩
    rintro j ⟨hget', -, -, -, -, hzero⟩ -
    obtain rfl := some.inj (hget.symm.trans hget')
    exact hok hzero

theorem keepsPorts_close (hget : s.getSock fd = some i) (htype : (s.socks i).type = .dgram) :
    KeepsPorts (.closeSocket fd) s ↔
      ((s.socks i).localPort ≠ 0 → ¬ HeldByOther i (s.socks i).localPort s) := by
  constructor
  · intro hkeeps
    exact hkeeps.closes i hget htype
  · intro halone
    refine ⟨fun _ _ => False.elim, fun _ => False.elim, ?_⟩
    rintro j hget' -
    obtain rfl := some.inj (hget.symm.trans hget')
    exact halone

/-! ## Runs -/

/-- A call keeps the tables in agreement exactly if it respects the three conditions. -/
theorem portsAgree_next (hwf : s.udp.WellFormed) (h : PortsAgree s) (c : NetCall) :
    PortsAgree (s.next c) ↔ KeepsPorts c s := by
  have heffect := next_effect c s
  generalize s.next c = s' at heffect ⊢
  -- the sockets' ports and the bound ports are as before
  have hquiet (hbinds : ∀ i port, ¬ BindsDgram c s i port)
      (hassigns : ∀ i, Assigns c s i → (s.socks i).type = .stream)
      (hcloses : ∀ i, Closes c s i → (s.socks i).type = .stream)
      (hbound : ∀ q, Udp.Bound q s'.udp ↔ Udp.Bound q s.udp)
      (hheld : ∀ q, q ≠ 0 → (Held q s' ↔ Held q s)) : PortsAgree s' ↔ KeepsPorts c s :=
    iff_of_true (h.of_same hbound hheld) (keepsPorts_of_quiet hbinds hassigns hcloses)
  cases heffect with
  | refused hassigns hbinds hcloses hattaches =>
    exact hquiet hbinds (fun i hi => absurd hi (hassigns i)) (fun i hi => absurd hi (hcloses i))
      (fun _ => Iff.rfl) (fun _ _ => Iff.rfl)
  | @opened i _ _ protocol t hfree =>
    refine hquiet (fun _ _ => not_false) (fun _ => False.elim) (fun _ => False.elim)
      (fun _ => Iff.rfl) fun q hq => ?_
    rw [held_setSock, held_iff i]
    simp [newEntry, OpenDgram, hfree, hq.symm]
  | @boundStream _ i addr hget htype =>
    refine hquiet ?_ (fun _ => False.elim) (fun _ => False.elim) (fun _ => Iff.rfl)
      fun q hq => held_setSock_of_not (by simp [OpenDgram, htype]) (by simp [htype])
    rintro j port ⟨hget', -, hdgram, -⟩
    obtain rfl := some.inj (hget.symm.trans hget')
    rw [htype] at hdgram
    cases hdgram
  | @boundDgram _ i addr hbinds =>
    have hopen : OpenDgram i s := ⟨(getSock_eq_some.mp hbinds.1).2, hbinds.2.2.1⟩
    rw [portsAgree_bind h hopen (Udp.udpBind_eq_zero_iff.mpr hbinds.2.2.2.2),
      keepsPorts_bind hbinds]
  | listenFailed | acceptFailed | acceptDropped | receivedStream =>
    exact hquiet (fun _ _ => not_false) (fun _ => False.elim) (fun _ => False.elim)
      (fun _ => Iff.rfl) (fun _ _ => Iff.rfl)
  | listened hget htype hport hret =>
    exact hquiet (fun _ _ => not_false) (fun _ => False.elim) (fun _ => False.elim)
      (fun _ => Iff.rfl)
      fun q hq => held_setSock_of_not (by simp [OpenDgram, htype]) (by simp [htype])
  | accepted hget hlistening hr hret hfree =>
    exact hquiet (fun _ _ => not_false) (fun _ => False.elim) (fun _ => False.elim)
      (fun _ => Iff.rfl)
      fun q hq => held_setSock_of_not (by simp [OpenDgram, hfree]) (by simp [newEntry])
  | connectFailed hget htype hr hret =>
    exact hquiet (fun _ _ => not_false) (fun _ hi => hi.2.2.1) (fun _ => False.elim)
      (fun _ => Iff.rfl) (fun _ _ => Iff.rfl)
  | connected hget htype hr hret =>
    exact hquiet (fun _ _ => not_false) (fun _ hi => hi.2.2.1) (fun _ => False.elim)
      (fun _ => Iff.rfl)
      fun q hq => held_setSock_of_not (by simp [OpenDgram, htype]) (by simp [htype])
  | @sentDgram _ i _ _ _ udp hget hbuf hlen htype hports =>
    have hopen : OpenDgram i s := ⟨(getSock_eq_some.mp hget).2, htype⟩
    rw [portsAgree_sendto h hopen hports.bound_iff, keepsPorts_sendto hget hbuf hlen htype]
  | @sentStream _ i _ _ _ hget htype =>
    refine hquiet (fun _ _ => not_false) ?_ (fun _ => False.elim) (fun _ => Iff.rfl)
      (fun _ _ => Iff.rfl)
    rintro j ⟨hget', -⟩
    obtain rfl := some.inj (hget.symm.trans hget')
    exact htype
  | receivedDgram hports | arrived hports =>
    exact hquiet (fun _ _ => not_false) (fun _ => False.elim) (fun _ => False.elim) hports.bound_iff
      (fun _ _ => Iff.rfl)
  | @closedDgram _ i hcloses htype =>
    have hopen : OpenDgram i s := ⟨(getSock_eq_some.mp hcloses).2, htype⟩
    rw [portsAgree_close hwf h hopen, keepsPorts_close hcloses htype]
  | @closedStream _ i hcloses htype =>
    refine hquiet (fun _ _ => not_false) (fun _ => False.elim) ?_ (fun _ => Iff.rfl)
      fun q hq => held_setSock_of_not (by simp [OpenDgram, htype]) (by simp)
    intro j hget'
    obtain rfl := some.inj (Eq.trans (Eq.symm hcloses) hget')
    exact htype

/-- The tables agree along the runs that respect the conditions, and along no others. -/
theorem ports_agree_iff (calls : List NetCall) :
    Throughout next PortsAgree calls Net.atStart ↔ EachStep next KeepsPorts calls Net.atStart :=
  throughout_iff_eachStep (I := fun s => s.udp.WellFormed) (eachStep_true calls Net.atStart)
    (fun c _ _ hwf => wellFormed_next hwf c) (fun c _ _ hwf h => portsAgree_next hwf h c)
    Udp.WellFormed.atStart portsAgree_atStart

def reboundSocket : List NetCall :=
  [.socket nmAfInet nmSockDgram 0, .bind 0 (some ⟨nmAfInet, 5, 0⟩), .bind 0 (some ⟨nmAfInet, 6, 0⟩)]

/-- Its first port stays in use, and no socket has it. -/
theorem rebind_leaks_port : Udp.Bound 5 (runCalls next reboundSocket Net.atStart).udp ∧
    ¬ PortsAgree (runCalls next reboundSocket Net.atStart) := by
  have hbound : Udp.Bound 5 (runCalls next reboundSocket Net.atStart).udp := by
    unfold Udp.Bound
    decide +kernel
  refine ⟨hbound, fun h => ?_⟩
  obtain ⟨i, -, hport⟩ := ((h 5).mp hbound).2
  have hnone : ∀ i, ((runCalls next reboundSocket Net.atStart).socks i).localPort ≠ 5 := by
    decide +kernel
  exact hnone i hport

end Net

end NeverMind
