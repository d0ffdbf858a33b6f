import NeverMind.Library.Run
import NeverMind.Model.SocketPhases
import NeverMind.Verification.Net.SocketSteps

/-! # Socket calls of several callers

A commit or rollback finds its socket again by the descriptor only. It finds the instance that
its call began with as long as the descriptor is not given out again in between. -/

namespace NeverMind

open Net SockCall Function Pending

/-! ## A call without interruption -/

/-- A call that is alone runs its parts one after the other. -/
def Phase.finish : ℕ → Phase × Net → Option (ℤ × Net)
  | _, (.done ret, s) => some (ret, s)
  | 0, (.more _, _) => none
  | n + 1, (.more p, s) => Phase.finish n (p.resume s)

def SockCall.whole (c : SockCall) (s : Net) : ℤ × Net :=
  match c with
  | .socket domain type protocol => s.nmSocket domain type protocol
  | .bind fd addr => s.nmBind fd addr
  | .listen fd => s.nmListen fd
  | .accept fd => ((s.nmAccept fd).1.1, (s.nmAccept fd).2)
  | .connect fd addr => s.nmConnect fd addr
  | .closeSocket fd => s.nmCloseSocket fd

namespace Phase

variable {s : Net} {n : ℕ}

@[simp] theorem finish_done (ret : ℤ) : finish n (.done ret, s) = some (ret, s) := by
  cases n <;> rfl

@[simp] theorem finish_more (p : Pending) : finish (n + 1) (.more p, s) = finish n (p.resume s) :=
  rfl

theorem finish_ite {c : Prop} [Decidable c] (a b : Phase) :
    finish n (if c then a else b, s) = if c then finish n (a, s) else finish n (b, s) := by
  split <;> rfl

end Phase

theorem finish_bind (fd : ℤ) (addr : Option SockAddr) (s : Net) :
    Phase.finish 3 (enterBind fd addr s) = some (s.nmBind fd addr) := by
  unfold enterBind nmBind
  cases s.getSock fd with
  | none => cases addr <;> rfl
  | some i =>
    cases addr with
    | none => rfl
    | some addr =>
      dsimp only
      split
      · rfl
      · cases (s.socks i).type with
        | stream => rfl
        | dgram =>
          simp only [Phase.finish_more, resume, Phase.finish_ite, Phase.finish_done]
          split <;> rfl

theorem finish_listen (fd : ℤ) (s : Net) :
    Phase.finish 3 (enterListen fd s) = some (s.nmListen fd) := by
  unfold enterListen nmListen
  cases hget : s.getSock fd with
  | none => rfl
  | some i =>
    dsimp only
    split
    · rfl
    · simp only [Phase.finish_more, resume, Phase.finish_ite, Phase.finish_done]
      split
      · rfl
      · have hagain : getSock fd { s with tcp := (s.tcp.tcpListen (s.socks i).localPort).2 } =
            some i := hget
        simp only [hagain, Phase.finish_done]

theorem finish_accept (fd : ℤ) (s : Net) :
    Phase.finish 3 (enterAccept fd s) = some ((s.nmAccept fd).1.1, (s.nmAccept fd).2) := by
  unfold enterAccept nmAccept
  cases s.getSock fd with
  | none => rfl
  | some i =>
    dsimp only
    split
    · rfl
    · simp only [Phase.finish_more, resume, Phase.finish_ite, Phase.finish_done]
      split
      · rfl
      · obtain ⟨r, hr⟩ : ∃ r, s.tcp.tcpAccept (s.socks i).localPort = r := ⟨_, rfl⟩
        rw [hr]
        obtain halloc | ⟨child, -, halloc⟩ :=
          allocSocketUnlocked_spec .stream 0 { s with tcp := r.2 }
        · simp only [halloc, Phase.finish_more, resume, Phase.finish_done]
        · simp only [halloc, Phase.finish_done]

theorem finish_connect (fd : ℤ) (addr : Option SockAddr) (s : Net) :
    Phase.finish 3 (enterConnect fd addr s) = some (s.nmConnect fd addr) := by
  unfold enterConnect nmConnect
  cases hget : s.getSock fd with
  | none => cases addr <;> rfl
  | some i =>
    cases addr with
    | none => rfl
    | some addr =>
      dsimp only
      split
      · rfl
      · generalize s.ensureLocalPort i = port
        obtain ⟨r, hr⟩ : ∃ r, port.2.tcp.tcpConnect addr.sinAddr addr.sinPort port.1 = r := ⟨_, rfl⟩
        simp only [Phase.finish_more, resume, Phase.finish_ite, Phase.finish_done,
          beq_iff_eq, hr]
        by_cases hret : r.1 < 0
        · simp only [if_pos hret]
          by_cases hauto : (s.socks i).localPort = 0
          · simp only [if_pos hauto]
            cases getSock fd { port.2 with tcp := r.2 } with
            | none => rfl
            | some j =>
              dsimp only
              split <;> rfl
          · simp only [if_neg hauto]
        · simp only [if_neg hret]
          cases getSock fd { port.2 with tcp := r.2 } <;> rfl

theorem finish_closeSocket (fd : ℤ) (s : Net) :
    Phase.finish 3 (enterCloseSocket fd s) = some (s.nmCloseSocket fd) := by
  unfold enterCloseSocket nmCloseSocket
  cases s.getSock fd with
  | none => rfl
  | some i =>
    dsimp only
    cases (s.socks i).type with
    | dgram | stream =>
      dsimp only
      rw [Phase.finish_ite]
      split <;> rfl

theorem finish_enter (c : SockCall) (s : Net) : Phase.finish 3 (c.enter s) = some (c.whole s) := by
  cases c with
  | socket domain type protocol => rfl
  | bind fd addr => exact finish_bind fd addr s
  | listen fd => exact finish_listen fd s
  | accept fd => exact finish_accept fd s
  | connect fd addr => exact finish_connect fd addr s
  | closeSocket fd => exact finish_closeSocket fd s

/-! ## What the parts of a call look at -/

theorem fd_of_resume {p p' : Pending} {s : Net} {fd : ℤ} (h : (p.resume s).1 = .more p')
    (hfd : p'.fd = some fd) : p.fd = some fd := by
  cases p with
  | bindUdp | listenTcp =>
    simp only [resume] at h
    split at h <;> cases h
    exact hfd
  | bindRollback fd' oldPort => cases h
  | listenCommit | acceptTcp | acceptCommit | connectCommit =>
    simp only [resume] at h
    split at h <;> cases h
    cases hfd
  | connectTcp fd' localPort localPortWasAuto dstIp dstPort =>
    simp only [resume] at h
    split at h
    · split at h <;> cases h
      exact hfd
    · cases h
      exact hfd
  | connectRollback fd' localPort =>
    simp only [resume] at h
    split at h
    · cases h
    · split at h <;> cases h
  | closeTcp id ret => cases h
  | closeUdp localPort => cases h

theorem getSock_of_settles {p : Pending} {s : Net} {i : SockRef} (hp : p.settles = true)
    (hchanged : (p.resume s).2.socks i ≠ s.socks i) :
    ∃ fd, p.fd = some fd ∧ s.getSock fd = some i := by
  have hentry {fd : ℤ} {j : SockRef} {e : SocketEntry} (hget : s.getSock fd = some j)
      (h : (s.setSock j e).socks i ≠ s.socks i) : s.getSock fd = some i := by
    by_cases hij : i = j
    · rw [hij]
      exact hget
    · rw [socks_setSock, update_of_ne hij] at h
      exact absurd rfl h
  cases p with
  | bindRollback fd oldPort =>
    simp only [resume, setLocalPort] at hchanged
    split at hchanged
    · exact absurd rfl hchanged
    · next j hget => exact ⟨fd, rfl, hentry hget hchanged⟩
  | listenCommit fd id | connectCommit fd dstIp dstPort conn =>
    simp only [resume] at hchanged
    split at hchanged
    · exact absurd rfl hchanged
    · next j hget => exact ⟨fd, rfl, hentry hget hchanged⟩
  | connectRollback fd localPort =>
    simp only [resume] at hchanged
    split at hchanged
    · exact absurd rfl hchanged
    · rename_i j hget
      split at hchanged
      · exact ⟨fd, rfl, hentry hget hchanged⟩
      · exact absurd rfl hchanged
  | _ => cases hp

/-- The first section of a call goes on only with a descriptor that it has found. -/
theorem getSock_of_enter {c : SockCall} {s : Net} {p : Pending} {fd : ℤ}
    (h : (c.enter s).1 = .more p) (hfd : p.fd = some fd) : ∃ i, s.getSock fd = some i := by
  cases c with
  | socket domain type protocol => cases h
  | bind fd' addr =>
    simp only [enter, enterBind] at h
    split at h
    · rename_i i addr hget
      split at h
      · cases h
      · split at h <;> cases h
        cases hfd
        exact ⟨i, hget⟩
    · cases h
  | listen fd' =>
    simp only [enter, enterListen] at h
    split at h
    · cases h
    · rename_i i hget
      split at h <;> cases h
      cases hfd
      exact ⟨i, hget⟩
  | accept fd' =>
    simp only [enter, enterAccept] at h
    split at h
    · cases h
    · split at h <;> cases h
      cases hfd
  | connect fd' addr =>
    simp only [enter, enterConnect] at h
    split at h
    · rename_i i addr hget
      split at h <;> cases h
      cases hfd
      exact ⟨i, hget⟩
    · cases h
  | closeSocket fd' =>
    simp only [enter, enterCloseSocket] at h
    split at h
    · cases h
    · split at h
      · split at h <;> cases h
        cases hfd
      · split at h <;> cases h
        cases hfd

/-! ## Which parts create a socket -/

def Net.firstFree (s : Net) : Option SockRef := (List.finRange 64).find? fun i => !(s.socks i).used

/-- Sockets may go, but none is new. -/
def NoneNew (s s' : Net) : Prop := ∀ i, (s'.socks i).used = true → (s.socks i).used = true

namespace NoneNew

variable {s s' : Net} {i : SockRef} {fd : ℤ}

theorem refl (s : Net) : NoneNew s s := fun _ hi => hi

theorem setSock {e : SocketEntry} (hs : NoneNew s s')
    (he : e.used = true → (s.socks i).used = true) : NoneNew s (s'.setSock i e) := by
  intro j hj
  by_cases hji : j = i
  · rw [hji, socks_setSock, update_self] at hj
    rw [hji]
    exact he hj
  · rw [socks_setSock, update_of_ne hji] at hj
    exact hs j hj

theorem setFound (hget : s.getSock fd = some i) (e : SocketEntry) : NoneNew s (s.setSock i e) :=
  (refl s).setSock fun _ => (getSock_eq_some.mp hget).2

theorem ensureLocalPort (hget : s.getSock fd = some i) : NoneNew s (s.ensureLocalPort i).2 := by
  unfold Net.ensureLocalPort
  split
  · exact setFound hget _
  · exact refl s

end NoneNew

theorem noneNew_enter (c : SockCall) (s : Net)
    (hc : ∀ domain type protocol, c ≠ .socket domain type protocol) : NoneNew s (c.enter s).2 := by
  cases c with
  | socket domain type protocol => exact absurd rfl (hc domain type protocol)
  | bind fd addr =>
    simp only [enter, enterBind]
    split
    · rename_i i addr hget
      split
      · exact .refl s
      · split <;> exact .setFound hget _
    · exact .refl s
  | listen fd =>
    simp only [enter, enterListen]
    split
    · exact .refl s
    · split <;> exact .refl s
  | accept fd =>
    simp only [enter, enterAccept]
    split
    · exact .refl s
    · split <;> exact .refl s
  | connect fd addr =>
    simp only [enter, enterConnect]
    split
    · rename_i i addr hget
      split
      · exact .refl s
      · exact .ensureLocalPort hget
    · exact .refl s
  | closeSocket fd =>
    simp only [enter, enterCloseSocket]
    split
    · exact .refl s
    · next i hget => split <;> exact .setFound hget _

theorem noneNew_resume (p : Pending) (s : Net) (hp : ∀ port conn, p ≠ .acceptCommit port conn) :
    NoneNew s (p.resume s).2 := by
  cases p with
  | acceptCommit port conn => exact absurd rfl (hp port conn)
  | bindRollback fd oldPort =>
    simp only [resume, setLocalPort]
    split
    · exact .refl s
    · next i hget => exact .setFound hget _
  | listenCommit | connectCommit =>
    simp only [resume]
    split
    · exact .refl s
    · next i hget => exact .setFound hget _
  | connectRollback fd localPort =>
    simp only [resume]
    split
    · exact .refl s
    · rename_i i hget
      split
      · exact .setFound hget _
      · exact .refl s
  | _ => exact fun _ hi => hi

theorem firstFree_of_alloc {s : Net} {i : SockRef} (type : SockType) (protocol : ℤ)
    (hfree : (s.socks i).used = false)
    (hused : ((s.allocSocketUnlocked type protocol).2.socks i).used = true) :
    s.firstFree = some i := by
  unfold allocSocketUnlocked at hused
  rw [firstFree]
  split at hused
  · rw [hfree] at hused
    cases hused
  · rename_i k hfind
    have hik : i = k := by
      by_contra hne
      rw [socks_setSock, update_of_ne hne, hfree] at hused
      cases hused
    rw [hik]
    exact hfind

theorem firstFree_of_nmSocket {s : Net} {domain type protocol : ℤ} {i : SockRef}
    (hfree : (s.socks i).used = false)
    (hused : ((s.nmSocket domain type protocol).2.socks i).used = true) :
    domain = nmAfInet ∧ (sockType type).isSome ∧ s.firstFree = some i := by
  have hnone : (s.socks i).used ≠ true := by simp [hfree]
  unfold nmSocket at hused
  split at hused
  · exact absurd hused hnone
  · next hdomain =>
    split at hused
    · exact absurd hused hnone
    · rename_i t ht
      refine ⟨not_not.mp hdomain, by rw [ht]; rfl, firstFree_of_alloc t protocol hfree ?_⟩
      split at hused <;> simpa [*] using hused

theorem firstFree_of_acceptCommit {s : Net} {port : ℕ} {conn : ℤ} {i : SockRef}
    (hfree : (s.socks i).used = false)
    (hused : (((acceptCommit port conn).resume s).2.socks i).used = true) :
    s.firstFree = some i := by
  obtain halloc | ⟨child, hchild, halloc⟩ := allocSocketUnlocked_spec .stream 0 s
  · simp only [resume, halloc, hfree] at hused
    cases hused
  · refine firstFree_of_alloc .stream 0 hfree ?_
    simp only [resume, halloc] at hused ⊢
    by_cases hic : i = child
    · simp [hic, newEntry]
    · simpa [hic] using hused

/-! ## Runs of several callers -/

namespace Callers

variable {τ : Type*} {s : Callers τ} {a : Action τ}

/-- The pending calls are about the instances that they saw. -/
def UpToDate (s : Callers τ) : Prop :=
  ∀ t p n, s.pending t = some (p, n) → ∀ i : SockRef, p.fd = some (i.val : ℤ) → s.inst i = n

theorem upToDate_atStart : UpToDate (atStart : Callers τ) := by
  intro t p n hp
  cases hp

/-- The action is the section in which `nm_socket` or `nm_accept` creates a socket, if there is a
free slot. An `nm_socket` with a wrong domain or type never gets there. -/
def creating (a : Action τ) (s : Callers τ) : Bool :=
  match a with
  | .enter t (.socket domain type _) =>
    (s.pending t).isNone && decide (domain = nmAfInet) && (sockType type).isSome
  | .enter _ _ => false
  | .resume t =>
    match s.pending t with
    | some (.acceptCommit _ _, _) => true
    | _ => false

/-- No socket is created in the slot of a descriptor that a pending call looks up again. -/
def NoReuse (a : Action τ) (s : Callers τ) : Prop :=
  s.creating a = true → ∀ i, s.net.firstFree = some i →
    ∀ t p n, s.pending t = some (p, n) → p.fd ≠ some (i.val : ℤ)

theorem noReuse_of_idle (h : ∀ t, s.pending t = none) : NoReuse a s := by
  intro _ i _ t p n hp
  rw [h t] at hp
  cases hp

theorem noReuse_of_not_creating (h : s.creating a = false) : NoReuse a s := by
  intro hcreating
  rw [h] at hcreating
  cases hcreating

theorem NoReuse.of_enter {t : τ} {c : SockCall} (h : NoReuse (.enter t c) s)
    (hidle : s.pending t = none) {i : SockRef} (hcreates : Creates s.net (c.enter s.net).2 i)
    (t' : τ) (p : Pending) (n : ℕ) (hp : s.pending t' = some (p, n)) : p.fd ≠ some (i.val : ℤ) := by
  by_cases hc : ∃ domain type protocol, c = .socket domain type protocol
  · obtain ⟨domain, type, protocol, rfl⟩ := hc
    obtain ⟨hdomain, htype, hfirst⟩ := firstFree_of_nmSocket hcreates.1 hcreates.2
    exact h (by simp [creating, hidle, hdomain, htype]) i hfirst t' p n hp
  · have hnone := noneNew_enter c s.net fun domain type protocol heq =>
      hc ⟨domain, type, protocol, heq⟩
    have hused := hnone i hcreates.2
    rw [hcreates.1] at hused
    cases hused

theorem NoReuse.of_resume {t : τ} {q : Pending} {m : ℕ} (h : NoReuse (.resume t) s)
    (hq : s.pending t = some (q, m)) {i : SockRef} (hcreates : Creates s.net (q.resume s.net).2 i)
    (t' : τ) (p : Pending) (n : ℕ) (hp : s.pending t' = some (p, n)) : p.fd ≠ some (i.val : ℤ) := by
  by_cases haccept : ∃ port conn, q = .acceptCommit port conn
  · obtain ⟨port, conn, rfl⟩ := haccept
    have hfirst := firstFree_of_acceptCommit hcreates.1 hcreates.2
    exact h (by simp [creating, hq]) i hfirst t' p n hp
  · have hnone := noneNew_resume q s.net fun port conn heq => haccept ⟨port, conn, heq⟩
    have hused := hnone i hcreates.2
    rw [hcreates.1] at hused
    cases hused

variable [DecidableEq τ]

/-- A commit or rollback modifies only the instance that the first section of its call saw. -/
def KeepsInstance (a : Action τ) (s : Callers τ) : Prop :=
  ∀ t p n, a = .resume t → s.pending t = some (p, n) → p.settles = true →
    ∀ i, (s.step a).net.socks i ≠ s.net.socks i → s.inst i = n

section Step

variable {t : τ} {c : SockCall} {p : Pending} {n : ℕ}

theorem step_enter (h : s.pending t = none) :
    s.step (.enter t c) = s.after t (s.seen (c.enter s.net)) (c.enter s.net) := by
  simp only [step, h]

theorem step_enter_busy {q : Pending × ℕ} (h : s.pending t = some q) : s.step (.enter t c) = s := by
  simp only [step, h]

theorem step_resume (h : s.pending t = some (p, n)) :
    s.step (.resume t) = s.after t n (p.resume s.net) := by
  simp only [step, h]

theorem step_resume_idle (h : s.pending t = none) : s.step (.resume t) = s := by
  simp only [step, h]

end Step

theorem UpToDate.keepsInstance (h : UpToDate s) : KeepsInstance a s := by
  rintro t p n rfl hp hsettles i hchanged
  rw [step_resume hp] at hchanged
  obtain ⟨fd, hfd, hget⟩ := getSock_of_settles hsettles hchanged
  obtain ⟨rfl, -⟩ := getSock_eq_some.mp hget
  exact h t p n hp i hfd

theorem pending_after (t : τ) (n : ℕ) (r : Phase × Net) (s : Callers τ) :
    (s.after t n r).pending t = match r.1 with
      | .done _ => none
      | .more p => some (p, n) :=
  update_self ..

theorem pending_after_of_ne {t t' : τ} (ht : t' ≠ t) (n : ℕ) (r : Phase × Net) (s : Callers τ) :
    (s.after t n r).pending t' = s.pending t' :=
  update_of_ne ht ..

/-- The other callers' calls stay up to date, and the caller's own is checked. -/
theorem UpToDate.after (h : UpToDate s) {t : τ} {n : ℕ} {r : Phase × Net}
    (hreuse : ∀ i, Creates s.net r.2 i → ∀ t p n, s.pending t = some (p, n) →
      p.fd ≠ some (i.val : ℤ)) (hown : ∀ p, r.1 = .more p → ∀ i : SockRef, p.fd = some (i.val : ℤ) →
      ¬ Creates s.net r.2 i ∧ s.inst i = n) : UpToDate (s.after t n r) := by
  intro t' p m hp i hfd
  have hinst : (s.after t n r).inst i =
      if Creates s.net r.2 i then s.created + 1 else s.inst i := rfl
  by_cases ht : t' = t
  · rw [ht, pending_after] at hp
    split at hp
    · cases hp
    · rename_i q hq
      cases hp
      obtain ⟨hnot, hsame⟩ := hown p hq i hfd
      rw [hinst, if_neg hnot, hsame]
  · rw [pending_after_of_ne ht] at hp
    rw [hinst, if_neg fun hcreates => hreuse i hcreates t' p m hp hfd]
    exact h t' p m hp i hfd

theorem UpToDate.step (h : UpToDate s) (hreuse : NoReuse a s) : UpToDate (s.step a) := by
  cases a with
  | enter t c =>
    cases hp : s.pending t with
    | some q => rwa [step_enter_busy hp]
    | none =>
      rw [step_enter hp]
      refine h.after (fun i => hreuse.of_enter hp) fun p hmore i hfd => ?_
      obtain ⟨j, hget⟩ := getSock_of_enter hmore hfd
      obtain ⟨heq, hused⟩ := getSock_eq_some.mp hget
      obtain rfl : i = j := Fin.ext (by omega)
      refine ⟨fun hcreates => ?_, ?_⟩
      · rw [hcreates.1] at hused
        cases hused
      · simp [seen, hmore, instAt, hfd, hget]
  | resume t =>
    cases hp : s.pending t with
    | none => rwa [step_resume_idle hp]
    | some q =>
      obtain ⟨p, n⟩ := q
      rw [step_resume hp]
      refine h.after (fun i => hreuse.of_resume hp) fun p' hmore i hfd => ?_
      have hfd' := fd_of_resume hmore hfd
      exact ⟨fun hcreates => hreuse.of_resume hp hcreates t p n hp hfd', h t p n hp i hfd'⟩

/-- Commits and rollbacks keep to their instance in every run in which no descriptor is given
out while a call that looks it up again is pending. -/
theorem settling_keeps_instance (actions : List (Action τ))
    (h : EachStep step NoReuse actions atStart) : EachStep step KeepsInstance actions atStart :=
  h.eachStep (fun _ _ hreuse hs => hs.step hreuse) (fun _ _ _ hs => hs.keepsInstance)
    upToDate_atStart

/-- Two callers, and a descriptor that is closed and given out again while it is not in use. -/
def reuseAfter : List (Action Bool) :=
  [.enter false (.socket nmAfInet nmSockStream 0), .enter false (.bind 0 (some ⟨nmAfInet, 5, 0⟩)),
    .enter false (.listen 0), .resume false, .resume false, .enter true (.closeSocket 0),
    .resume true, .enter true (.socket nmAfInet nmSockStream 0)]

theorem settling_keeps_instance_reuseAfter : EachStep step KeepsInstance reuseAfter atStart := by
  refine settling_keeps_instance reuseAfter ⟨?_, ?_, ?_, ?_, ?_, ?_, ?_, ?_, trivial⟩
  · exact noReuse_of_idle (by decide)
  · exact noReuse_of_idle (by decide +kernel)
  · exact noReuse_of_not_creating (by decide +kernel)
  · exact noReuse_of_not_creating (by decide +kernel)
  · exact noReuse_of_not_creating (by decide +kernel)
  · exact noReuse_of_not_creating (by decide +kernel)
  · exact noReuse_of_not_creating (by decide +kernel)
  · exact noReuse_of_idle (by decide +kernel)

/-- A listen between whose sections another caller closes the descriptor and gets it again. -/
def reuseWithin : List (Action Bool) :=
  [.enter false (.socket nmAfInet nmSockStream 0), .enter false (.bind 0 (some ⟨nmAfInet, 5, 0⟩)),
    .enter false (.listen 0), .resume false, .enter true (.closeSocket 0),
    .enter true (.socket nmAfInet nmSockStream 0), .resume false]

/-- The commit installs the connection in the new socket. -/
theorem listen_commits_to_other_instance :
    ¬ EachStep step KeepsInstance reuseWithin atStart ∧
      ((runCalls step reuseWithin atStart).net.socks 0).tcpConnId = 1 := by
  refine ⟨fun h => ?_, by decide +kernel⟩
  have hkeeps := h.2.2.2.2.2.2.1 false (.listenCommit 0 1) 1 rfl (by decide +kernel) rfl 0
    (by decide +kernel)
  exact absurd hkeeps (by decide +kernel)

end Callers

end NeverMind
