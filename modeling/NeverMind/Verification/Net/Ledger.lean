import NeverMind.Model.Tcp
import Mathlib.Tactic.Common

/-! # Who owns a connection

A ledger records the connections in use and, for each owner, the connection it holds. The moves
are those of sockets over connections, and each comes with the exact condition under which it
leaks nothing. -/

namespace NeverMind

open Function

/-- What matters of a connection in use. -/
structure Conn where
  id : ℤ
  state : TcpState
  port : ℕ

/-- What matters of an owner that has a connection. -/
structure Holder where
  id : ℤ
  listening : Bool

/-- Owners `ι`, slots `κ`, and the next identifier. -/
structure Ledger (ι κ : Type*) where
  own : ι → Option Holder
  conn : κ → Option Conn
  next : ℤ

section Update

variable {α β : Type*} [DecidableEq α] {f : α → Option β} {i j : α} {o : Option β} {x : β}

theorem update_eq_some :
    update f i o j = some x ↔ j = i ∧ o = some x ∨ j ≠ i ∧ f j = some x := by
  by_cases h : j = i
  · simp [h]
  · simp [h]

theorem of_update_none (h : update f i none j = some x) : j ≠ i ∧ f j = some x := by
  simpa using update_eq_some.mp h

theorem update_of_none (hi : f i = none) (hj : f j = some x) :
    update f i o j = some x := by
  refine update_eq_some.mpr (.inr ⟨?_, hj⟩)
  rintro rfl
  rw [hi] at hj
  cases hj

end Update

namespace Ledger

variable {ι κ : Type*} {l l' : Ledger ι κ} {R : Prop}

/-- The owner listens at the port, with a connection of its own. -/
def Serves (i : ι) (port : ℕ) (l : Ledger ι κ) : Prop :=
  ∃ h k c, l.own i = some h ∧ h.listening = true ∧ l.conn k = some c ∧ c.id = h.id ∧
    c.state = .listen ∧ c.port = port

/-- Every connection has an owner, or waits for a listening owner to accept it. -/
def NoLeak (l : Ledger ι κ) : Prop :=
  ∀ k c, l.conn k = some c →
    (∃ i h, l.own i = some h ∧ h.id = c.id) ∨ (c.state = .synRecv ∧ ∃ i, Serves i c.port l)

structure Sound (l : Ledger ι κ) : Prop where
  next_pos : 0 < l.next
  ids : ∀ k c, l.conn k = some c → 0 < c.id ∧ c.id < l.next
  distinct : ∀ k k' c c', l.conn k = some c → l.conn k' = some c' → c.id = c'.id → k = k'
  owned : ∀ i h, l.own i = some h → ∃ k c, l.conn k = some c ∧ c.id = h.id ∧ c.state ≠ .synRecv
  owners : ∀ i j h h', l.own i = some h → l.own j = some h' → h.id = h'.id → i = j
  listeners : ∀ i h k c, l.own i = some h → l.conn k = some c → c.id = h.id → c.state = .listen →
    h.listening = true

theorem Sound.pending_not_owned (hs : Sound l) {k : κ} {c : Conn} (hk : l.conn k = some c)
    (hstate : c.state = .synRecv) {i : ι} {h : Holder} (hi : l.own i = some h) : h.id ≠ c.id := by
  intro hid
  obtain ⟨k', c', hk', hid', hstate'⟩ := hs.owned i h hi
  obtain rfl := hs.distinct k' k c' c hk' hk (hid'.trans hid)
  rw [hk] at hk'
  cases hk'
  exact hstate' hstate

theorem Sound.holder_lt (hs : Sound l) {i : ι} {h : Holder} (hi : l.own i = some h) :
    0 < h.id ∧ h.id < l.next := by
  obtain ⟨k, c, hk, hid, -⟩ := hs.owned i h hi
  rw [← hid]
  exact hs.ids k c hk

theorem Serves.mono {i : ι} {port : ℕ} (h : Serves i port l)
    (hown : ∀ h, l.own i = some h → l'.own i = some h)
    (hconn : ∀ k c, l.conn k = some c → c.state = .listen → l'.conn k = some c) :
    Serves i port l' := by
  obtain ⟨h, k, c, hi, hlistening, hk, hid, hstate, hport⟩ := h
  exact ⟨h, k, c, hown h hi, hlistening, hconn k c hk hstate, hid, hstate, hport⟩

/-- Where owners and listeners stay, the connections that stay do not leak. -/
theorem NoLeak.of_kept (hl : NoLeak l) {k : κ} {c : Conn} (hk : l.conn k = some c)
    (hown : ∀ i h, l.own i = some h → l'.own i = some h)
    (hconn : ∀ k c, l.conn k = some c → c.state = .listen → l'.conn k = some c) :
    (∃ i h, l'.own i = some h ∧ h.id = c.id) ∨ (c.state = .synRecv ∧ ∃ i, Serves i c.port l') := by
  obtain ⟨i, h, hi, hid⟩ | ⟨hstate, i, hserves⟩ := hl k c hk
  · exact .inl ⟨i, h, hown i h hi, hid⟩
  · exact .inr ⟨hstate, i, hserves.mono (hown i) hconn⟩

theorem Sound.serves (hs : Sound l) (hl : NoLeak l) {k : κ} {c : Conn} (hk : l.conn k = some c)
    (hstate : c.state = .listen) : ∃ i, Serves i c.port l := by
  obtain ⟨i, h, hi, hid⟩ | ⟨hpending, -⟩ := hl k c hk
  · exact ⟨i, h, k, c, hi, hs.listeners i h k c hi hk hid.symm hstate, hk, hid.symm, hstate, rfl⟩
  · rw [hstate] at hpending
    cases hpending

/-! ## Connections come and go -/

section Connections

variable [DecidableEq κ]

theorem Sound.insert (hs : Sound l) {k : κ} (hk : l.conn k = none) (state : TcpState) (port : ℕ) :
    Sound { l with
      conn := update l.conn k (some ⟨l.next, state, port⟩), next := l.next + 1 } where
  next_pos := hs.next_pos.trans (lt_add_one _)
  ids := by
    intro m c hm
    obtain ⟨-, heq⟩ | ⟨-, hold⟩ := update_eq_some.mp hm
    · cases heq
      exact ⟨hs.next_pos, lt_add_one _⟩
    · exact ⟨(hs.ids m c hold).1, (hs.ids m c hold).2.trans (lt_add_one _)⟩
  distinct := by
    intro m m' c c' hm hm' hid
    obtain ⟨hmk, heq⟩ | ⟨-, hold⟩ := update_eq_some.mp hm
    · obtain ⟨hmk', -⟩ | ⟨-, hold'⟩ := update_eq_some.mp hm'
      · exact hmk.trans hmk'.symm
      · cases heq
        exact absurd hid (hs.ids m' c' hold').2.ne'
    · obtain ⟨-, heq'⟩ | ⟨-, hold'⟩ := update_eq_some.mp hm'
      · cases heq'
        exact absurd hid (hs.ids m c hold).2.ne
      · exact hs.distinct m m' c c' hold hold' hid
  owned := by
    intro i h hi
    obtain ⟨m, c, hm, hid, hstate⟩ := hs.owned i h hi
    exact ⟨m, c, update_of_none hk hm, hid, hstate⟩
  owners := hs.owners
  listeners := by
    intro i h m c hi hm hid
    obtain ⟨-, heq⟩ | ⟨-, hold⟩ := update_eq_some.mp hm
    · cases heq
      exact absurd hid (hs.holder_lt hi).2.ne'
    · exact hs.listeners i h m c hi hold hid

theorem Sound.remove (hs : Sound l) {k : κ} {c : Conn} (hk : l.conn k = some c)
    (hfree : ∀ j h, l.own j = some h → h.id ≠ c.id) :
    Sound { l with conn := update l.conn k none } where
  next_pos := hs.next_pos
  ids := fun m d hm => hs.ids m d (of_update_none hm).2
  distinct := fun m m' d d' hm hm' =>
    hs.distinct m m' d d' (of_update_none hm).2 (of_update_none hm').2
  owned := by
    intro j h hj
    obtain ⟨m, d, hm, hid, hstate⟩ := hs.owned j h hj
    have hmk : m ≠ k := by
      rintro rfl
      rw [hk] at hm
      cases hm
      exact hfree j h hj hid.symm
    exact ⟨m, d, (update_of_ne hmk _ _).trans hm, hid, hstate⟩
  owners := hs.owners
  listeners := fun j h m d hj hm => hs.listeners j h m d hj (of_update_none hm).2

theorem Sound.settle (hs : Sound l) {k : κ} {c : Conn} (hk : l.conn k = some c)
    (hstate : c.state = .synRecv) :
    Sound { l with conn := update l.conn k (some { c with state := .established }) } := by
  have hold {m : κ} {d : Conn}
      (hm : update l.conn k (some { c with state := .established }) m = some d) :
      ∃ d', l.conn m = some d' ∧ d'.id = d.id ∧ (d.state = .listen → d'.state = .listen) := by
    obtain ⟨hmk, heq⟩ | ⟨-, hsame⟩ := update_eq_some.mp hm
    · cases heq
      exact ⟨c, hmk ▸ hk, rfl, by simp⟩
    · exact ⟨d, hsame, rfl, id⟩
  refine ⟨hs.next_pos, ?_, ?_, ?_, hs.owners, ?_⟩
  · intro m d hm
    obtain ⟨d', hm', hid, -⟩ := hold hm
    exact hid ▸ hs.ids m d' hm'
  · intro m m' d d' hm hm' hid
    obtain ⟨e, he, hide, -⟩ := hold hm
    obtain ⟨e', he', hide', -⟩ := hold hm'
    exact hs.distinct m m' e e' he he' (hide.trans (hid.trans hide'.symm))
  · intro j h hj
    obtain ⟨m, d, hm, hid, hnot⟩ := hs.owned j h hj
    have hmk : m ≠ k := by
      rintro rfl
      rw [hk] at hm
      cases hm
      exact hnot hstate
    exact ⟨m, d, (update_of_ne hmk _ _).trans hm, hid, hnot⟩
  · intro j h m d hj hm hid hlisten
    obtain ⟨d', hm', hid', hlisten'⟩ := hold hm
    exact hs.listeners j h m d' hj hm' (hid'.trans hid) (hlisten' hlisten)

theorem noLeak_drop (hl : NoLeak l) {k : κ} {c : Conn} (hk : l.conn k = some c)
    (hstate : c.state = .synRecv) : NoLeak { l with conn := update l.conn k none } := by
  intro m d hm
  refine hl.of_kept (of_update_none hm).2 (fun _ _ hj => hj) fun n e hn hlisten => ?_
  refine update_eq_some.mpr (.inr ⟨?_, hn⟩)
  rintro rfl
  rw [hk] at hn
  cases hn
  rw [hstate] at hlisten
  cases hlisten

end Connections

/-! ## Owners take and give up -/

section Owners

variable [DecidableEq ι]

theorem Sound.grant (hs : Sound l) (i : ι) {k : κ} {c : Conn} {listening : Bool}
    (hk : l.conn k = some c) (hstate : c.state ≠ .synRecv)
    (hlistening : c.state = .listen → listening = true)
    (hfree : ∀ j h, j ≠ i → l.own j = some h → h.id ≠ c.id) :
    Sound { l with own := update l.own i (some ⟨c.id, listening⟩) } where
  next_pos := hs.next_pos
  ids := hs.ids
  distinct := hs.distinct
  owned := by
    intro j h hj
    obtain ⟨-, heq⟩ | ⟨-, hold⟩ := update_eq_some.mp hj
    · cases heq
      exact ⟨k, c, hk, rfl, hstate⟩
    · exact hs.owned j h hold
  owners := by
    intro j j' h h' hj hj' hid
    obtain ⟨hji, heq⟩ | ⟨hne, hold⟩ := update_eq_some.mp hj
    · obtain ⟨hji', -⟩ | ⟨hne', hold'⟩ := update_eq_some.mp hj'
      · exact hji.trans hji'.symm
      · cases heq
        exact absurd hid.symm (hfree j' h' hne' hold')
    · obtain ⟨-, heq'⟩ | ⟨-, hold'⟩ := update_eq_some.mp hj'
      · cases heq'
        exact absurd hid (hfree j h hne hold)
      · exact hs.owners j j' h h' hold hold' hid
  listeners := by
    intro j h m d hj hm hid hlisten
    obtain ⟨-, heq⟩ | ⟨-, hold⟩ := update_eq_some.mp hj
    · cases heq
      obtain rfl := hs.distinct m k d c hm hk hid
      rw [hk] at hm
      cases hm
      exact hlistening hlisten
    · exact hs.listeners j h m d hold hm hid hlisten

theorem Sound.revoke (hs : Sound l) (i : ι) :
    Sound { l with own := update l.own i none } where
  next_pos := hs.next_pos
  ids := hs.ids
  distinct := hs.distinct
  owned := fun j h hj => hs.owned j h (of_update_none hj).2
  owners := fun j j' h h' hj hj' => hs.owners j j' h h' (of_update_none hj).2 (of_update_none hj').2
  listeners := fun j h m c hj => hs.listeners j h m c (of_update_none hj).2

theorem Sound.leaks_of_regrant (hs : Sound l) {i : ι} {h new : Holder} (hi : l.own i = some h)
    (hnew : l.next ≤ new.id) (hown : l'.own = update l.own i (some new))
    (hconn : ∀ k c, l.conn k = some c → l'.conn k = some c) : ¬ NoLeak l' := by
  intro hl
  obtain ⟨k, c, hk, hid, hstate⟩ := hs.owned i h hi
  obtain ⟨j, h', hj, hid'⟩ | ⟨hpending, -⟩ := hl k c (hconn k c hk)
  · rw [hown] at hj
    obtain ⟨-, heq⟩ | ⟨hne, hold⟩ := update_eq_some.mp hj
    · cases heq
      have hlt := (hs.ids k c hk).2
      omega
    · exact hne (hs.owners j i h' h hold hi (hid'.trans hid))
  · exact hstate hpending

end Owners

/-! ## Moves -/

variable [DecidableEq ι] [DecidableEq κ]

/-- What can happen, and the condition `R` on which nothing leaks. -/
inductive Move (l : Ledger ι κ) (R : Prop) : Ledger ι κ → Prop where
  | idle (next : ℤ) (hnext : l.next ≤ next) (hR : R) : Move l R { l with next := next }
  | enlist (i : ι) (k : κ) (port : ℕ) (hk : l.conn k = none) (hR : R ↔ l.own i = none) :
      Move l R
        { own := update l.own i (some ⟨l.next, true⟩)
          conn := update l.conn k (some ⟨l.next, .listen, port⟩)
          next := l.next + 1 }
  | link (i : ι) (k k' : κ) (listening : Bool) (srcPort dstPort : ℕ) (hne : k ≠ k')
      (hk : l.conn k = none) (hk' : l.conn k' = none)
      (hlistener : ∃ m c, l.conn m = some c ∧ c.state = .listen ∧ c.port = dstPort)
      (hR : R ↔ l.own i = none) :
      Move l R
        { own := update l.own i (some ⟨l.next, listening⟩)
          conn := update (update l.conn k (some ⟨l.next, .established, srcPort⟩))
            k' (some ⟨l.next + 1, .synRecv, dstPort⟩)
          next := l.next + 1 + 1 }
  | take (i : ι) (k : κ) (c : Conn) (hi : l.own i = none) (hk : l.conn k = some c)
      (hstate : c.state = .synRecv) (hR : R) :
      Move l R
        { l with
          own := update l.own i (some ⟨c.id, false⟩)
          conn := update l.conn k (some { c with state := .established }) }
  | drop (k : κ) (c : Conn) (hk : l.conn k = some c) (hstate : c.state = .synRecv) (hR : R) :
      Move l R { l with conn := update l.conn k none }
  | close (i : ι) (k : κ) (h : Holder) (c : Conn) (hi : l.own i = some h) (hk : l.conn k = some c)
      (hid : c.id = h.id)
      (hR : R ↔ ∀ k c, l.conn k = some c → c.state = .synRecv → Serves i c.port l →
        ∃ j, j ≠ i ∧ Serves j c.port l) :
      Move l R
        { l with own := update l.own i none, conn := update l.conn k none }

theorem Move.sound (hmove : Move l R l') (hs : Sound l) : Sound l' := by
  cases hmove with
  | idle next hnext hR =>
    exact ⟨hs.next_pos.trans_le hnext,
      fun k c hk => ⟨(hs.ids k c hk).1, (hs.ids k c hk).2.trans_le hnext⟩, hs.distinct, hs.owned,
      hs.owners, hs.listeners⟩
  | enlist i k port hk hR =>
    exact (hs.insert hk .listen port).grant i (k := k) (update_self ..) (by simp)
      (fun _ => rfl) fun j h _ hj => (hs.holder_lt hj).2.ne
  | link i k k' listening srcPort dstPort hne hk hk' hlistener hR =>
    have hfirst := hs.insert hk .established srcPort
    have hsecond := hfirst.insert (k := k')
      ((update_of_ne hne.symm _ _).trans hk') .synRecv dstPort
    refine hsecond.grant i (k := k) (c := ⟨l.next, .established, srcPort⟩) ?_ (by simp) (by simp)
      fun j h _ hj => (hs.holder_lt hj).2.ne
    exact (update_of_ne hne _ _).trans (update_self ..)
  | take i k c hi hk hstate hR =>
    exact (hs.settle hk hstate).grant i (k := k) (c := { c with state := .established })
      (update_self ..) (by simp) (by simp)
      fun j h _ hj => hs.pending_not_owned hk hstate hj
  | drop k c hk hstate hR => exact hs.remove hk fun j h hj => hs.pending_not_owned hk hstate hj
  | close i k h c hi hk hid hR =>
    refine (hs.revoke i).remove hk fun j h' hj hid' => ?_
    obtain ⟨hne, hold⟩ := of_update_none hj
    exact hne (hs.owners j i h' h hold hi (hid'.trans hid))

theorem noLeak_enlist (hs : Sound l) (hl : NoLeak l) (i : ι) {k : κ} (hk : l.conn k = none)
    (port : ℕ) :
    NoLeak { own := update l.own i (some ⟨l.next, true⟩)
             conn := update l.conn k (some ⟨l.next, .listen, port⟩)
             next := l.next + 1 } ↔ l.own i = none := by
  constructor
  · intro hafter
    by_contra hsome
    obtain ⟨h, hi⟩ := Option.ne_none_iff_exists'.mp hsome
    exact hs.leaks_of_regrant hi le_rfl rfl (fun m c hm => update_of_none hk hm) hafter
  · intro hi m c hm
    obtain ⟨-, heq⟩ | ⟨-, hold⟩ := update_eq_some.mp hm
    · cases heq
      exact .inl ⟨i, _, update_self .., rfl⟩
    · exact hl.of_kept hold (fun j h hj => update_of_none hi hj)
        fun m c hm _ => update_of_none hk hm

theorem noLeak_link (hs : Sound l) (hl : NoLeak l) (i : ι) {k k' : κ} (listening : Bool)
    (srcPort dstPort : ℕ) (hne : k ≠ k') (hk : l.conn k = none) (hk' : l.conn k' = none)
    (hlistener : ∃ m c, l.conn m = some c ∧ c.state = .listen ∧ c.port = dstPort) :
    NoLeak { own := update l.own i (some ⟨l.next, listening⟩)
             conn := update
               (update l.conn k (some ⟨l.next, .established, srcPort⟩))
               k' (some ⟨l.next + 1, .synRecv, dstPort⟩)
             next := l.next + 1 + 1 } ↔ l.own i = none := by
  have hkept {o o' : Option Conn} {m : κ} {c : Conn} (hm : l.conn m = some c) :
      update (update l.conn k o) k' o' m = some c :=
    update_of_none ((update_of_ne hne.symm _ _).trans hk') (update_of_none hk hm)
  constructor
  · intro hafter
    by_contra hsome
    obtain ⟨h, hi⟩ := Option.ne_none_iff_exists'.mp hsome
    exact hs.leaks_of_regrant hi le_rfl rfl (fun m c hm => hkept hm) hafter
  · intro hi m c hm
    have hown (j : ι) (h : Holder) (hj : l.own j = some h) :
        update l.own i (some ⟨l.next, listening⟩) j = some h := update_of_none hi hj
    obtain ⟨-, heq⟩ | ⟨-, hm⟩ := update_eq_some.mp hm
    · -- the server end waits at the listener's port
      cases heq
      obtain ⟨n, d, hn, hstate, rfl⟩ := hlistener
      obtain ⟨j, hserves⟩ := hs.serves hl hn hstate
      exact .inr ⟨rfl, j, hserves.mono (hown j) fun m c hm _ => hkept hm⟩
    · obtain ⟨-, heq⟩ | ⟨-, hold⟩ := update_eq_some.mp hm
      · cases heq
        exact .inl ⟨i, _, update_self .., rfl⟩
      · exact hl.of_kept hold hown fun m c hm _ => hkept hm

theorem noLeak_take (hl : NoLeak l) {i : ι} {k : κ} {c : Conn} (hi : l.own i = none)
    (hk : l.conn k = some c) (hstate : c.state = .synRecv) :
    NoLeak { l with
      own := update l.own i (some ⟨c.id, false⟩)
      conn := update l.conn k (some { c with state := .established }) } := by
  intro m d hm
  obtain ⟨-, heq⟩ | ⟨-, hold⟩ := update_eq_some.mp hm
  · cases heq
    exact .inl ⟨i, _, update_self .., rfl⟩
  · refine hl.of_kept hold (fun j h hj => update_of_none hi hj) fun n e hn hlisten => ?_
    refine update_eq_some.mpr (.inr ⟨?_, hn⟩)
    rintro rfl
    rw [hk] at hn
    cases hn
    rw [hstate] at hlisten
    cases hlisten

theorem noLeak_close (hs : Sound l) (hl : NoLeak l) {i : ι} {k : κ} {h : Holder} {c : Conn}
    (hi : l.own i = some h) (hk : l.conn k = some c) (hid : c.id = h.id) :
    NoLeak { l with own := update l.own i none, conn := update l.conn k none } ↔
      ∀ k c, l.conn k = some c → c.state = .synRecv → Serves i c.port l →
        ∃ j, j ≠ i ∧ Serves j c.port l := by
  have hother {j : ι} {h' : Holder} {m : κ} {d : Conn} (hj : l.own j = some h') (hji : j ≠ i)
      (hm : l.conn m = some d) (hdid : d.id = h'.id) :
      update l.conn k none m = some d := by
    refine update_eq_some.mpr (.inr ⟨?_, hm⟩)
    rintro rfl
    rw [hk] at hm
    cases hm
    exact hji (hs.owners j i h' h hj hi (hdid.symm.trans hid))
  constructor
  · intro hafter m d hm hpending _
    have hmk : m ≠ k := by
      rintro rfl
      rw [hk] at hm
      cases hm
      exact hs.pending_not_owned hk hpending hi hid.symm
    obtain ⟨j, h', hj, hdid⟩ | ⟨-, j, h', n, e, hj, hlistening, hn, heid, hlisten, hport⟩ :=
      hafter m d ((update_of_ne hmk _ _).trans hm)
    · exact absurd hdid (hs.pending_not_owned hm hpending (of_update_none hj).2)
    · obtain ⟨hji, hj⟩ := of_update_none hj
      exact ⟨j, hji, h', n, e, hj, hlistening, (of_update_none hn).2, heid, hlisten, hport⟩
  · intro hothers m d hm
    obtain ⟨hmk, hold⟩ := of_update_none hm
    have hserves {j : ι} (hji : j ≠ i) (hj : Serves j d.port l) : Serves j d.port
        { l with own := update l.own i none, conn := update l.conn k none } := by
      obtain ⟨h', n, e, hj, hlistening, hn, heid, hlisten, hport⟩ := hj
      exact ⟨h', n, e, (update_of_ne hji _ _).trans hj, hlistening,
        hother hj hji hn heid, heid, hlisten, hport⟩
    obtain ⟨j, h', hj, hdid⟩ | ⟨hpending, j, hj⟩ := hl m d hold
    · refine .inl ⟨j, h', (update_of_ne ?_ _ _).trans hj, hdid⟩
      rintro rfl
      rw [hi] at hj
      cases hj
      exact hmk (hs.distinct m k d c hold hk (hdid.symm.trans hid.symm))
    · by_cases hji : j = i
      · obtain ⟨j', hji', hj'⟩ := hothers m d hold hpending (hji ▸ hj)
        exact .inr ⟨hpending, j', hserves hji' hj'⟩
      · exact .inr ⟨hpending, j, hserves hji hj⟩

/-- A move leaks nothing exactly on its condition. -/
theorem Move.noLeak_iff (hmove : Move l R l') (hs : Sound l) (hl : NoLeak l) : NoLeak l' ↔ R := by
  cases hmove with
  | idle next hnext hR => exact iff_of_true hl hR
  | enlist i k port hk hR => exact (noLeak_enlist hs hl i hk port).trans hR.symm
  | link i k k' listening srcPort dstPort hne hk hk' hlistener hR =>
    exact (noLeak_link hs hl i listening srcPort dstPort hne hk hk' hlistener).trans hR.symm
  | take i k c hi hk hstate hR => exact iff_of_true (noLeak_take hl hi hk hstate) hR
  | drop k c hk hstate hR => exact iff_of_true (noLeak_drop hl hk hstate) hR
  | close i k h c hi hk hid hR => exact (noLeak_close hs hl hi hk hid).trans hR.symm

end Ledger

end NeverMind
