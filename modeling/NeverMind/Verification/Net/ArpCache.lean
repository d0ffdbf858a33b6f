import Mathlib.Data.Fintype.Card
import Mathlib.Data.List.Induction
import NeverMind.Library.Recency
import NeverMind.Model.Arp

/-! # The ARP cache keeps the most recent addresses

The ages order the slots in use by recency. An add moves the slot of its address to the front of
this order, or takes a free slot, or takes the last slot of the order. -/

namespace NeverMind.Arp

open Recency List Function

variable {s : Arp} {ip : ℕ} {mac : Mac}

/-! ## The loop -/

/-- What the loop has found when it reaches the end of the table. -/
structure Scanned (ip : ℕ) (s : Arp) (slots : List ArpRef) (acc r : ArpScan) : Prop where
  missing : ∀ i ∈ slots, (s.cache i).used = true → (s.cache i).ip ≠ ip
  slot : r.slot = acc.slot.or ((slots.find? fun i => !(s.cache i).used).map Fin.val)
  least : ∀ i ∈ slots, (s.cache i).used = true → r.oldest ≤ (s.cache i).age
  oldest_le : r.oldest ≤ acc.oldest
  oldestIdx : (r.oldest = acc.oldest ∧ r.oldestIdx = acc.oldestIdx) ∨
    ∃ i ∈ slots, (s.cache i).used = true ∧ r.oldest = (s.cache i).age ∧ r.oldestIdx = i.val

theorem scan_inl {slots : List ArpRef} {acc : ArpScan} {i : ArpRef}
    (h : s.scan ip slots acc = .inl i) : (s.cache i).used = true ∧ (s.cache i).ip = ip := by
  induction slots generalizing acc with
  | nil => cases h
  | cons j slots ih =>
    unfold scan at h
    split at h
    · rename_i hmatch
      cases h
      exact hmatch
    · dsimp only at h
      split at h
      · exact ih h
      · exact ih h

theorem scan_inr {slots : List ArpRef} {acc r : ArpScan} (h : s.scan ip slots acc = .inr r) :
    Scanned ip s slots acc r := by
  induction slots generalizing acc with
  | nil =>
    cases h
    exact ⟨by simp, by simp, by simp, le_rfl, .inl ⟨rfl, rfl⟩⟩
  | cons j slots ih =>
    unfold scan at h
    split at h
    · cases h
    · rename_i hother
      have hmiss : (s.cache j).used = true → (s.cache j).ip ≠ ip :=
        fun hused hip => hother ⟨hused, hip⟩
      dsimp only at h
      split at h
      · rename_i hyounger
        obtain ⟨hused, hlt⟩ := hyounger
        have hrest := ih h
        refine ⟨by simpa using ⟨hmiss, hrest.missing⟩, ?_, ?_, ?_, ?_⟩
        · rw [hrest.slot]
          simp [hused]
        · simpa using ⟨fun _ => hrest.oldest_le, hrest.least⟩
        · exact hrest.oldest_le.trans hlt.le
        · obtain ⟨hage, hidx⟩ | ⟨i, hi, hfound⟩ := hrest.oldestIdx
          · exact .inr ⟨j, mem_cons_self, hused, hage, hidx⟩
          · exact .inr ⟨i, mem_cons_of_mem j hi, hfound⟩
      · rename_i hyounger
        have hrest := ih h
        have hle : (s.cache j).used = true → r.oldest ≤ (s.cache j).age := by
          intro hused
          exact hrest.oldest_le.trans (not_lt.mp fun hlt => hyounger ⟨hused, hlt⟩)
        refine ⟨by simpa using ⟨hmiss, hrest.missing⟩, ?_, ?_, hrest.oldest_le, ?_⟩
        · rw [hrest.slot]
          cases hused : (s.cache j).used with
          | true => simp [hused]
          | false =>
            cases hslot : acc.slot with
            | none => simp [hused]
            | some k => simp
        · simpa using ⟨hle, hrest.least⟩
        · obtain hsame | ⟨i, hi, hfound⟩ := hrest.oldestIdx
          · exact .inl hsame
          · exact .inr ⟨i, mem_cons_of_mem j hi, hfound⟩

/-- The slot that an add of the address takes. -/
inductive Takes (ip : ℕ) (s : Arp) (t : ArpRef) : Prop where
  | refreshed (hused : (s.cache t).used = true) (hip : (s.cache t).ip = ip)
  | free (hmissing : ∀ i, (s.cache i).used = true → (s.cache i).ip ≠ ip)
      (hunused : (s.cache t).used = false)
  | oldest (hmissing : ∀ i, (s.cache i).used = true → (s.cache i).ip ≠ ip)
      (hfull : ∀ i, (s.cache i).used = true) (hleast : ∀ i, (s.cache t).age ≤ (s.cache i).age)

theorem setEntry_val (t : ArpRef) (e : ArpEntry) (s : Arp) :
    s.setEntry t.val e = { s with cache := update s.cache t e } := by
  simp only [setEntry, Fin.val_inj, Arp.mk.injEq, and_true]
  funext i
  rw [update_apply]

theorem arpCacheAdd_spec (ip : ℕ) (mac : Mac)
    (hages : ∀ i, (s.cache i).used = true → (s.cache i).age < 2 ^ 64 - 1) :
    ∃ t, Takes ip s t ∧ s.arpCacheAdd ip mac =
      ⟨update s.cache t ⟨true, ip, mac, u64 (s.ageTick + 1)⟩, u64 (s.ageTick + 1)⟩ := by
  unfold arpCacheAdd
  obtain ⟨s', hs'⟩ : ∃ s' : Arp, s' = { s with ageTick := u64 (s.ageTick + 1) } := ⟨_, rfl⟩
  have hcache : s'.cache = s.cache := by rw [hs']
  have htick : s'.ageTick = u64 (s.ageTick + 1) := by rw [hs']
  rw [← hs', ← htick]
  cases hscan : s'.scan ip (finRange 32) ⟨none, 2 ^ 64 - 1, 0⟩ with
  | inl t =>
    obtain ⟨hused, hip⟩ := scan_inl hscan
    rw [hcache] at hused hip
    refine ⟨t, .refreshed hused hip, ?_⟩
    simp only [hscan, setEntry_val, hcache, hused, hip]
  | inr r =>
    have hscanned := scan_inr hscan
    have hmissing (i : ArpRef) (hi : (s.cache i).used = true) : (s.cache i).ip ≠ ip := by
      have h := hscanned.missing i (mem_finRange i)
      rw [hcache] at h
      exact h hi
    have hslot := hscanned.slot
    rw [Option.none_or, hcache] at hslot
    cases hfind : (finRange 32).find? fun i => !(s.cache i).used with
    | some t =>
      have hunused : (s.cache t).used = false := by simpa using find?_some hfind
      rw [hfind] at hslot
      refine ⟨t, .free hmissing hunused, ?_⟩
      simp only [hscan, hslot, Option.map_some, Option.getD_some, setEntry_val, hcache]
    | none =>
      rw [hfind] at hslot
      have hfull (i : ArpRef) : (s.cache i).used = true := by
        simpa using find?_eq_none.mp hfind i (mem_finRange i)
      have hleast (i : ArpRef) : r.oldest ≤ (s.cache i).age := by
        have h := hscanned.least i (mem_finRange i)
        rw [hcache] at h
        exact h (hfull i)
      obtain ⟨hoff, -⟩ | ⟨t, -, -, hage, hidx⟩ := hscanned.oldestIdx
      · -- the first age already lies below the starting value of `oldest`
        have hfirst := hages 0 (hfull 0)
        have hle := hleast 0
        dsimp only at hoff
        omega
      · rw [hcache] at hage
        refine ⟨t, .oldest hmissing hfull fun i => hage ▸ hleast i, ?_⟩
        simp only [hscan, hslot, Option.map_none, Option.getD_none, hidx, setEntry_val, hcache]

/-! ## The order of the slots -/

def entry (s : Arp) (i : ArpRef) : ℕ × Mac := ((s.cache i).ip, (s.cache i).mac)

/-- The slots in use, the most recent first, hold the most recent addresses of the history. -/
structure Ordered (s : Arp) (h : List (ℕ × Mac)) (order : List ArpRef) : Prop where
  nodup : order.Nodup
  mem : ∀ i, i ∈ order ↔ (s.cache i).used = true
  ages : order.Pairwise fun i j => (s.cache j).age < (s.cache i).age
  entries : order.map s.entry = (recents h).take 32
  tick : s.ageTick = h.length
  age_le : ∀ i, (s.cache i).used = true → (s.cache i).age ≤ s.ageTick

namespace Ordered

variable {h : List (ℕ × Mac)} {order : List ArpRef} {t : ArpRef}

theorem atStart : Ordered Arp.atStart [] [] where
  nodup := nodup_nil
  mem := by simp [Arp.atStart]
  ages := Pairwise.nil
  entries := rfl
  tick := rfl
  age_le := by simp [Arp.atStart]

theorem length_le (ho : Ordered s h order) : order.length ≤ 32 := by
  simpa using Nodup.length_le_card ho.nodup

theorem keys_nodup (ho : Ordered s h order) : (order.map fun i => (s.cache i).ip).Nodup := by
  have hkeys := (nodup_recents h).sublist ((take_sublist 32 (recents h)).map Prod.fst)
  rw [← ho.entries, map_map] at hkeys
  exact hkeys

theorem distinct (ho : Ordered s h order) {i j : ArpRef} (hi : (s.cache i).used = true)
    (hj : (s.cache j).used = true) (hip : (s.cache i).ip = (s.cache j).ip) : i = j :=
  inj_on_of_nodup_map ho.keys_nodup ((ho.mem i).mpr hi) ((ho.mem j).mpr hj) hip

theorem eq_append_of_least (ho : Ordered s h order) (ht : t ∈ order)
    (hleast : ∀ i, (s.cache t).age ≤ (s.cache i).age) : ∃ init, order = init ++ [t] := by
  obtain ⟨front, back, rfl⟩ := append_of_mem ht
  cases back with
  | nil => exact ⟨front, rfl⟩
  | cons j back =>
    have hlt := (pairwise_cons.mp (pairwise_append.mp ho.ages).2.1).1 j mem_cons_self
    exact absurd (hleast j) (not_le.mpr hlt)

theorem filter_refreshed (ho : Ordered s h order) (hused : (s.cache t).used = true) :
    order.filter (fun i => (s.cache i).ip ≠ (s.cache t).ip) = order.erase t := by
  rw [ho.nodup.erase_eq_filter]
  refine filter_congr fun i hi => ?_
  by_cases hit : i = t
  · simp [hit]
  · have hne : (s.cache i).ip ≠ (s.cache t).ip := fun heq =>
      hit (ho.distinct ((ho.mem i).mp hi) hused heq)
    simp [hit, hne]

theorem filter_missing (ho : Ordered s h order)
    (hmissing : ∀ i, (s.cache i).used = true → (s.cache i).ip ≠ ip) :
    order.filter (fun i => (s.cache i).ip ≠ ip) = order :=
  filter_eq_self.mpr fun i hi => decide_eq_true (hmissing i ((ho.mem i).mp hi))

theorem length_of_full (ho : Ordered s h order) (hfull : ∀ i, (s.cache i).used = true) :
    order.length = 32 := by
  have hperm := (perm_ext_iff_of_nodup ho.nodup (nodup_finRange 32)).mpr fun i => by
    simp [ho.mem, hfull]
  rw [hperm.length_eq, length_finRange]

theorem entries_erase (ho : Ordered s h order) (htakes : Takes ip s t) :
    (order.erase t).map s.entry = ((order.map s.entry).filter fun b => b.1 ≠ ip).take 31 := by
  have hfilter : (order.map s.entry).filter (fun b => b.1 ≠ ip) =
      (order.filter fun i => (s.cache i).ip ≠ ip).map s.entry := filter_map ..
  rw [hfilter]
  cases htakes with
  | refreshed hused hip =>
    have hlength := ho.length_le
    rw [← hip, ho.filter_refreshed hused, take_of_length_le]
    rw [length_map, length_erase_of_mem ((ho.mem t).mpr hused)]
    omega
  | free hmissing hunused =>
    have hnot : t ∉ order := by
      intro hmem
      rw [(ho.mem t).mp hmem] at hunused
      cases hunused
    have hroom : (t :: order).length ≤ 32 := by
      simpa using Nodup.length_le_card (nodup_cons.mpr ⟨hnot, ho.nodup⟩)
    rw [ho.filter_missing hmissing, erase_of_not_mem hnot, take_of_length_le]
    rw [length_map]
    rw [length_cons] at hroom
    omega
  | oldest hmissing hfull hleast =>
    have hall := ho.length_of_full hfull
    rw [ho.filter_missing hmissing]
    obtain ⟨init, rfl⟩ := ho.eq_append_of_least ((ho.mem t).mpr (hfull t)) hleast
    have hinit : (init.map s.entry).length = 31 := by simpa using hall
    have hnot : t ∉ init := by
      have hnodup := ho.nodup
      rw [nodup_append] at hnodup
      exact fun hi => hnodup.2.2 t hi t (by simp) rfl
    rw [erase_append_right _ hnot, map_append, map_append,
      take_append_of_le_length hinit.ge, take_of_length_le hinit.le]
    simp

theorem add (ho : Ordered s h order) (hlt : h.length + 1 < 2 ^ 64 - 1) (ip : ℕ) (mac : Mac) :
    ∃ order', Ordered (s.arpCacheAdd ip mac) ((ip, mac) :: h) order' := by
  have htick := ho.tick
  obtain ⟨t, htakes, hrun⟩ := arpCacheAdd_spec (s := s) ip mac fun i hi => by
    have hage := ho.age_le i hi
    omega
  have hnext : u64 (s.ageTick + 1) = s.ageTick + 1 := u64_of_lt (by omega)
  rw [hrun, hnext]
  have hnot : t ∉ order.erase t := ho.nodup.not_mem_erase
  have hkept {i : ArpRef} (hi : i ∈ order.erase t) : i ≠ t ∧ i ∈ order :=
    ⟨fun heq => hnot (heq ▸ hi), mem_of_mem_erase hi⟩
  refine ⟨t :: order.erase t, ?_, ?_, ?_, ?_, ?_, ?_⟩
  · exact nodup_cons.mpr ⟨hnot, ho.nodup.erase t⟩
  · intro i
    by_cases hit : i = t
    · simp [hit]
    · rw [mem_cons, mem_erase_of_ne hit, ho.mem]
      simp [hit]
  · refine pairwise_cons.mpr ⟨fun i hi => ?_, ?_⟩
    · obtain ⟨hne, hmem⟩ := hkept hi
      have hage := ho.age_le i ((ho.mem i).mp hmem)
      simp only [update_self, update_of_ne hne]
      omega
    · refine (ho.ages.sublist erase_sublist).imp_of_mem fun hi hj hage => ?_
      simpa only [update_of_ne (hkept hi).1, update_of_ne (hkept hj).1] using hage
  · rw [take_recents_cons, ← ho.entries, ← ho.entries_erase htakes, map_cons]
    congr 1
    · simp [entry]
    · refine map_congr_left fun i hi => ?_
      simp [entry, (hkept hi).1]
  · simp [htick]
  · intro i hi
    by_cases hit : i = t
    · simp [hit]
    · simp only [update_of_ne hit] at hi ⊢
      exact (ho.age_le i hi).trans (Nat.le_succ _)

theorem lookup_iff (ho : Ordered s h order) :
    s.arpCacheLookup ip = some mac ↔ (ip, mac) ∈ (recents h).take 32 := by
  rw [← ho.entries, mem_map, arpCacheLookup, Option.map_eq_some_iff]
  constructor
  · rintro ⟨i, hfind, hmac⟩
    have htest := find?_some hfind
    simp only [Bool.and_eq_true, beq_iff_eq] at htest
    exact ⟨i, (ho.mem i).mpr htest.1, Prod.ext htest.2 hmac⟩
  · rintro ⟨i, hmem, hentry⟩
    obtain ⟨hip, hmac⟩ := Prod.mk.inj hentry
    have hused := (ho.mem i).mp hmem
    obtain ⟨j, hj⟩ : ∃ j, (finRange 32).find? (fun i => (s.cache i).used &&
        (s.cache i).ip == ip) = some j := by
      refine Option.isSome_iff_exists.mp (find?_isSome.mpr ⟨i, mem_finRange i, ?_⟩)
      simp [hused, hip]
    have htest := find?_some hj
    simp only [Bool.and_eq_true, beq_iff_eq] at htest
    obtain rfl := ho.distinct htest.1 hused (htest.2.trans hip.symm)
    exact ⟨j, hj, hmac⟩

end Ordered

/-! ## Runs -/

def afterAdds (adds : List (ℕ × Mac)) : Arp :=
  adds.foldl (fun s a => s.arpCacheAdd a.1 a.2) Arp.atStart

theorem ordered_afterAdds (adds : List (ℕ × Mac)) (h : adds.length < 2 ^ 64 - 1) :
    ∃ order, Ordered (afterAdds adds) adds.reverse order := by
  induction adds using reverseRecOn with
  | nil => exact ⟨[], Ordered.atStart⟩
  | append_singleton adds a ih =>
    rw [length_append, length_singleton] at h
    obtain ⟨order, ho⟩ := ih (by omega)
    rw [afterAdds, foldl_append, reverse_append]
    exact ho.add (by simpa using h) a.1 a.2

/-- The cache is the least-recently-used cache of 32 addresses: no address has two entries, and
a lookup finds the last add of an address after which fewer than 32 distinct other addresses were
added. -/
theorem arp_cache_is_lru (adds : List (ℕ × Mac)) (h : adds.length < 2 ^ 64 - 1) :
    (∀ i j, ((afterAdds adds).cache i).used = true → ((afterAdds adds).cache j).used = true →
        ((afterAdds adds).cache i).ip = ((afterAdds adds).cache j).ip → i = j) ∧
      (∀ ip, ((afterAdds adds).arpCacheLookup ip).isSome ↔
        ip ∈ adds.map Prod.fst ∧ (since ip adds.reverse).dedup.length < 32) ∧
      ∀ ip mac, (afterAdds adds).arpCacheLookup ip = some mac →
        lastUse ip adds.reverse = some mac := by
  obtain ⟨order, ho⟩ := ordered_afterAdds adds h
  refine ⟨fun i j hi hj hip => ho.distinct hi hj hip, fun ip => ?_, fun ip mac hfound => ?_⟩
  · have hadded : (∃ mac, lastUse ip adds.reverse = some mac) ↔ ip ∈ adds.map Prod.fst := by
      rw [← Option.isSome_iff_exists, lastUse, Option.isSome_map, find?_isSome]
      simp
    rw [Option.isSome_iff_exists, ← hadded]
    simp only [ho.lookup_iff, mem_take_recents]
    exact exists_and_right
  · exact (mem_take_recents.mp (ho.lookup_iff.mp hfound)).1

/-- Two addresses, the first of which is added again. -/
theorem arp_cache_is_lru_threeAdds :
    ((afterAdds [(1, fun _ => 10), (2, fun _ => 20), (1, fun _ => 30)]).arpCacheLookup 1).isSome ∧
      lastUse 1 [(1, fun _ => 10), (2, fun _ => 20), (1, (fun _ => 30 : Mac))].reverse =
        some fun _ => 30 := by
  refine ⟨((arp_cache_is_lru [(1, fun _ => 10), (2, fun _ => 20), (1, fun _ => 30)]
    (by decide)).2.1 1).mpr (by decide), rfl⟩

end NeverMind.Arp
