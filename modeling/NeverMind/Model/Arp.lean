import NeverMind.Model.Fd

/-! # The ARP cache

`kernel/net/arp.c`. The hit and miss counters of the lookup belong to `net.c`. -/

namespace NeverMind

/-- A hardware address. -/
abbrev Mac := Fin 6 → Byte

/-- `struct arp_entry`. -/
structure ArpEntry where
  used : Bool
  ip : ℕ
  mac : Mac
  age : ℕ

/-- A pointer into the cache. -/
abbrev ArpRef := Fin 32

/-- The static variables of `arp.c`. -/
structure Arp where
  cache : ArpRef → ArpEntry
  ageTick : ℕ

/-- The static variables at the start of the kernel. -/
def Arp.atStart : Arp where
  cache := fun _ => ⟨false, 0, fun _ => 0, 0⟩
  ageTick := 0

/-- The local variables of the loop of `arp_cache_add`. -/
structure ArpScan where
  slot : Option ℕ
  oldest : ℕ
  oldestIdx : ℕ

namespace Arp

def setEntry (slot : ℕ) (e : ArpEntry) (s : Arp) : Arp :=
  { s with cache := fun i => if i.val = slot then e else s.cache i }

/-- The loop of `arp_cache_add`: the entry of the address, at which the source returns, or the
local variables after the loop. -/
def scan (ip : ℕ) (s : Arp) : List ArpRef → ArpScan → ArpRef ⊕ ArpScan
  | [], acc => .inr acc
  | i :: is, acc =>
    if (s.cache i).used = true ∧ (s.cache i).ip = ip then .inl i
    else
      let slot := if (s.cache i).used = false ∧ acc.slot = none then some i.val else acc.slot
      if (s.cache i).used = true ∧ (s.cache i).age < acc.oldest then
        scan ip s is ⟨slot, (s.cache i).age, i.val⟩
      else scan ip s is ⟨slot, acc.oldest, acc.oldestIdx⟩

def arpCacheAdd (ip : ℕ) (mac : Mac) (s : Arp) : Arp :=
  let s := { s with ageTick := u64 (s.ageTick + 1) }
  match s.scan ip (List.finRange 32) ⟨none, 2 ^ 64 - 1, 0⟩ with
  | .inl i => s.setEntry i.val { s.cache i with mac := mac, age := s.ageTick }
  | .inr acc => s.setEntry (acc.slot.getD acc.oldestIdx) ⟨true, ip, mac, s.ageTick⟩

/-- The address that is copied to `mac_out`, if the lookup succeeds. -/
def arpCacheLookup (ip : ℕ) (s : Arp) : Option Mac :=
  ((List.finRange 32).find? fun i => (s.cache i).used && (s.cache i).ip == ip).map fun i =>
    (s.cache i).mac

end Arp

end NeverMind
