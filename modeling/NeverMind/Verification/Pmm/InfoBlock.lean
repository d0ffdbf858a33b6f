import NeverMind.Verification.Pmm.Regions

/-! # Well-formed information blocks

A well-formed block is a list of tags laid out in memory as the multiboot2 header
describes, ended by an end tag. On such a block the walk visits the entries and the
nonempty modules of the tags, in order. -/

namespace NeverMind

open Pmm Nat

/-- A tag as the boot loader means it. -/
inductive BootTag where
  | mmap (entrySize : ℕ) (entries : List Mb2MmapEntry)
  | module (m : Mb2Module) (size : ℕ)
  | other (type size : ℕ)
  deriving Repr, DecidableEq

namespace BootTag

def size : BootTag → ℕ
  | mmap entrySize entries => mb2TagMmapSize + entrySize * entries.length
  | module _ n => n
  | other _ n => n

def entries : BootTag → List Mb2MmapEntry
  | mmap _ es => es
  | _ => []

def modules : BootTag → List Mb2Module
  | module m _ => if m.modEnd > m.modStart then [m] else []
  | _ => []

def events (t : BootTag) : List Mb2Event := t.entries.map .entry ++ t.modules.map .module

def At (mem : Memory) (cursor : ℕ) : BootTag → Prop
  | mmap entrySize es =>
    mem.loadTag cursor = ⟨mb2TagMmap, mb2TagMmapSize + entrySize * es.length⟩ ∧
      mem.loadEntrySize cursor = entrySize ∧ mb2MmapEntrySize ≤ entrySize ∧
      ∀ i (h : i < es.length), mem.loadMmapEntry (cursor + mb2TagMmapSize + entrySize * i) = es[i]
  | module m n =>
    mem.loadTag cursor = ⟨mb2TagModule, n⟩ ∧ mb2TagModuleSize ≤ n ∧ mem.loadModule cursor = m
  | other type n =>
    mem.loadTag cursor = ⟨type, n⟩ ∧ mb2TagSize ≤ n ∧
      type ≠ mb2TagEnd ∧ type ≠ mb2TagModule ∧ type ≠ mb2TagMmap

instance (mem : Memory) (cursor : ℕ) (t : BootTag) : Decidable (t.At mem cursor) := by
  cases t <;> exact inferInstanceAs (Decidable (_ ∧ _))

variable {mem : Memory} {cursor : ℕ} {t : BootTag}

theorem At.loadTag_size (h : t.At mem cursor) : (mem.loadTag cursor).size = t.size := by
  cases t with
  | mmap entrySize es => rw [h.1]; rfl
  | module m n => rw [h.1]; rfl
  | other type n => rw [h.1]; rfl

theorem At.size_ge (h : t.At mem cursor) : mb2TagSize ≤ t.size := by
  cases t with
  | mmap entrySize es =>
    simp only [size, mb2TagSize, mb2TagMmapSize]
    omega
  | module m n =>
    have := h.2.1
    simp only [size, mb2TagSize, mb2TagModuleSize] at *
    omega
  | other type n => exact h.2.1

theorem At.type_ne_end (h : t.At mem cursor) : (mem.loadTag cursor).type ≠ mb2TagEnd := by
  cases t with
  | mmap entrySize es =>
    rw [h.1]
    exact (by decide : mb2TagMmap ≠ mb2TagEnd)
  | module m n =>
    rw [h.1]
    exact (by decide : mb2TagModule ≠ mb2TagEnd)
  | other type n =>
    rw [h.1]
    exact h.2.2.1

end BootTag

/-- The tags laid out from `cursor` on, up to an end tag below `stop`. -/
inductive TagsAt (mem : Memory) (stop : ℕ) : ℕ → List BootTag → Prop where
  | nil (cursor : ℕ) (hend : (mem.loadTag cursor).type = mb2TagEnd)
      (hfit : cursor + mb2TagSize ≤ stop) : TagsAt mem stop cursor []
  | cons (cursor : ℕ) (t : BootTag) (ts : List BootTag) (htag : t.At mem cursor)
      (hrest : TagsAt mem stop (cursor + alignTag t.size) ts) : TagsAt mem stop cursor (t :: ts)

theorem tagsAt_nil_iff {mem : Memory} {stop cursor : ℕ} : TagsAt mem stop cursor [] ↔
    (mem.loadTag cursor).type = mb2TagEnd ∧ cursor + mb2TagSize ≤ stop := by
  refine ⟨fun h => ?_, fun h => .nil _ h.1 h.2⟩
  cases h with
  | nil _ hend hfit => exact ⟨hend, hfit⟩

theorem tagsAt_cons_iff {mem : Memory} {stop cursor : ℕ} {t : BootTag} {ts : List BootTag} :
    TagsAt mem stop cursor (t :: ts) ↔
      t.At mem cursor ∧ TagsAt mem stop (cursor + alignTag t.size) ts := by
  refine ⟨fun h => ?_, fun h => .cons _ _ _ h.1 h.2⟩
  cases h with
  | cons _ _ _ htag hrest => exact ⟨htag, hrest⟩

instance decidableTagsAt (mem : Memory) (stop : ℕ) :
    (cursor : ℕ) → (tags : List BootTag) → Decidable (TagsAt mem stop cursor tags)
  | _, [] => decidable_of_iff' _ tagsAt_nil_iff
  | cursor, t :: ts =>
    have := decidableTagsAt mem stop (cursor + alignTag t.size) ts
    decidable_of_iff' _ tagsAt_cons_iff

/-- An information block at `ptr` in physical memory that holds `tags`. -/
structure WellFormedInfo (mem : Memory) (ptr : ℕ) (tags : List BootTag) : Prop where
  ptr_ne : ptr ≠ 0
  below : ptr + mem.load32 ptr < 2 ^ 52
  tags_at : TagsAt mem (ptr + mem.load32 ptr) (ptr + 8) tags

def tagListEvents (tags : List BootTag) : List Mb2Event := tags.flatMap BootTag.events

/-! ## The walk of a well-formed block -/

variable {mem : Memory}

/-- The entry loop reads the remaining entries and stops at the end of the tag. -/
theorem entryList_eq (start : ℕ) {entrySize : ℕ} {es : List Mb2MmapEntry}
    (hmin : mb2MmapEntrySize ≤ entrySize) (hbelow : start + entrySize * es.length < 2 ^ 52)
    (hat : ∀ i (h : i < es.length), mem.loadMmapEntry (start + entrySize * i) = es[i]) (fuel i : ℕ)
    (hi : i ≤ es.length) (hfuel : es.length - i < fuel) :
    entryList mem entrySize (start + entrySize * es.length) fuel (start + entrySize * i) =
      some ((es.drop i).map .entry) := by
  induction fuel generalizing i with
  | zero => omega
  | succ fuel ih =>
    have hmono : entrySize * i ≤ entrySize * es.length := mul_le_mul_left _ hi
    simp only [mb2MmapEntrySize] at hmin
    rw [entryList, mb2MmapEntrySize]
    rcases lt_or_eq_of_le hi with hlt | heq
    · have hnext : entrySize * (i + 1) ≤ entrySize * es.length := mul_le_mul_left _ hlt
      have hsucc : entrySize * (i + 1) = entrySize * i + entrySize := mul_succ _ _
      have hmore : u64 (start + entrySize * i + 24) ≤ start + entrySize * es.length := by
        rw [u64_of_lt (by omega)]
        omega
      rw [if_pos hmore, u64_of_lt (by omega), add_assoc start, ← hsucc,
        ih (i + 1) hlt (by omega), hat i hlt, List.drop_eq_getElem_cons hlt]
      rfl
    · subst heq
      have hdone : ¬ u64 (start + entrySize * es.length + 24) ≤ start + entrySize * es.length := by
        rw [u64_of_lt (by omega)]
        omega
      rw [if_neg hdone, List.drop_length]
      rfl

variable {cursor : ℕ}

theorem BootTag.At.mmapEvents_eq {t : BootTag} (h : t.At mem cursor) (bound : ℕ)
    (hbelow : cursor + t.size < 2 ^ 52) (hbound : 2 ^ 52 ≤ bound) :
    mmapEvents mem bound (mem.loadTag cursor) cursor = some (t.entries.map .entry) := by
  cases t with
  | mmap entrySize es =>
    obtain ⟨htag, hsize, hmin, hat⟩ := h
    simp only [BootTag.size] at hbelow
    have hlen : es.length ≤ entrySize * es.length := by
      simp only [mb2MmapEntrySize] at hmin
      exact Nat.le_mul_of_pos_left _ (by omega)
    have hlist := entryList_eq (cursor + mb2TagMmapSize) hmin (by omega) hat bound 0
      (zero_le _) (by omega)
    simp only [mul_zero, add_zero, List.drop_zero] at hlist
    rw [mmapEvents, htag, if_pos ⟨rfl, le_add_right _ _, hsize ▸ hmin⟩, hsize]
    simp only
    rw [u64_of_lt (n := cursor + mb2TagMmapSize) (by omega), u64_of_lt (by omega), ← add_assoc]
    exact hlist
  | module m n =>
    have hne : mb2TagModule ≠ mb2TagMmap := by decide
    rw [mmapEvents, h.1, if_neg (fun hall => hne hall.1)]
    rfl
  | other type n =>
    rw [mmapEvents, h.1, if_neg (fun hall => h.2.2.2.2 hall.1)]
    rfl

theorem BootTag.At.moduleEvents_eq {t : BootTag} (h : t.At mem cursor) :
    moduleEvents mem (mem.loadTag cursor) cursor = t.modules.map .module := by
  cases t with
  | mmap entrySize es =>
    have hne : mb2TagMmap ≠ mb2TagModule := by decide
    rw [moduleEvents, h.1, if_neg (fun hall => hne hall.1)]
    rfl
  | module m n =>
    obtain ⟨htag, hmin, hmod⟩ := h
    rw [moduleEvents, htag, hmod]
    by_cases hpos : m.modEnd > m.modStart
    · rw [if_pos ⟨rfl, hmin, hpos⟩]
      simp [BootTag.modules, hpos]
    · rw [if_neg (fun hall => hpos hall.2.2)]
      simp [BootTag.modules, hpos]
  | other type n =>
    rw [moduleEvents, h.1, if_neg (fun hall => h.2.2.2.1 hall.1)]
    rfl

variable {tags : List BootTag}

theorem TagsAt.cursor_le {stop : ℕ} (h : TagsAt mem stop cursor tags) :
    cursor + mb2TagSize ≤ stop := by
  induction h with
  | nil cursor hend hfit => exact hfit
  | cons cursor t ts htag hrest ih => omega

/-- The walk of a well-formed block visits the records of its tags. -/
theorem TagsAt.tagEvents_eq {bound stop : ℕ} (h : TagsAt mem stop cursor tags)
    (hstop : stop < 2 ^ 52) (hbound : 2 ^ 52 ≤ bound) (fuel : ℕ) (hfuel : stop < cursor + fuel) :
    tagEvents mem bound stop fuel cursor = some (tagListEvents tags) := by
  induction h generalizing fuel with
  | nil cursor hend hfit =>
    cases fuel with
    | zero => omega
    | succ fuel =>
      have hgo : u64 (cursor + mb2TagSize) ≤ stop := by
        rw [u64_of_lt (by omega)]
        exact hfit
      simp only [tagEvents, if_pos hgo, if_pos hend]
      rfl
  | cons cursor t ts htag hrest ih =>
    cases fuel with
    | zero =>
      have := hrest.cursor_le
      omega
    | succ fuel =>
      have hnext := hrest.cursor_le
      have hmin := htag.size_ge
      have halign := le_alignTag t.size
      simp only [mb2TagSize] at hnext hmin
      have hgo : u64 (cursor + mb2TagSize) ≤ stop := by
        simp only [mb2TagSize]
        rw [u64_of_lt (by omega)]
        omega
      have hu : u64 (cursor + alignTag t.size) = cursor + alignTag t.size := u64_of_lt (by omega)
      have hstay : ¬ (cursor + alignTag t.size ≤ cursor ∨ cursor + alignTag t.size > stop) := by
        omega
      have hbig : ¬ t.size < mb2TagSize := not_lt.mpr htag.size_ge
      simp only [tagEvents, if_pos hgo, if_neg htag.type_ne_end, htag.loadTag_size, if_neg hbig,
        hu, if_neg hstay, htag.mmapEvents_eq bound (by omega) hbound,
        htag.moduleEvents_eq, Option.bind_some, ih fuel (by omega), Option.map_some]
      rfl

variable {ptr : ℕ}

theorem WellFormedInfo.usable (h : WellFormedInfo mem ptr tags) : Usable mem ptr := by
  have hfit := h.tags_at.cursor_le
  refine ⟨h.ptr_ne, ?_⟩
  simp only [mb2InfoHeaderSize, mb2TagSize] at *
  omega

theorem WellFormedInfo.infoEvents_eq (h : WellFormedInfo mem ptr tags) :
    infoEvents mem ptr = some (tagListEvents tags) := by
  have hbelow := h.below
  have hcount : pointerCount = 2 ^ 64 := rfl
  rw [infoEvents, u64_of_lt (by omega), u64_of_lt (by omega)]
  exact h.tags_at.tagEvents_eq hbelow (by omega) _ (by omega)

/-- Initialisation from a well-formed block returns, having visited its tags. -/
theorem WellFormedInfo.booted (h : WellFormedInfo mem ptr tags) (k : KernelImage) (p : Pmm) :
    ∃ q, p.pmmInitFromMultiboot2 k mem ptr = some q ∧
      Booted k (tagListEvents tags) (highestEnd (tagListEvents tags)) (ptr + mem.load32 ptr)
        (outerFrames ptr (mem.load32 ptr)) q := by
  have hbelow := h.below
  obtain ⟨q, hq⟩ := Option.isSome_iff_exists.mp (pmmInitFromMultiboot2_isSome hbelow k p)
  obtain ⟨events, hevents, hb⟩ := pmmInitFromMultiboot2_booted h.usable hq
  rw [h.infoEvents_eq] at hevents
  obtain rfl := Option.some.inj hevents
  rw [u64_of_lt (by omega)] at hb
  exact ⟨q, hq, hb⟩

end NeverMind
