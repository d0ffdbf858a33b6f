import NeverMind.Verification.Pmm.MemoryMap
import NeverMind.Verification.Pmm.Ownership

/-! # Boot modules and the order of the tags

The second walk marks the entries of a memory-map tag when it meets the tag and reserves
a module when it meets the module, so a memory-map tag behind a module tag gives the
module's frames away again. -/

namespace NeverMind.Pmm

open List

/-- The frame overlaps one of the nonempty modules of the tags. -/
def ModuleOverlaps (tags : List BootTag) (f : ℕ) : Prop :=
  ∃ m ∈ tags.flatMap BootTag.modules, FrameOverlaps f m.modStart m.modEnd

/-! ## Freed frames by tag -/

theorem covered_append {f : ℕ} {xs ys : List Mb2Event} :
    Covered f (xs ++ ys) ↔ Covered f xs ∨ Covered f ys := by
  induction xs with
  | nil => simp [Covered]
  | cons ev xs ih => rw [cons_append, covered_cons, covered_cons, ih, or_assoc]

theorem freed_append {f : ℕ} {xs ys : List Mb2Event} :
    Freed f (xs ++ ys) ↔ (Freed f xs ∧ ¬ Covered f ys) ∨ Freed f ys := by
  induction xs with
  | nil => simp [Freed]
  | cons ev xs ih =>
    rw [cons_append, freed_cons, freed_cons, ih, covered_append]
    constructor
    · rintro (⟨e, hev, ht, hf, hout⟩ | h | h)
      · push Not at hout
        exact Or.inl ⟨Or.inl ⟨e, hev, ht, hf, hout.1⟩, hout.2⟩
      · exact Or.inl ⟨Or.inr h.1, h.2⟩
      · exact Or.inr h
    · rintro (⟨⟨e, hev, ht, hf, hout⟩ | h, hy⟩ | h)
      · exact Or.inl ⟨e, hev, ht, hf, fun hc => hc.elim hout hy⟩
      · exact Or.inr (Or.inl ⟨h, hy⟩)
      · exact Or.inr (Or.inr h)

def SmallModules (tags : List BootTag) : Prop :=
  ∀ m ∈ tags.flatMap BootTag.modules, m.modEnd < 2 ^ 32

theorem TagsAt.smallModules {mem : Memory} {stop cursor : ℕ} {tags : List BootTag}
    (h : TagsAt mem stop cursor tags) : SmallModules tags := by
  induction h with
  | nil => simp [SmallModules]
  | cons cursor t ts htag hrest ih =>
    intro m hm
    rw [flatMap_cons, mem_append] at hm
    rcases hm with hm | hm
    · cases t with
      | mmap entrySize es => simp [BootTag.modules] at hm
      | module m' n =>
        have hmod : m = m' := by
          by_cases hpos : m'.modEnd > m'.modStart
          · simpa [BootTag.modules, hpos] using hm
          · simp [BootTag.modules, hpos] at hm
        rw [hmod, ← htag.2.2]
        exact load32_lt mem _
      | other type n => simp [BootTag.modules] at hm
    · exact ih m hm

theorem modules_nonempty {tags : List BootTag} {m : Mb2Module}
    (hm : m ∈ tags.flatMap BootTag.modules) : m.modStart < m.modEnd := by
  obtain ⟨t, -, hm⟩ := mem_flatMap.mp hm
  cases t with
  | mmap entrySize es => simp [BootTag.modules] at hm
  | module m' n =>
    by_cases hpos : m'.modEnd > m'.modStart
    · obtain rfl : m = m' := by simpa [BootTag.modules, hpos] using hm
      exact hpos
    · simp [BootTag.modules, hpos] at hm
  | other type n => simp [BootTag.modules] at hm

theorem module_mem_tagListEvents {tags : List BootTag} {m : Mb2Module} :
    .module m ∈ tagListEvents tags ↔ m ∈ tags.flatMap BootTag.modules := by
  simp [tagListEvents, BootTag.events]

theorem entry_mem_tagListEvents {tags : List BootTag} {e : Mb2MmapEntry} :
    .entry e ∈ tagListEvents tags ↔ e ∈ tags.flatMap BootTag.entries := by
  simp [tagListEvents, BootTag.events]

theorem covered_tagListEvents {tags : List BootTag} (hsmall : SmallModules tags) {f : ℕ} :
    Covered f (tagListEvents tags) ↔ ModuleOverlaps tags f := by
  unfold Covered ModuleOverlaps
  simp only [module_mem_tagListEvents]
  refine exists_congr fun m => and_congr_right fun hm => ?_
  have hpos := modules_nonempty hm
  have hlt := hsmall m hm
  rw [mem_outerFrames f (by omega) (by simp only [pageSize]; omega), Nat.add_sub_cancel' hpos.le]

/-- An available entry of the tag contains the frame, as `mark_range_available` rounds. -/
def TagFrees (t : BootTag) (f : ℕ) : Prop :=
  ∃ e ∈ t.entries, e.type = nmMemAvailable ∧ f ∈ innerFrames e.addr e.len

theorem freed_entries {es : List Mb2MmapEntry} {f : ℕ} :
    Freed f (es.map .entry) ↔ ∃ e ∈ es, e.type = nmMemAvailable ∧ f ∈ innerFrames e.addr e.len := by
  simpa [rangeEvent, Function.comp_def] using
    freed_rangeEvent f (es.map fun e => ⟨e.addr, e.len, e.type⟩)

theorem not_freed_modules (ms : List Mb2Module) (f : ℕ) : ¬ Freed f (ms.map .module) := by
  rintro ⟨front, e, back, heq, -⟩
  have hmem : .entry e ∈ ms.map Mb2Event.module := by simp [heq]
  simp at hmem

theorem freed_events {t : BootTag} {f : ℕ} : Freed f t.events ↔ TagFrees t f := by
  have hmods := not_freed_modules t.modules f
  rw [BootTag.events, freed_append, freed_entries]
  cases t with
  | mmap entrySize es => simp [BootTag.modules, Covered, Freed, TagFrees]
  | module m n => simp [hmods, BootTag.entries, TagFrees]
  | other type n => simp [hmods, BootTag.entries, TagFrees]

theorem freed_tagListEvents {tags : List BootTag} {f : ℕ} :
    Freed f (tagListEvents tags) ↔ ∃ front t back, tags = front ++ t :: back ∧ TagFrees t f ∧
      ¬ Covered f (tagListEvents back) := by
  induction tags with
  | nil => simp [tagListEvents, Freed]
  | cons t ts ih =>
    have hsplit : tagListEvents (t :: ts) = t.events ++ tagListEvents ts := rfl
    rw [hsplit, freed_append, freed_events, ih]
    constructor
    · rintro (⟨hf, hc⟩ | ⟨front, t', back, rfl, hf, hc⟩)
      · exact ⟨[], t, ts, rfl, hf, hc⟩
      · exact ⟨t :: front, t', back, rfl, hf, hc⟩
    · rintro ⟨front, t', back, heq, hf, hc⟩
      cases front with
      | nil =>
        obtain ⟨rfl, rfl⟩ := cons.inj heq
        exact Or.inl ⟨hf, hc⟩
      | cons x front =>
        obtain ⟨rfl, rfl⟩ := cons.inj heq
        exact Or.inr ⟨front, t', back, rfl, hf, hc⟩

/-! ## When modules are protected -/

/-- The frames reserved after the walk, computed from the block alone. -/
def ReservedLast (k : KernelImage) (mem : Memory) (ptr : ℕ) (tags : List BootTag) (f : ℕ) : Prop :=
  let stop := ptr + mem.load32 ptr
  let bitmapBase := bitmapBaseFor k stop
  let limit := limitFor (highestEnd (tagListEvents tags))
  FrameOverlaps f 0 0x100000 ∨ FrameOverlaps f k.start k.stop ∨
    FrameOverlaps f bitmapBase (bitmapBase + bitmapBytesFor limit) ∨ FrameOverlaps f ptr stop

/-- Every module frame that a memory-map tag makes available is taken back: by a module
tag further on, or by one of the reservations after the walk. -/
def ModulesTakenBack (k : KernelImage) (mem : Memory) (ptr : ℕ) (tags : List BootTag) : Prop :=
  ∀ front t back, tags = front ++ t :: back → ∀ f, TagFrees t f → ModuleOverlaps tags f →
    ModuleOverlaps back f ∨ ReservedLast k mem ptr tags f

/-- The initialisation leaves no frame of a module free, and no caller ever holds one. -/
def ModulesProtected (k : KernelImage) (mem : Memory) (ptr : ℕ) (tags : List BootTag) (p₀ : Pmm) :
    Prop :=
  ∃ p, p₀.pmmInitFromMultiboot2 k mem ptr = some p ∧ (∀ f, ModuleOverlaps tags f → f ∉ p.free) ∧
    ∀ c, Relation.ReflTransGen ClientStep ⟨p, []⟩ c →
      ∀ run ∈ c.live, ∀ f ∈ run, ¬ ModuleOverlaps tags f

section

variable {k : KernelImage} {mem : Memory} {ptr : ℕ} {tags : List BootTag} {q : Pmm}

theorem reservedLast_iff (h : WellFormedInfo mem ptr tags)
    (hb : Booted k (tagListEvents tags) (highestEnd (tagListEvents tags)) (ptr + mem.load32 ptr)
      (outerFrames ptr (mem.load32 ptr)) q) (f : ℕ) :
    ReservedLast k mem ptr tags f ↔ f ∈ kernelFrames k q.bitmapPhysBase q.bitmapBytes ∨
        f ∈ outerFrames ptr (mem.load32 ptr) := by
  have hbelow := h.below
  have hsize := h.usable.2
  simp only [mb2InfoHeaderSize] at hsize
  rw [hb.mem_kernelFrames hbelow, mem_outerFrames f (by omega) (by simp only [pageSize]; omega),
    KernelReserved, hb.bytes_eq, hb.base_eq, hb.limit_eq, or_assoc, or_assoc]
  rfl

theorem lt_limitFor_of_tagFrees (hsmall : SmallModules tags) {t : BootTag} (ht : t ∈ tags) {f : ℕ}
    (hf : TagFrees t f) (hmod : ModuleOverlaps tags f) :
    f < limitFor (highestEnd (tagListEvents tags)) := by
  obtain ⟨e, he, htype, hin⟩ := hf
  obtain ⟨m, hm, a, ⟨-, ha⟩, hlo, -⟩ := hmod
  have hmem : .entry e ∈ tagListEvents tags :=
    entry_mem_tagListEvents.mpr (mem_flatMap.mpr ⟨t, ht, he⟩)
  have hend := (highestEnd_le_iff.mp le_rfl).1 e hmem htype
  have hlt := hsmall m hm
  have hmax : maxFrames = 2 ^ 25 := by decide
  simp only [innerFrames, Finset.mem_Ico, limitFor, pageSize] at *
  omega

/-- A frame of a module is free after the initialisation exactly when some memory-map tag
frees it and nothing takes it back. -/
theorem mem_free_of_module (h : WellFormedInfo mem ptr tags)
    (hb : Booted k (tagListEvents tags) (highestEnd (tagListEvents tags)) (ptr + mem.load32 ptr)
      (outerFrames ptr (mem.load32 ptr)) q) {f : ℕ} (hmod : ModuleOverlaps tags f) :
    f ∈ q.free ↔ ∃ front t back, tags = front ++ t :: back ∧ TagFrees t f ∧
      ¬ ModuleOverlaps back f ∧ ¬ ReservedLast k mem ptr tags f := by
  have hsmall := TagsAt.smallModules h.tags_at
  have hback : ∀ {front t back}, tags = front ++ t :: back → SmallModules back := by
    rintro front t back rfl m hm
    exact hsmall m (by simp only [flatMap_append, flatMap_cons, mem_append]; tauto)
  rw [hb.mem_free_iff, freed_tagListEvents, reservedLast_iff h hb]
  constructor
  · rintro ⟨-, ⟨front, t, back, heq, hf, hc⟩, hkernel, hinfo⟩
    rw [covered_tagListEvents (hback heq)] at hc
    exact ⟨front, t, back, heq, hf, hc, fun hr => hr.elim hkernel hinfo⟩
  · rintro ⟨front, t, back, heq, hf, hc, hr⟩
    push Not at hr
    rw [← covered_tagListEvents (hback heq)] at hc
    refine ⟨?_, ⟨front, t, back, heq, hf, hc⟩, hr.1, hr.2⟩
    rw [hb.limit_eq]
    exact lt_limitFor_of_tagFrees hsmall (by simp [heq]) hf hmod

end

/-- The modules of a well-formed block are protected exactly when every module frame that
a memory-map tag makes available is taken back after that tag. -/
theorem modules_protected_iff (k : KernelImage) (p₀ : Pmm) (mem : Memory) (ptr : ℕ)
    (tags : List BootTag) (h : WellFormedInfo mem ptr tags) :
    ModulesProtected k mem ptr tags p₀ ↔ ModulesTakenBack k mem ptr tags := by
  obtain ⟨q, hq, hb⟩ := h.booted k p₀
  constructor
  · rintro ⟨p, hp, hnone, -⟩ front t back heq f hf hmod
    obtain rfl : q = p := Option.some.inj (hq.symm.trans hp)
    by_contra hnot
    push Not at hnot
    exact hnone f hmod ((mem_free_of_module h hb hmod).mpr
      ⟨front, t, back, heq, hf, hnot.1, hnot.2⟩)
  · intro hback
    have hnone : ∀ f, ModuleOverlaps tags f → f ∉ q.free := by
      intro f hmod hfree
      obtain ⟨front, t, back, heq, hf, hnot, hr⟩ := (mem_free_of_module h hb hmod).mp hfree
      exact (hback front t back heq f hf hmod).elim hnot hr
    refine ⟨q, hq, hnone, fun c hrun run hmem f hf hmod => ?_⟩
    have hown := Owned.run ⟨hb.accounting, hb.zero_notMem_free⟩ hrun
    exact hnone f hmod (hown.initially_free f (mem_flatten.mpr ⟨run, hmem, hf⟩))

/-! ## The two orders of a module and a memory map -/

def ramdiskTag : BootTag := .module ⟨0x300000, 0x301000⟩ 16

def fourMiBTag : BootTag := .mmap 24 [⟨0, 0x400000, 1⟩]

def mapFirst : Memory :=
  wordsAt 0x10000 [72, 0, 6, 40, 24, 0, 0, 0, 0x400000, 0, 1, 0, 3, 16, 0x300000, 0x301000, 0, 8]

def moduleFirst : Memory :=
  wordsAt 0x10000 [72, 0, 3, 16, 0x300000, 0x301000, 6, 40, 24, 0, 0, 0, 0x400000, 0, 1, 0, 0, 8]

theorem mapFirst_wellFormed : WellFormedInfo mapFirst 0x10000 [fourMiBTag, ramdiskTag] :=
  ⟨by decide, by decide, by decide⟩

theorem moduleFirst_wellFormed : WellFormedInfo moduleFirst 0x10000 [ramdiskTag, fourMiBTag] :=
  ⟨by decide, by decide, by decide⟩

/-- With the memory map in front the module is protected. -/
theorem modules_protected_mapFirst :
    ModulesProtected .atOneMiB mapFirst 0x10000 [fourMiBTag, ramdiskTag] zeroed := by
  refine (modules_protected_iff .atOneMiB zeroed mapFirst 0x10000 _ mapFirst_wellFormed).mpr ?_
  intro front t back heq f hf hmod
  match front with
  | [] =>
    obtain ⟨rfl, rfl⟩ := cons.inj heq
    exact Or.inl hmod
  | [_] =>
    obtain ⟨-, heq⟩ := cons.inj heq
    obtain ⟨rfl, -⟩ := cons.inj heq
    simp [TagFrees, ramdiskTag, BootTag.entries] at hf
  | _ :: _ :: front =>
    have := congrArg length heq
    simp at this

/-- With the module in front its frame ends up free. -/
theorem module_frame_free_moduleFirst :
    WellFormedInfo moduleFirst 0x10000 [ramdiskTag, fourMiBTag] ∧
    ∃ p, zeroed.pmmInitFromMultiboot2 .atOneMiB moduleFirst 0x10000 = some p ∧
      ModuleOverlaps [ramdiskTag, fourMiBTag] 0x300 ∧ 0x300 ∈ p.free := by
  obtain ⟨p, hp, hb⟩ := moduleFirst_wellFormed.booted .atOneMiB zeroed
  have hmod : ModuleOverlaps [ramdiskTag, fourMiBTag] 0x300 :=
    ⟨⟨0x300000, 0x301000⟩, by decide, 0x300000, by decide, by decide, by decide⟩
  refine ⟨moduleFirst_wellFormed, p, hp, hmod,
    (mem_free_of_module moduleFirst_wellFormed hb hmod).mpr
      ⟨[ramdiskTag], fourMiBTag, [], rfl, ⟨⟨0, 0x400000, 1⟩, by decide, rfl,
      (mem_innerFrames (by decide)).mpr ⟨by decide, by decide⟩⟩, ?_, ?_⟩⟩
  · simp [ModuleOverlaps]
  · simp only [ReservedLast]
    rw [frameOverlaps_iff (by decide), frameOverlaps_iff (by decide), frameOverlaps_iff (by decide),
      frameOverlaps_iff (by decide)]
    decide

end NeverMind.Pmm
