import NeverMind.Model.Multiboot
import NeverMind.Verification.Pmm.Operations

/-! # The tag walk as a fold

Both walks of the initialisation visit the same records in the same order. The list
of these records is read off the memory once, and each walk is a fold over it. -/

namespace NeverMind

open Pmm Option

/-- A record handed to the loop body: a memory-map entry or a nonempty module. -/
inductive Mb2Event where
  | entry (e : Mb2MmapEntry)
  | module (m : Mb2Module)
  deriving Repr, DecidableEq

section

variable {σ : Type*} (mem : Memory) (onEntry : Mb2MmapEntry → σ → σ)
  (onModule : Mb2Module → σ → σ) (bound : ℕ)

def Mb2Event.act : Mb2Event → σ → σ
  | .entry e => onEntry e
  | .module m => onModule m

/-- Run the loop body on a list of records. -/
def runEvents (events : List Mb2Event) (s : σ) : σ :=
  events.foldl (fun s ev => ev.act onEntry onModule s) s

@[simp] theorem runEvents_nil (s : σ) : runEvents onEntry onModule [] s = s := rfl

@[simp] theorem runEvents_cons (ev : Mb2Event) (events : List Mb2Event) (s : σ) :
    runEvents onEntry onModule (ev :: events) s =
      runEvents onEntry onModule events (ev.act onEntry onModule s) := rfl

theorem runEvents_append (xs ys : List Mb2Event) (s : σ) :
    runEvents onEntry onModule (xs ++ ys) s =
      runEvents onEntry onModule ys (runEvents onEntry onModule xs s) :=
  List.foldl_append

/-! ## The visited records -/

def entryList (entrySize entryEnd : ℕ) : ℕ → ℕ → Option (List Mb2Event)
  | 0, _ => none
  | fuel + 1, entryPtr =>
    if u64 (entryPtr + mb2MmapEntrySize) ≤ entryEnd then
      (entryList entrySize entryEnd fuel (u64 (entryPtr + entrySize))).map
        (.entry (mem.loadMmapEntry entryPtr) :: ·)
    else some []

def mmapEvents (tag : Mb2Tag) (cursor : ℕ) : Option (List Mb2Event) :=
  if tag.type = mb2TagMmap ∧ tag.size ≥ mb2TagMmapSize ∧
      mem.loadEntrySize cursor ≥ mb2MmapEntrySize then
    entryList mem (mem.loadEntrySize cursor) (u64 (cursor + tag.size)) bound
      (u64 (cursor + mb2TagMmapSize))
  else some []

def moduleEvents (tag : Mb2Tag) (cursor : ℕ) : List Mb2Event :=
  if tag.type = mb2TagModule ∧ tag.size ≥ mb2TagModuleSize ∧
      (mem.loadModule cursor).modEnd > (mem.loadModule cursor).modStart then
    [.module (mem.loadModule cursor)]
  else []

/-- All records visited from `cursor` on. -/
def tagEvents (stop : ℕ) : ℕ → ℕ → Option (List Mb2Event)
  | 0, _ => none
  | fuel + 1, cursor =>
    if u64 (cursor + mb2TagSize) ≤ stop then
      let tag := mem.loadTag cursor
      if tag.type = mb2TagEnd then some []
      else if tag.size < mb2TagSize then some []
      else
        let next := u64 (cursor + alignTag tag.size)
        if next ≤ cursor ∨ next > stop then some []
        else
          (mmapEvents mem bound tag cursor).bind fun xs =>
            (tagEvents stop fuel next).map fun ys => xs ++ moduleEvents mem tag cursor ++ ys
    else some []

theorem walkEntries_eq (entrySize entryEnd fuel entryPtr : ℕ) (s : σ) :
    walkEntries mem onEntry entrySize entryEnd fuel entryPtr s =
      (entryList mem entrySize entryEnd fuel entryPtr).map
        (fun events => runEvents onEntry onModule events s) := by
  induction fuel generalizing entryPtr s with
  | zero => rfl
  | succ fuel ih =>
    rw [walkEntries, entryList]
    split
    · rw [ih, map_map]
      rfl
    · rfl

theorem walkMmapTag_eq (tag : Mb2Tag) (cursor : ℕ) (s : σ) :
    walkMmapTag mem onEntry bound tag cursor s =
      (mmapEvents mem bound tag cursor).map fun events => runEvents onEntry onModule events s := by
  unfold walkMmapTag mmapEvents
  split
  · exact walkEntries_eq mem onEntry onModule _ _ _ _ s
  · rfl

theorem walkModuleTag_eq (tag : Mb2Tag) (cursor : ℕ) (s : σ) :
    walkModuleTag mem onModule tag cursor s =
      runEvents onEntry onModule (moduleEvents mem tag cursor) s := by
  simp only [walkModuleTag, moduleEvents]
  split
  · rename_i htag
    by_cases hmod : (mem.loadModule cursor).modEnd > (mem.loadModule cursor).modStart
    · rw [if_pos hmod, if_pos ⟨htag.1, htag.2, hmod⟩]
      rfl
    · rw [if_neg hmod, if_neg (fun hall => hmod hall.2.2)]
      rfl
  · rename_i htag
    rw [if_neg (fun hall => htag ⟨hall.1, hall.2.1⟩)]
    rfl

theorem walkTags_eq (stop fuel cursor : ℕ) (s : σ) :
    walkTags mem onEntry onModule bound stop fuel cursor s =
      (tagEvents mem bound stop fuel cursor).map
        (fun events => runEvents onEntry onModule events s) := by
  induction fuel generalizing cursor s with
  | zero => rfl
  | succ fuel ih =>
    simp only [walkTags, tagEvents]
    split
    · split
      · rfl
      · split
        · rfl
        · split
          · rfl
          · rw [walkMmapTag_eq mem onEntry onModule]
            cases mmapEvents mem bound (mem.loadTag cursor) cursor with
            | none => rfl
            | some xs =>
              simp only [map_some, bind_some, ih, map_map]
              congr 1
              funext ys
              simp [runEvents_append, walkModuleTag_eq mem onEntry onModule]
    · rfl

end

/-! ## Termination -/

theorem load32_lt (mem : Memory) (addr : ℕ) : mem.load32 addr < 2 ^ 32 := by
  have h0 := (mem (u64 addr)).isLt
  have h1 := (mem (u64 (addr + 1))).isLt
  have h2 := (mem (u64 (addr + 2))).isLt
  have h3 := (mem (u64 (addr + 3))).isLt
  unfold Memory.load32
  omega

/-- Below `2 ^ 52` the entry pointer never wraps, so it passes the end of its tag. -/
theorem entryList_isSome (mem : Memory) {entrySize entryEnd : ℕ}
    (hmin : mb2MmapEntrySize ≤ entrySize) (hmax : entrySize < 2 ^ 32) (hend : entryEnd < 2 ^ 52)
    (fuel entryPtr : ℕ) (hptr : entryPtr ≤ 2 ^ 53) (hfuel : 0 < fuel)
    (hleft : entryEnd < entryPtr + fuel) :
    (entryList mem entrySize entryEnd fuel entryPtr).isSome = true := by
  induction fuel generalizing entryPtr with
  | zero => omega
  | succ fuel ih =>
    simp only [mb2MmapEntrySize] at hmin
    rw [entryList, mb2MmapEntrySize, u64_of_lt (by omega)]
    split
    · rename_i hmore
      rw [isSome_map, u64_of_lt (by omega)]
      exact ih (entryPtr + entrySize) (by omega) (by omega) (by omega)
    · rfl

theorem mmapEvents_isSome (mem : Memory) {bound : ℕ} (tag : Mb2Tag) (cursor : ℕ)
    (hcursor : cursor + tag.size < 2 ^ 52) (hbound : 2 ^ 52 ≤ bound) :
    (mmapEvents mem bound tag cursor).isSome = true := by
  unfold mmapEvents
  split
  · rename_i htag
    obtain ⟨-, -, hmin⟩ := htag
    have hmax := load32_lt mem (cursor + 8)
    rw [u64_of_lt (n := cursor + tag.size) (by omega),
      u64_of_lt (n := cursor + mb2TagMmapSize) (by simp only [mb2TagMmapSize]; omega)]
    exact entryList_isSome mem hmin hmax hcursor _ _ (by simp only [mb2TagMmapSize]; omega)
      (by omega) (by omega)
  · rfl

theorem le_alignTag (size : ℕ) : size ≤ alignTag size := by
  unfold alignTag
  omega

/-- An information block that ends below `2 ^ 52` is walked to the end. -/
theorem tagEvents_isSome (mem : Memory) {bound stop : ℕ} (hbound : 2 ^ 52 ≤ bound)
    (hstop : stop < 2 ^ 52) (fuel cursor : ℕ) (hcursor : cursor < 2 ^ 53) (hfuel : 0 < fuel)
    (hleft : stop < cursor + fuel) : (tagEvents mem bound stop fuel cursor).isSome = true := by
  induction fuel generalizing cursor with
  | zero => omega
  | succ fuel ih =>
    have hsize : (mem.loadTag cursor).size < 2 ^ 32 := load32_lt mem (cursor + 4)
    have halign := le_alignTag (mem.loadTag cursor).size
    have hup : alignTag (mem.loadTag cursor).size ≤ (mem.loadTag cursor).size + 7 := by
      unfold alignTag
      omega
    have hnext : u64 (cursor + alignTag (mem.loadTag cursor).size) =
        cursor + alignTag (mem.loadTag cursor).size := u64_of_lt (by omega)
    simp only [tagEvents, mb2TagSize, hnext]
    split
    · split
      · rfl
      · split
        · rfl
        · rename_i hmin
          split
          · rfl
          · rename_i hgo
            push Not at hgo
            obtain ⟨xs, hxs⟩ := isSome_iff_exists.mp
              (mmapEvents_isSome mem (mem.loadTag cursor) cursor (by omega) hbound)
            rw [hxs, bind_some, isSome_map]
            exact ih _ (by omega) (by omega) (by omega)
    · rfl

end NeverMind
