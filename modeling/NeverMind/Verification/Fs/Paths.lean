import NeverMind.Model.Vfs

/-! # Paths

`fs_path_split` computes the components of a path, each cut to 63 bytes. -/

namespace NeverMind

open List

/-- The maximal runs of bytes other than slashes. -/
def components (path : List Byte) : List (List Byte) := fields (· == slash) path

@[simp] theorem components_nil : components [] = [] := fields_nil

theorem components_slash (path : List Byte) : components (slash :: path) = components path :=
  fields_sep (by simp) path

theorem components_dropWhile_slash (path : List Byte) :
    components (path.dropWhile (· == slash)) = components path :=
  fields_dropWhile path

theorem components_cons {b : Byte} (hb : b ≠ slash) (rest : List Byte) :
    components (b :: rest) = (b :: rest).takeWhile (· != slash) ::
        components ((b :: rest).dropWhile (· != slash)) :=
  fields_cons (by simpa using hb) rest

/-- With a round for each byte, the loop returns the components, or fails if there are too
many. -/
theorem splitLoop_eq (maxParts : ℕ) {rounds count : ℕ} {path : List Byte}
    (hrounds : path.length ≤ rounds) (hcount : count ≤ maxParts) :
    splitLoop maxParts rounds count path = if count + (components path).length ≤ maxParts then
        some ((components path).map fun c => c.take 63)
      else none := by
  induction rounds generalizing count path with
  | zero =>
    have hnil : path = [] := length_eq_zero_iff.mp (by omega)
    subst hnil
    simp [splitLoop, hcount]
  | succ rounds ih =>
    rw [splitLoop]
    cases hskip : path.dropWhile (· == slash) with
    | nil =>
      have hcomp := components_dropWhile_slash path
      rw [hskip, components_nil] at hcomp
      simp [← hcomp, hcount]
    | cons b rest =>
      have hb : b ≠ slash := by
        have hhead := head?_dropWhile_not (· == slash) path
        rw [hskip] at hhead
        simpa using hhead
      have hcomp := components_dropWhile_slash path
      rw [hskip, components_cons hb] at hcomp
      have hshort : ((b :: rest).dropWhile (· != slash)).length ≤ rounds := by
        have hle := length_dropWhile_le (· == slash) path
        have hdrop := length_dropWhile_le (· != slash) rest
        rw [hskip, length_cons] at hle
        rw [dropWhile_cons_of_pos (by simp [hb])]
        omega
      rw [← hcomp, length_cons]
      dsimp only
      by_cases hfull : maxParts ≤ count
      · rw [if_pos hfull, if_neg (by omega)]
      · rw [if_neg hfull]
        rw [ih hshort (by omega)]
        by_cases hfit : count + 1 +
            (components ((b :: rest).dropWhile (· != slash))).length ≤ maxParts
        · rw [if_pos hfit, if_pos (by omega)]
          rfl
        · rw [if_neg hfit, if_neg (by omega)]
          rfl

theorem fsPathSplit_eq (path : List Byte) {maxParts : ℕ} (hpos : 0 < maxParts) :
    fsPathSplit path maxParts = if (components path).length ≤ maxParts then
        some ((components path).map fun c => c.take 63)
      else none := by
  rw [fsPathSplit, if_neg (by omega), splitLoop_eq maxParts (le_refl _) (Nat.zero_le _),
    Nat.zero_add]

/-- The rows of the parts, for a table of `maxParts` rows. -/
theorem fsPathSplitRows_spec {path : List Byte} (hpath : 0 ∉ path) {maxParts : ℕ}
    (hpos : 0 < maxParts) {parts : List (List Byte)} (hrows : parts.length = maxParts)
    (hwidth : ∀ row ∈ parts, row.length = nmNameMax) :
    ∃ new left, fsPathSplitRows (some (path ++ [0])) (some parts) maxParts =
        some (if (components path).length ≤ maxParts then ((components path).length : ℤ)
          else nmErr nmEfail, new ++ left) ∧
      ((components path).length ≤ maxParts →
        Forall₂ (RowHolds 0 nmNameMax) (components path) new) := by
  have hrounds : path.length ≤ (path ++ [0]).length := by simp
  obtain ⟨new, left, -, -, hsplit, hnew⟩ := splitFields_spec (· == slash) 0 (by decide)
    (by decide) hpath hrounds [] [] parts (by simpa using hrows) hwidth
  rw [hrows] at hsplit hnew
  refine ⟨new, left, ?_, hnew⟩
  have hfields : fields (· == slash) path = components path := rfl
  simp only [length_nil, nil_append, Nat.zero_add, hfields] at hsplit
  simp only [fsPathSplitRows, if_neg (show ¬ (maxParts : ℤ) ≤ 0 by omega), Int.toNat_natCast,
    hsplit]
  split
  · rfl
  · rfl

/-- The rows of the table receive the parts that `fsPathSplit` computes. -/
theorem fsPathSplitRows_eq {path : List Byte} (hpath : 0 ∉ path) {maxParts : ℕ}
    (hpos : 0 < maxParts) {parts : List (List Byte)} (hrows : parts.length = maxParts)
    (hwidth : ∀ row ∈ parts, row.length = nmNameMax) :
    ∃ ret new left,
      fsPathSplitRows (some (path ++ [0])) (some parts) maxParts = some (ret, new ++ left) ∧
        match fsPathSplit path maxParts with
        | none => ret = nmErr nmEfail
        | some split => ret = split.length ∧ Forall₂ (fun c row => c ++ [0] <+: row) split new := by
  obtain ⟨new, left, hsplit, hnew⟩ := fsPathSplitRows_spec hpath hpos hrows hwidth
  refine ⟨_, new, left, hsplit, ?_⟩
  rw [fsPathSplit_eq path hpos]
  by_cases hfit : (components path).length ≤ maxParts
  · simp only [if_pos hfit, length_map, forall₂_map_left_iff]
    exact ⟨trivial, hnew hfit⟩
  · simp only [if_neg hfit]

/-- The components of a path, each cut to 63 bytes, come into the rows of the table, or an error
is returned. The buffer of the path ends with its terminator and the table has `maxParts` rows
of 64 bytes, so that every read is up to the terminator and every store inside the table. -/
theorem fs_path_split_components (path : List Byte) (hpath : 0 ∉ path) (maxParts : ℕ)
    (hpos : 1 ≤ maxParts) (parts : List (List Byte)) (hrows : parts.length = maxParts)
    (hwidth : ∀ row ∈ parts, row.length = nmNameMax) :
    ∃ ret parts', fsPathSplitRows (some (path ++ [0])) (some parts) maxParts = some (ret, parts') ∧
      (ret < 0 ↔ maxParts < (components path).length) ∧
      ((components path).length ≤ maxParts → ret = (components path).length ∧
        ∀ i (hi : i < (components path).length), ∃ row, parts'[i]? = some row ∧
          (components path)[i].take 63 ++ [0] <+: row) := by
  obtain ⟨new, left, hsplit, hnew⟩ := fsPathSplitRows_spec hpath hpos hrows hwidth
  refine ⟨_, _, hsplit, ?_, fun hfit => ⟨if_pos hfit, fun i hi => ?_⟩⟩
  · by_cases hfit : (components path).length ≤ maxParts
    · rw [if_pos hfit]
      omega
    · rw [if_neg hfit]
      exact iff_of_true (by decide) (by omega)
  · have hlen := (hnew hfit).length_eq
    refine ⟨new[i], ?_, (hnew hfit).get hi (hlen ▸ hi)⟩
    rw [getElem?_append_left (hlen ▸ hi), getElem?_eq_getElem]

theorem fs_path_split_components_two :
    (0 : Byte) ∉ ([47, 97, 47, 47, 98, 98, 47] : List Byte) ∧
      ∃ ret parts', fsPathSplitRows (some ([47, 97, 47, 47, 98, 98, 47] ++ [0]))
          (some (replicate 2 (replicate nmNameMax 7))) (2 : ℕ) = some (ret, parts') ∧
        ret = 2 := by
  have hpath : (0 : Byte) ∉ ([47, 97, 47, 47, 98, 98, 47] : List Byte) := by decide
  have hlen : (components [47, 97, 47, 47, 98, 98, 47]).length = 2 := by decide
  obtain ⟨ret, parts', hsplit, -, hparts⟩ := fs_path_split_components _ hpath 2 (by decide)
    (replicate 2 (replicate nmNameMax 7)) (by simp) (by simp)
  have hret := (hparts hlen.le).1
  rw [hlen] at hret
  exact ⟨hpath, ret, parts', hsplit, hret⟩

/-- Components that fit a name are not cut. -/
def ShortParts (path : List Byte) : Prop := ∀ c ∈ components path, c.length ≤ 63

theorem map_take_of_shortParts {path : List Byte} (h : ShortParts path) :
    ((components path).map fun c => c.take 63) = components path := by
  have hcut : ∀ c ∈ components path, c.take 63 = id c := by
    intro c hc
    exact take_of_length_le (h c hc)
  rw [map_congr_left hcut, map_id]

end NeverMind
