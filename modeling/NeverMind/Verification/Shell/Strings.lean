import NeverMind.Library.Related
import NeverMind.Model.Shell

/-! # The strings of the shell

The loops of `shell.c` that read terminated strings and fill buffers of a given size. -/

namespace NeverMind.Shell

open List Option

/-- The buffer starts with the text and a terminator. -/
def Shows (t buf : List Byte) : Prop := t ++ [0] <+: buf

theorem zero_notMem_cString (t : List Byte) : 0 ∉ cString t := by
  intro hmem
  simpa using mem_takeWhile_imp hmem

theorem cString_eq_self {t : List Byte} (ht : 0 ∉ t) : cString t = t := by
  rw [cString, takeWhile_eq_self_iff]
  intro b hb
  simpa using fun hzero : b = 0 => ht (hzero ▸ hb)

theorem exists_cString {buf : List Byte} (h : 0 ∈ buf) :
    ∃ rest, buf = cString buf ++ 0 :: rest := by
  induction buf with
  | nil => exact absurd h not_mem_nil
  | cons b buf ih =>
    by_cases hb : b = 0
    · exact ⟨buf, by simp [cString, hb]⟩
    · obtain ⟨rest, hrest⟩ := ih ((mem_cons.mp h).resolve_left (Ne.symm hb))
      refine ⟨rest, ?_⟩
      rw [cString, takeWhile_cons_of_pos (by simpa using hb)]
      exact congrArg (b :: ·) hrest

theorem cString_append_zero (t rest : List Byte) : cString (t ++ 0 :: rest) = cString t := by
  induction t with
  | nil => simp [cString]
  | cons b t ih =>
    by_cases hb : b = 0
    · simp [cString, hb]
    · simp only [cString, cons_append] at ih ⊢
      rw [takeWhile_cons_of_pos (by simpa using hb), takeWhile_cons_of_pos (by simpa using hb), ih]

theorem Shows.cString_eq {t buf : List Byte} (h : Shows t buf) : cString buf = cString t := by
  obtain ⟨rest, rfl⟩ := h
  rw [append_assoc]
  exact cString_append_zero t rest

theorem Shows.zero_mem {t buf : List Byte} (h : Shows t buf) : 0 ∈ buf :=
  h.subset (mem_append_right t mem_cons_self)

/-- A buffer with a terminated text is a string and what lies behind it. -/
theorem Shows.exists_rest {t buf : List Byte} (h : Shows t buf) :
    ∃ rest, buf = cString t ++ 0 :: rest := by
  rw [← h.cString_eq]
  exact exists_cString h.zero_mem

/-! ## Comparison and length -/

variable {a b : List Byte}

theorem strEq_append (ha : 0 ∉ a) (hb : 0 ∉ b) (rest rest' : List Byte) :
    strEq (a ++ 0 :: rest) (b ++ 0 :: rest') = some (decide (a = b)) := by
  induction a generalizing b with
  | nil =>
    cases b with
    | nil => simp [strEq]
    | cons y b =>
      have hy : y ≠ 0 := fun hzero => hb (hzero ▸ mem_cons_self)
      rw [nil_append, cons_append, strEq, if_neg fun h => h.1 rfl, beq_eq_false_iff_ne.mpr hy.symm]
      rfl
  | cons x a ih =>
    have hx : x ≠ 0 := fun hzero => ha (hzero ▸ mem_cons_self)
    cases b with
    | nil =>
      rw [nil_append, cons_append, strEq, if_neg fun h => h.2 rfl, beq_eq_false_iff_ne.mpr hx]
      rfl
    | cons y b =>
      have hy : y ≠ 0 := fun hzero => hb (hzero ▸ mem_cons_self)
      have hrest := ih (fun h => ha (mem_cons_of_mem x h))
        (fun h => hb (mem_cons_of_mem y h))
      rw [cons_append, cons_append, strEq, if_pos ⟨hx, hy⟩]
      by_cases hxy : x = y
      · rw [if_neg (not_not.mpr hxy), hrest]
        simp [hxy]
      · rw [if_pos hxy]
        simp [hxy]

/-- The bytes of a string, at most `n` of them. -/
def readString : List Byte → ℕ → Option (List Byte)
  | [], _ => none
  | b :: s, n => if b ≠ 0 ∧ 0 < n then (readString s (n - 1)).map (b :: ·) else some []

theorem readString_append (ha : 0 ∉ a) (rest : List Byte) (n : ℕ) :
    readString (a ++ 0 :: rest) n = some (a.take n) := by
  induction a generalizing n with
  | nil => simp [readString]
  | cons x a ih =>
    have hx : x ≠ 0 := fun hzero => ha (hzero ▸ mem_cons_self)
    rw [cons_append, readString]
    cases n with
    | zero => simp
    | succ n =>
      rw [if_pos ⟨hx, Nat.succ_pos n⟩, ih fun h => ha (mem_cons_of_mem x h)]
      rfl

theorem Shows.readString {t buf : List Byte} (h : Shows t buf) (n : ℕ) :
    readString buf n = some ((cString t).take n) := by
  obtain ⟨rest, rfl⟩ := h.exists_rest
  exact readString_append (zero_notMem_cString t) rest n

/-- The length counts what can be read without a limit. -/
theorem strLen_eq_readString (buf : List Byte) :
    strLen buf = (readString buf buf.length).map length := by
  induction buf with
  | nil => rfl
  | cons b buf ih =>
    rw [strLen, readString, length_cons]
    by_cases hb : b = 0
    · simp [hb]
    · rw [if_pos hb, if_pos ⟨hb, Nat.succ_pos _⟩, ih, Nat.add_sub_cancel, Option.map_map,
        Option.map_map]
      rfl

/-! ## Words -/

/-- The words of a text, each cut to what a row takes. -/
def cutWords (text : List Byte) : List (List Byte) := (fields isBlank text).map (·.take 63)

theorem isBlank_zero : isBlank 0 = false := by decide

theorem notMem_of_mem_cutWords {c : Byte} {text w : List Byte} (h : c ∉ text)
    (hw : w ∈ cutWords text) : c ∉ w := by
  obtain ⟨f, hf, rfl⟩ := mem_map.mp hw
  exact fun hc => h ((mem_fields hf).2.1.subset (mem_of_mem_take hc))

theorem cutWords_take {text : List Byte} (hlen : text.length ≤ 127)
    (hwidth : ∀ word ∈ fields isBlank text, word.length ≤ 63) :
    cutWords (text.take 127) = fields isBlank text := by
  rw [take_of_length_le hlen, cutWords]
  exact (map_congr_left fun word hword => take_of_length_le (hwidth word hword)).trans
    (map_id' _)

/-- Each of the words is in its row. -/
theorem splitTokens_spec {text : List Byte} (htext : 0 ∉ text) (rest : List Byte)
    {table : List (List Byte)} (hwidth : ∀ row ∈ table, row.length = 64) :
    ∃ table', splitTokens (text ++ 0 :: rest) table table.length =
        some (if (fields isBlank text).length ≤ table.length then
          ((fields isBlank text).length : ℤ) else -1, table') ∧
      ((fields isBlank text).length ≤ table.length →
        Forall₂ Shows (cutWords text) (table'.take (fields isBlank text).length)) := by
  obtain ⟨new, left, -, -, hrun, hnew⟩ := splitFields_spec isBlank 0 isBlank_zero
    (show 0 < 64 by decide) htext (show text.length ≤ (text ++ 0 :: rest).length by simp) rest []
    table (Nat.zero_add _) hwidth
  simp only [length_nil, nil_append, Nat.zero_add] at hrun
  refine ⟨new ++ left, ?_, fun hfit => ?_⟩
  · rw [splitTokens, hrun]
    split <;> rfl
  · have hrows := hnew hfit
    rw [hrows.length_eq, take_left', cutWords, forall₂_map_left_iff]
    · exact hrows
    · rfl

/-! ## Output buffers -/

/-- A buffer of `cap` bytes and its fill count hold a text, cut to leave room for a terminator. -/
structure Filled (cap : ℕ) (t : List Byte) (used : ℕ) (out : List Byte) : Prop where
  used_eq : used = (t.take (cap - 1)).length
  size : out.length = cap
  text : t.take (cap - 1) <+: out

theorem filled_nil (out : List Byte) : Filled out.length [] 0 out := ⟨by simp, rfl, by simp⟩

variable {cap used : ℕ} {t out : List Byte}

theorem Filled.used_lt (h : Filled cap t used out) (hcap : 0 < cap) : used < out.length := by
  rw [h.size, h.used_eq, length_take]
  omega

/-- The cells of the buffer from the fill count on. -/
theorem Filled.split (h : Filled cap t used out) (hcap : 0 < cap) :
    ∃ y more, out = t.take (cap - 1) ++ y :: more := by
  obtain ⟨tail, rfl⟩ := h.text
  have hlen := h.size
  have htake := length_take_le (cap - 1) t
  rw [length_append] at hlen
  obtain ⟨y, more, rfl⟩ := exists_cons_of_length_pos (show 0 < tail.length by omega)
  exact ⟨y, more, rfl⟩

theorem Filled.terminate (h : Filled cap t used out) (hcap : 0 < cap) :
    ∃ out', store out used 0 = some out' ∧ Filled cap t used out' ∧
      Shows (t.take (cap - 1)) out' := by
  obtain ⟨y, more, hout⟩ := h.split hcap
  have hsize := h.size
  obtain ⟨rfl, -, -⟩ := h
  refine ⟨t.take (cap - 1) ++ 0 :: more, by rw [hout, store_append], ⟨rfl, ?_, ?_⟩, ?_⟩
  · rw [hout] at hsize
    simpa using hsize
  · exact prefix_append _ _
  · exact ⟨more, by simp⟩

theorem Filled.push (h : Filled cap t used out) (hroom : used + 1 < cap) (b : Byte) :
    ∃ out', store out used b = some out' ∧ Filled cap (t ++ [b]) (used + 1) out' := by
  obtain ⟨y, more, hout⟩ := h.split (by omega)
  have hsize := h.size
  obtain ⟨rfl, -, -⟩ := h
  -- there is room, so that nothing of the text was cut
  have hwhole : t.take (cap - 1) = t := by
    apply take_of_length_le
    rw [length_take] at hroom
    omega
  rw [hwhole] at hout hroom ⊢
  have hall : (t ++ [b]).take (cap - 1) = t ++ [b] := by
    apply take_of_length_le
    rw [length_append, length_singleton]
    omega
  refine ⟨t ++ b :: more, by rw [hout, store_append], ⟨by rw [hall]; simp, ?_, ?_⟩⟩
  · rw [← hsize, hout]
    simp
  · rw [hall]
    exact ⟨more, by simp⟩

/-- What is added to a full buffer is cut. -/
theorem Filled.full (h : Filled cap t used out) (hfull : ¬ used + 1 < cap) (w : List Byte) :
    Filled cap (t ++ w) used out := by
  have hcut : (t ++ w).take (cap - 1) = t.take (cap - 1) := by
    have hused := h.used_eq
    rw [length_take] at hused
    rw [take_append_of_le_length (by omega)]
  exact ⟨by rw [hcut]; exact h.used_eq, h.size, by rw [hcut]; exact h.text⟩

/-- Any buffer is appended up to a terminator, or as far as there is room. -/
theorem Filled.outAppend_buffer (h : Filled cap t used out) (hcap : 0 < cap) (buf : List Byte) :
    Rel (fun w q => Filled cap (t ++ w) q.1 q.2 ∧ Shows ((t ++ w).take (cap - 1)) q.2)
      (readString buf (cap - 1 - used)) (outAppend buf used out) := by
  induction buf generalizing t used out with
  | nil => exact .none
  | cons b buf ih =>
    rw [readString, outAppend, h.size]
    by_cases hgo : b ≠ 0 ∧ used + 1 < cap
    · obtain ⟨out₁, hpush, hnext⟩ := h.push hgo.2 b
      rw [if_pos hgo, if_pos ⟨hgo.1, by omega⟩, hpush]
      have hrest := ih hnext
      rw [show cap - 1 - (used + 1) = cap - 1 - used - 1 by omega] at hrest
      refine rel_map_left hrest fun w q hw => ?_
      rwa [append_assoc] at hw
    · obtain ⟨out', hstore, hfilled, hshows⟩ := h.terminate hcap
      rw [if_neg hgo, if_neg (fun hgo' => hgo ⟨hgo'.1, by omega⟩), hstore]
      refine .some ?_
      rw [append_nil]
      exact ⟨hfilled, hshows⟩

/-- What does not fit makes no difference. -/
theorem Filled.take_append (h : Filled cap t used out) (w : List Byte) :
    (t ++ w.take (cap - 1 - used)).take (cap - 1) = (t ++ w).take (cap - 1) := by
  have hused := h.used_eq
  rw [length_take] at hused
  rw [List.take_append, List.take_append, List.take_take]
  congr 2
  omega

theorem Filled.outAppend (h : Filled cap t used out) (hcap : 0 < cap) {w : List Byte} (hw : 0 ∉ w)
    (rest : List Byte) :
    ∃ used' out', outAppend (w ++ 0 :: rest) used out = some (used', out') ∧
      Filled cap (t ++ w) used' out' ∧ Shows ((t ++ w).take (cap - 1)) out' := by
  have hbuffer := h.outAppend_buffer hcap (w ++ 0 :: rest)
  rw [readString_append hw] at hbuffer
  generalize Shell.outAppend (w ++ 0 :: rest) used out = y at hbuffer ⊢
  cases hbuffer with
  | @some _ q hq =>
    obtain ⟨⟨hused, hsize, htext⟩, hshows⟩ := hq
    rw [h.take_append] at hused htext hshows
    exact ⟨q.1, q.2, rfl, ⟨hused, hsize, htext⟩, hshows⟩

theorem Filled.copyOut (h : Filled cap t used out) {n : ℕ} {buf : List Byte} (hn : n ≤ buf.length) :
    ∃ used' out', copyOut n buf used out = some (used', out') ∧
      Filled cap (t ++ buf.take n) used' out' := by
  induction n generalizing t used out buf with
  | zero => exact ⟨used, out, rfl, by simpa using h⟩
  | succ n ih =>
    simp only [Shell.copyOut, h.size]
    by_cases hroom : used + 1 < cap
    · obtain ⟨b, buf, rfl⟩ := exists_cons_of_length_pos (show 0 < buf.length by omega)
      obtain ⟨out₁, hstore, hnext⟩ := h.push hroom b
      obtain ⟨used', out', hrun, hfilled⟩ := ih hnext (Nat.le_of_succ_le_succ hn)
      refine ⟨used', out', ?_, by simpa using hfilled⟩
      rw [if_pos hroom]
      simp only [hstore, bind_eq_bind, bind_some, hrun]
    · exact ⟨used, out, if_neg hroom, h.full hroom _⟩

theorem Filled.echoLoop (h : Filled cap t used out) (hcap : 0 < cap) {words rows : List (List Byte)}
    (hrows : Forall₂ Shows words rows) (hwords : ∀ w ∈ words, 0 ∉ w) :
    ∃ used' out', echoLoop rows used out = some (used', out') ∧
      Filled cap (t ++ [32].intercalate words) used' out' := by
  induction hrows generalizing t used out with
  | nil => exact ⟨used, out, rfl, by simpa using h⟩
  | @cons w row words rows hrow hrows ih =>
    have hw := hwords w mem_cons_self
    obtain ⟨rest, hrest⟩ := hrow.exists_rest
    rw [cString_eq_self hw] at hrest
    obtain ⟨used₁, out₁, happend, hfilled, -⟩ := h.outAppend hcap hw rest
    rw [Shell.echoLoop, hrest, happend]
    have hwords' : ∀ v ∈ words, 0 ∉ v := fun v hv => hwords v (mem_cons_of_mem w hv)
    cases hrows with
    | nil => exact ⟨used₁, out₁, rfl, by simpa using hfilled⟩
    | @cons v row' words rows hrow' hrows =>
      obtain ⟨used₂, out₂, hblank, hspaced, -⟩ := hfilled.outAppend hcap (w := [32]) (by decide) []
      obtain ⟨used', out', hrun, hdone⟩ := ih hspaced hwords'
      refine ⟨used', out', ?_, ?_⟩
      · change (Shell.outAppend ([32] ++ 0 :: []) used₁ out₁).bind _ = _
        rw [hblank]
        exact hrun
      · simpa [intercalate_cons_cons] using hdone

def echoText (words : List (List Byte)) : List Byte := [32].intercalate words ++ [10]

theorem cmdEcho_shows (out : List Byte) (hcap : 0 < out.length) {words argv : List (List Byte)}
    (hrows : Forall₂ Shows words argv) (hwords : ∀ w ∈ words, 0 ∉ w) :
    ∃ out', cmdEcho argv out = some (0, out') ∧ out'.length = out.length ∧
      Shows ((echoText words.tail).take (out.length - 1)) out' := by
  have htail : Forall₂ Shows words.tail argv.tail := by
    cases hrows with
    | nil => exact .nil
    | cons _ hrows => exact hrows
  obtain ⟨used₁, out₁, hloop, hfilled⟩ := (filled_nil out).echoLoop hcap htail
    fun w hw => hwords w (mem_of_mem_tail hw)
  obtain ⟨used', out', happend, hdone, hshows⟩ := hfilled.outAppend hcap (w := [10]) (by decide) []
  refine ⟨out', ?_, hdone.size, hshows⟩
  simp only [cmdEcho, hloop, bind_eq_bind, bind_some]
  exact congrArg (bind · _) happend

end NeverMind.Shell
