import NeverMind.Verification.Fs.Refinement
import NeverMind.Verification.Fs.Steps
import NeverMind.Verification.Shell.Lines

/-! # Uninitialised buffers

Whether what a caller sees of a line depends on what the buffers held before. `ls` stores nothing
if there is nothing to list, and then `tmp` goes on to the next command or to a file as it was. -/

namespace NeverMind.Shell

open Option Vfs

variable {T R : Type} (fs : Filesystem T R) (fuel : ℕ) (alloc : NmAlloc)

def Done.observed (r : Done T R) : ℤ × List Byte × Option (List Byte) :=
  (r.ret, cString r.out, r.written)

/-- The same is seen for all contents of the output buffer and of the local buffers. -/
def Determined (cap : ℕ) (line : List Byte) (s : Vfs T R) : Prop :=
  ∀ (stack stack' : Stack) (out out' : List Byte), out.length = cap → out'.length = cap →
    (shellExecuteLine fs fuel alloc stack (some line) (some out) s).map Done.observed =
      (shellExecuteLine fs fuel alloc stack' (some line) (some out') s).map Done.observed

/-- The command is `ls`, and none of the files that it looks for has a status. -/
structure ListsNothing (words : List (List Byte)) (s : Vfs T R) : Prop where
  name : words.head? = some lsName
  few : words.length ≤ 16
  missing : ∀ path ∈ candidates, ∃ ret st,
    s.fsStat fs fuel (some path) true = some (ret, st) ∧ ret ≠ 0

/-- Such a command stands before `cat`, which prints a byte at least, or before a target that can
be opened. -/
def Leaks (cap : ℕ) (line : List Byte) (s : Vfs T R) : Prop :=
  ListsNothing fs fuel (leftWords line) s ∧
    (modeOf line = .pipe ∧ rightWords line = [catName] ∧ 2 ≤ cap ∨
      modeOf line = .redirect ∧ ∃ target fd s', rightWords line = [target] ∧
        s.fsOpen fs fuel (some target) (nmOCreat ||| nmORdwr) = some (fd, s') ∧ 0 ≤ fd)

variable {fs fuel alloc} {s : Vfs T R} {cap : ℕ} {line : List Byte} {words : List (List Byte)}

theorem listing_eq_nil (paths : List (List Byte)) :
    listing fs fuel s paths = some [] ↔ ∀ path ∈ paths, ∃ ret st,
      s.fsStat fs fuel (some path) true = some (ret, st) ∧ ret ≠ 0 := by
  induction paths with
  | nil => simp [listing]
  | cons path paths ih =>
    rw [List.forall_mem_cons, ← ih, listing]
    cases s.fsStat fs fuel (some path) true with
    | none => simp
    | some r =>
      obtain ⟨ret, st⟩ := r
      by_cases hret : ret = 0
      · simp [hret]
      · simp [hret]

theorem ListsNothing.effect (h : ListsNothing fs fuel words s) (cap : ℕ) (input : List Byte) :
    effect fs fuel cap words input s = some ⟨0, [(.ls, words)], none, s⟩ := by
  have hskip : ¬ (words = [] ∨ 16 < words.length) := by
    rintro (rfl | hmany)
    · cases h.name
    · exact absurd h.few (Nat.not_le.mpr hmany)
  rw [Shell.effect, if_neg hskip, h.name, if_neg (by decide), if_neg (by decide), if_pos rfl,
    (listing_eq_nil candidates).mpr h.missing]
  rfl

/-- Only such a command succeeds without storing anything. -/
theorem listsNothing_of_effect {input : List Byte} {e : Effect T R}
    (h : effect fs fuel cap words input s = some e) (hret : e.ret = 0) (htext : e.text = none) :
    ListsNothing fs fuel words s ∧ e.vfs = s := by
  cases ran_of_effect fs fuel h with
  | skipped | echo | catInput | catFile => cases htext
  | catMissing | unknown => cases hret
  | @ls t few name hlist =>
    have hnil : t = [] := by
      by_contra hne
      simp [hne] at htext
    rw [hnil] at hlist
    exact ⟨⟨name, few, (listing_eq_nil candidates).mp hlist⟩, rfl⟩

/-- Only `cat` alone reads its input. -/
theorem effect_input (h : words ≠ [catName]) (input input' : List Byte) :
    effect fs fuel cap words input s = effect fs fuel cap words input' s := by
  have hcat : words.head? = some catName →
      catEffect fs fuel cap words input s = catEffect fs fuel cap words input' s := by
    intro hname
    cases words with
    | nil => cases hname
    | cons name rest =>
      cases rest with
      | nil => exact absurd (by simpa using hname) h
      | cons path rest => rfl
  unfold Shell.effect
  split
  · rfl
  · split
    · rfl
    · split
      · rename_i hname
        exact hcat hname
      · rfl

theorem effect_cat (cap : ℕ) (input : List Byte) (s : Vfs T R) :
    effect fs fuel cap [catName] input s = (readString input (cap - 1)).map fun t =>
        ⟨0, [(.cat, [catName])], some (t.take (cap - 1)), s⟩ := rfl

theorem readString_zero {buf : List Byte} (h : buf ≠ []) : readString buf (1 - 1) = some [] := by
  obtain ⟨b, buf, rfl⟩ := List.exists_cons_of_ne_nil h
  exact if_neg fun hand => absurd hand.2 (Nat.lt_irrefl 0)

/-- What is seen of a line that does not leak. -/
theorem lineOutcome_tmp (hcap : 0 < cap) (hquiet : ¬ Leaks fs fuel cap line s)
    {tmp tmp' : List Byte} (htmp : tmp ≠ []) (htmp' : tmp' ≠ []) :
    lineOutcome fs fuel alloc tmp cap line s = lineOutcome fs fuel alloc tmp' cap line s := by
  unfold lineOutcome
  cases hmode : modeOf line with
  | plain => rfl
  | pipe =>
    refine bind_congr fun e he => ?_
    split
    · rfl
    · rename_i hret
      cases htext : e.text with
      | some t => simp only [Effect.buffer, htext]
      | none =>
        obtain ⟨hnothing, -⟩ := listsNothing_of_effect he (not_not.mp hret) htext
        simp only [Effect.buffer, htext]
        by_cases hcat : rightWords line = [catName]
        · have hone : cap = 1 := by
            by_contra hne
            exact hquiet ⟨hnothing, .inl ⟨hmode, hcat, by omega⟩⟩
          rw [hcat, hone, effect_cat, effect_cat, readString_zero htmp, readString_zero htmp']
        · rw [effect_input hcat tmp tmp']
  | redirect =>
    refine bind_congr fun e he => ?_
    split
    · rfl
    · rename_i hret
      cases htext : e.text with
      | some t => simp only [Effect.buffer, htext]
      | none =>
        obtain ⟨hnothing, hvfs⟩ := listsNothing_of_effect he (not_not.mp hret) htext
        simp only [Effect.buffer, htext, redirectOutcome]
        split
        · rfl
        · rename_i hone
          obtain ⟨target, htarget⟩ := List.length_eq_one_iff.mp (not_not.mp hone)
          rw [htarget, hvfs, List.head?_cons]
          refine bind_congr fun q hopen => ?_
          split
          · rfl
          · rename_i hfd
            exact absurd ⟨hnothing, .inr ⟨hmode, target, q.1, q.2, htarget, hopen,
              Int.not_lt.mp hfd⟩⟩ hquiet

def Outcome.observed (o : Outcome T R) : ℤ × List Byte × Option (List Byte) :=
  (o.ret, o.shown, o.written)

theorem observed_eq (hfs : Lawful fs) (hline : 0 ∉ line) (stack : Stack) {out : List Byte}
    (hout : out ≠ []) (s : Vfs T R) :
    (shellExecuteLine fs fuel alloc stack (some line) (some out) s).map Done.observed =
      (lineOutcome fs fuel alloc stack.tmp out.length line s).map Outcome.observed := by
  rw [← shellExecuteLine_outcome hfs hline stack hout s, map_map]
  rfl

/-! ## What a leak shows -/

theorem fsWrite_short (hfs : Lawful fs) (hfuel : 0 < fuel) (alloc : NmAlloc)
    {path : Option (List Byte)} {flags : ℕ} {fd : ℤ} {s' : Vfs T R}
    (hopen : s.fsOpen fs fuel path flags = some (fd, s')) (hfd : 0 ≤ fd)
    (src : ℕ → Byte) {len : ℕ} (hlen : len ≤ 1) :
    ∃ w, s'.fsWrite fs fuel alloc fd (some src) len = some w := by
  obtain ⟨i, node, nodes, -, rfl, -, rfl⟩ := fsOpen_opened hopen hfd
  obtain ⟨w, hw⟩ := isSome_iff_exists.mp (hfs.short fuel alloc node src len nodes hfuel hlen)
  unfold fsWrite getVnode
  rw [getFile_natCast]
  cases hops : fs.hasOps node nodes with
  | true => exact ⟨_, by simp [setFile, hops, hw]; rfl⟩
  | false => exact ⟨_, by simp [setFile, hops]; rfl⟩

/-- The string in `tmp` is seen. -/
theorem Leaks.observed (h : Leaks fs fuel cap line s) (hfs : Lawful fs) (hfuel : 0 < fuel)
    {t : List Byte} (ht : 0 ∉ t) (hlen : t.length ≤ 1) (rest : List Byte) :
    (lineOutcome fs fuel alloc (t ++ 0 :: rest) cap line s).map Outcome.observed =
      some (if modeOf line = .pipe then (0, t, none) else (0, [], some t)) := by
  obtain ⟨hnothing, ⟨hmode, hright, hcap⟩ | ⟨hmode, target, fd, s', hright, hopen, hfd⟩⟩ := h
  · have hwhole : t.take (cap - 1) = t := List.take_of_length_le (by omega)
    rw [lineOutcome, hmode]
    simp only [hnothing.effect, bind_some, Effect.buffer, hright, effect_cat,
      readString_append ht, hwhole]
    simp [Outcome.observed, cString_eq_self ht, hwhole]
  · have hwhole : t.take 512 = t := List.take_of_length_le (by omega)
    obtain ⟨w, hw⟩ := fsWrite_short hfs hfuel alloc hopen hfd (fun i => t.getD i 0) hlen
    rw [lineOutcome, hmode]
    simp only [hnothing.effect, bind_some, Effect.buffer, hright, redirectOutcome,
      List.length_singleton, List.head?_cons, hopen, readString_append ht, hwhole, hw]
    simp [Outcome.observed, Int.not_lt.mpr hfd]

theorem Leaks.not_determined (h : Leaks fs fuel cap line s) (hfs : Lawful fs) (hfuel : 0 < fuel)
    (hline : 0 ∉ line) (hcap : 0 < cap) : ¬ Determined fs fuel alloc cap line s := by
  intro hdetermined
  obtain ⟨stack, rest, hstack⟩ := exists_stack [] (by decide)
  obtain ⟨stack', rest', hstack'⟩ := exists_stack [97] (by decide)
  obtain ⟨out, hlen⟩ : ∃ out : List Byte, out.length = cap :=
    ⟨List.replicate cap 0, List.length_replicate⟩
  have hout : out ≠ [] := List.ne_nil_of_length_pos (by omega)
  have hsame := hdetermined stack stack' out out hlen hlen
  rw [observed_eq hfs hline stack hout, observed_eq hfs hline stack' hout, hstack, hstack',
    hlen, h.observed hfs hfuel (by decide) (by decide),
    h.observed hfs hfuel (by decide) (by decide)] at hsame
  split at hsame <;> simp at hsame

/-- What is seen of a line depends on its inputs only, exactly if the line does not leak. -/
theorem execute_line_determined_iff (hfs : Lawful fs) (hfuel : 0 < fuel) (hline : 0 ∉ line)
    (hcap : 1 ≤ cap) (s : Vfs T R) :
    Determined fs fuel alloc cap line s ↔ ¬ Leaks fs fuel cap line s := by
  constructor
  · intro hdetermined hleaks
    exact hleaks.not_determined hfs hfuel hline hcap hdetermined
  · intro hquiet stack stack' out out' hlen hlen'
    rw [observed_eq hfs hline stack (List.ne_nil_of_length_pos (by omega)),
      observed_eq hfs hline stack' (List.ne_nil_of_length_pos (by omega)), hlen, hlen',
      lineOutcome_tmp hcap hquiet (List.ne_nil_of_length_pos (by rw [stack.tmp_size]; decide))
        (List.ne_nil_of_length_pos (by rw [stack'.tmp_size]; decide))]

def lsPipeCat : List Byte := [108, 115, 32, 124, 32, 99, 97, 116]

/-- With room for the terminator only, nothing of `tmp` can be seen. -/
theorem execute_line_determined_lsPipeCat :
    0 ∉ lsPipeCat ∧ Determined Tmpfs.filesystem 512 (fun _ => none) 1 lsPipeCat
      atBoot.mounted.2 := by
  refine ⟨by decide, (execute_line_determined_iff tmpfs_lawful (by decide) (by decide) (by decide)
    _).mpr ?_⟩
  rintro ⟨-, ⟨-, -, hcap⟩ | ⟨hmode, -⟩⟩
  · exact absurd hcap (by decide)
  · exact absurd hmode (by decide)

/-- Over an empty directory `ls | cat` prints what the stack held. -/
theorem empty_listing_not_determined :
    ¬ Determined Tmpfs.filesystem 512 (fun _ => none) 2 lsPipeCat atBoot.mounted.2 := by
  have hmissing : ∀ path ∈ candidates,
      ShortParts path ∧ (FileStore.empty.stat (some path) true).1 ≠ 0 := by
    unfold ShortParts
    decide
  have hleaks : Leaks Tmpfs.filesystem 512 2 lsPipeCat atBoot.mounted.2 := by
    refine ⟨⟨by decide, by decide, fun path hpath => ?_⟩, .inl ⟨by decide, by decide, by decide⟩⟩
    obtain ⟨hshort, hret⟩ := hmissing path hpath
    refine ⟨_, _, (mounted_refines atBoot).2.fsStat (le_refl 512) (fun p hp => ?_) true, hret⟩
    cases hp
    exact hshort
  exact hleaks.not_determined tmpfs_lawful (by decide) (by decide) (by decide)

end NeverMind.Shell
