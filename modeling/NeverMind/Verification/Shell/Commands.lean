import NeverMind.Model.Ext2
import NeverMind.Verification.Shell.Strings

/-! # Simple commands

`run_simple` against a function of the words of the command, of the size of the output buffer and
of the input. The uninitialised buffers do not occur in it. -/

namespace NeverMind.Shell

open Tmpfs List Option

variable {T R : Type} (fs : Filesystem T R) (fuel : ℕ)

/-- What the shell relies on: a read counts no more bytes than it delivers, a write uses `len`
bytes of its source, and a write of at most one byte at the start of a file returns. -/
structure Lawful : Prop where
  delivers : ∀ node offset len t,
    (fs.read node offset len t).1 ≤ (fs.read node offset len t).2.length
  front : ∀ fuel alloc node (src src' : ℕ → Byte) offset len t, (∀ i < len, src i = src' i) →
    fs.write fuel alloc node src offset len t = fs.write fuel alloc node src' offset len t
  short : ∀ fuel alloc node src len t, 0 < fuel → len ≤ 1 →
    (fs.write fuel alloc node src 0 len t).isSome

theorem storeBytes_congr {src src' : ℕ → Byte} {len : ℕ} (h : ∀ i < len, src i = src' i)
    (offset : ℕ) : storeBytes offset len src = storeBytes offset len src' := by
  funext data k
  unfold storeBytes
  split
  · rename_i hlt
    exact h _ hlt
  · rfl

/-- A byte needs no round of the growth loop. -/
theorem reserve_short {fuel : ℕ} (hfuel : 0 < fuel) (alloc : NmAlloc) (i : NodeRef) (t : Tmpfs)
    {need : ℕ} (hneed : need ≤ 1) : ∃ r, t.tmpfsReserve fuel alloc i need = some r := by
  unfold tmpfsReserve
  by_cases hfits : need ≤ (t.nodes i).capacity
  · exact ⟨_, if_pos hfits⟩
  · obtain ⟨n, rfl⟩ := Nat.exists_eq_succ_of_ne_zero hfuel.ne'
    have hzero : (t.nodes i).capacity = 0 := by omega
    have hgrow : growLoop need (n + 1) 64 = some 64 := if_neg (by omega)
    simp only [if_neg hfits, if_pos hzero, hgrow]
    cases alloc 64 with
    | none => exact ⟨_, rfl⟩
    | some buf => exact ⟨_, rfl⟩

theorem tmpfs_lawful : Lawful filesystem where
  delivers := by
    intro node offset len t
    simp only [filesystem, tmpfsRead]
    split
    · exact (by decide : nmErr nmEfail ≤ 0).trans (Int.natCast_nonneg _)
    · split
      · exact le_rfl
      · dsimp only
        rw [length_map, length_range]
        exact i64_natCast_le _
  front := by
    intro fuel alloc node src src' offset len t h
    simp only [filesystem, tmpfsWrite, storeBytes_congr h]
  short := by
    intro fuel alloc node src len t hfuel hlen
    have hneed : u64 (0 + len) ≤ 1 := (Nat.mod_le _ _).trans (by omega)
    obtain ⟨r, hr⟩ := reserve_short hfuel alloc node t hneed
    simp only [filesystem, tmpfsWrite, hr]
    split
    · rfl
    · split <;> rfl

theorem ext2_lawful (malloc : ℕ → NmAlloc) : Lawful (Ext2.filesystem malloc) where
  delivers := by
    intro node offset len t
    simp only [Ext2.filesystem, Ext2.ext2Read]
    split
    · exact le_rfl
    · split
      · exact le_rfl
      · dsimp only
        rw [length_map, length_range]
        exact i64_natCast_le _
  front := by
    intro fuel alloc node src src' offset len t h
    simp only [Ext2.filesystem, Ext2.ext2Write, storeBytes_congr h]
  short := fun _ _ _ _ _ _ _ _ => rfl

/-! ## What a command does -/

/-- What is read from a descriptor until a read delivers nothing. -/
def fileText (fd : ℤ) : ℕ → Vfs T R → Option (List Byte × Vfs T R)
  | 0, _ => none
  | fuel + 1, s =>
    match s.fsRead fs fd true 128 with
    | ((n, bytes), s) =>
      if 0 < n then
        (fileText fd fuel s).map fun r => (bytes.take n.toNat ++ r.1, r.2)
      else some ([], s)

def listing (s : Vfs T R) : List (List Byte) → Option (List Byte)
  | [] => some []
  | path :: paths =>
    (s.fsStat fs fuel (some path) true).bind fun r =>
      (listing s paths).map fun rest => (if r.1 = 0 then path ++ [10] else []) ++ rest

/-- The result of a command, the builtins that ran, the text it leaves in the output buffer, if it
stores anything there, and the state. -/
structure Effect (T R : Type) where
  ret : ℤ
  ran : List (Builtin × List (List Byte))
  text : Option (List Byte)
  vfs : Vfs T R

def catEffect (cap : ℕ) (words : List (List Byte)) (input : List Byte) (s : Vfs T R) :
    Option (Effect T R) :=
  match words.tail with
  | [] => (readString input (cap - 1)).map fun t => ⟨0, [(.cat, words)], some (t.take (cap - 1)), s⟩
  | path :: _ =>
    (s.fsOpen fs fuel (some path) nmORdonly).bind fun r =>
      if r.1 < 0 then some ⟨-1, [(.cat, words)], none, r.2⟩
      else
        (fileText fs r.1 fuel r.2).map fun q =>
          ⟨0, [(.cat, words)], some (q.1.take (cap - 1)), (q.2.fsClose r.1).2⟩

def effect (cap : ℕ) (words : List (List Byte)) (input : List Byte) (s : Vfs T R) :
    Option (Effect T R) :=
  if words = [] ∨ 16 < words.length then some ⟨0, [], some [], s⟩
  else if words.head? = some echoName then
    some ⟨0, [(.echo, words)], some ((echoText words.tail).take (cap - 1)), s⟩
  else if words.head? = some catName then catEffect fs fuel cap words input s
  else if words.head? = some lsName then
    (listing fs fuel s candidates).map fun t =>
      ⟨0, [(.ls, words)], if t = [] then none else some (t.take (cap - 1)), s⟩
  else some ⟨-1, [], none, s⟩

/-- The ways in which a command returns. -/
inductive Ran (cap : ℕ) (words : List (List Byte)) (input : List Byte) (s : Vfs T R) :
    Effect T R → Prop
  | skipped (h : words = [] ∨ 16 < words.length) : Ran cap words input s ⟨0, [], some [], s⟩
  | echo (few : words.length ≤ 16) (name : words.head? = some echoName) : Ran cap words input s
      ⟨0, [(.echo, words)], some ((echoText words.tail).take (cap - 1)), s⟩
  | catInput {t : List Byte} (name : words = [catName])
      (hread : readString input (cap - 1) = some t) : Ran cap words input s
      ⟨0, [(.cat, words)], some (t.take (cap - 1)), s⟩
  | catMissing {path : List Byte} {rest : List (List Byte)} {fd : ℤ} {s₁ : Vfs T R}
      (few : words.length ≤ 16) (name : words = catName :: path :: rest)
      (hopen : s.fsOpen fs fuel (some path) nmORdonly = some (fd, s₁)) (hfd : fd < 0) :
      Ran cap words input s ⟨-1, [(.cat, words)], none, s₁⟩
  | catFile {path : List Byte} {rest : List (List Byte)} {fd : ℤ} {s₁ s₂ : Vfs T R} {t : List Byte}
      (few : words.length ≤ 16) (name : words = catName :: path :: rest)
      (hopen : s.fsOpen fs fuel (some path) nmORdonly = some (fd, s₁)) (hfd : 0 ≤ fd)
      (htext : fileText fs fd fuel s₁ = some (t, s₂)) : Ran cap words input s
      ⟨0, [(.cat, words)], some (t.take (cap - 1)), (s₂.fsClose fd).2⟩
  | ls {t : List Byte} (few : words.length ≤ 16) (name : words.head? = some lsName)
      (hlist : listing fs fuel s candidates = some t) : Ran cap words input s
      ⟨0, [(.ls, words)], if t = [] then none else some (t.take (cap - 1)), s⟩
  | unknown (few : words.length ≤ 16) (hne : words ≠ [])
      (hnot : ∀ name ∈ [echoName, catName, lsName], words.head? ≠ some name) :
      Ran cap words input s ⟨-1, [], none, s⟩

theorem ran_of_effect {cap : ℕ} {words : List (List Byte)} {input : List Byte} {s : Vfs T R}
    {e : Effect T R} (h : effect fs fuel cap words input s = some e) :
    Ran fs fuel cap words input s e := by
  unfold effect at h
  split at h
  · rename_i hskip
    cases h
    exact .skipped hskip
  · rename_i hskip
    obtain ⟨hne, hmany⟩ := not_or.mp hskip
    have few : words.length ≤ 16 := by omega
    split at h
    · rename_i hecho
      cases h
      exact .echo few hecho
    · rename_i hecho
      split at h
      · rename_i hcat
        obtain ⟨name, rest, rfl⟩ := exists_cons_of_ne_nil hne
        obtain rfl : name = catName := by simpa using hcat
        unfold catEffect at h
        cases rest with
        | nil =>
          obtain ⟨t, hread, rfl⟩ := map_eq_some_iff.mp h
          exact .catInput rfl hread
        | cons path rest =>
          obtain ⟨⟨fd, s₁⟩, hopen, h⟩ := bind_eq_some_iff.mp h
          dsimp only at h
          split at h
          · rename_i hfd
            cases h
            exact .catMissing few rfl hopen hfd
          · rename_i hfd
            obtain ⟨⟨t, s₂⟩, htext, rfl⟩ := map_eq_some_iff.mp h
            exact .catFile few rfl hopen (Int.not_lt.mp hfd) htext
      · rename_i hcat
        split at h
        · rename_i hls
          obtain ⟨t, hlist, rfl⟩ := map_eq_some_iff.mp h
          exact .ls few hls hlist
        · rename_i hls
          cases h
          exact .unknown few hne (by simp [hecho, hcat, hls])

/-- The buffer after a command, beside what the command does. -/
structure Does (out : List Byte) (e : Effect T R) (r : Done T R) : Prop where
  ret : r.ret = e.ret
  ran : r.ran = e.ran
  written : r.written = none
  vfs : r.vfs = e.vfs
  size : r.out.length = out.length
  text : match e.text with
    | some t => Shows t r.out
    | none => r.out = out

variable {fs fuel} {cap used : ℕ} {t out : List Byte}

theorem fsRead_delivers (hfs : Lawful fs) (fd : ℤ) (buf : Bool) (len : ℕ) (s : Vfs T R) :
    (s.fsRead fs fd buf len).1.1 ≤ (s.fsRead fs fd buf len).1.2.length := by
  unfold Vfs.fsRead
  split
  · exact hfs.delivers _ _ _ _
  · exact (by decide : nmErr nmEfail ≤ 0)

theorem Filled.catLoop (hfs : Lawful fs) (h : Filled cap t used out) (fd : ℤ) (fuel : ℕ)
    (buf : List Byte) (s : Vfs T R) :
    Rel (fun p q => q.2.2 = p.2 ∧ Filled cap (t ++ p.1) q.1 q.2.1) (fileText fs fd fuel s)
      (catLoop fs fd fuel buf used out s) := by
  induction fuel generalizing t used out buf s with
  | zero => exact .none
  | succ fuel ih =>
    have hread := fsRead_delivers hfs fd true 128 s
    rw [fileText, Shell.catLoop]
    generalize s.fsRead fs fd true 128 = r at hread ⊢
    obtain ⟨⟨n, bytes⟩, s'⟩ := r
    dsimp only at hread ⊢
    split
    · have hn : n.toNat ≤ bytes.length := by omega
      obtain ⟨used', out', hcopy, hfilled⟩ := h.copyOut
        (show n.toNat ≤ (bytes ++ buf.drop bytes.length).length by simp; omega)
      simp only [hcopy, bind_eq_bind, bind_some]
      rw [take_append_of_le_length hn] at hfilled
      refine rel_map_left (ih hfilled _ s') fun p q hpq => ⟨hpq.1, ?_⟩
      rw [← append_assoc]
      exact hpq.2
    · exact .some ⟨rfl, by simpa using h⟩

theorem Filled.lsLoop (h : Filled cap t used out) (hcap : 0 < cap) (s : Vfs T R)
    {paths : List (List Byte)} (hpaths : ∀ path ∈ paths, 0 ∉ path) :
    Rel (fun listed out' => out'.length = cap ∧
        if listed = [] then out' = out else Shows ((t ++ listed).take (cap - 1)) out')
      (listing fs fuel s paths) (lsLoop fs fuel s paths used out) := by
  induction paths generalizing t used out with
  | nil => exact .some ⟨h.size, rfl⟩
  | cons path paths ih =>
    rw [listing, Shell.lsLoop]
    have hrest : ∀ path ∈ paths, 0 ∉ path := fun p hp => hpaths p (mem_cons_of_mem _ hp)
    cases s.fsStat fs fuel (some path) true with
    | none => exact .none
    | some r =>
      obtain ⟨ret, st⟩ := r
      simp only [bind_eq_bind, bind_some]
      split
      · obtain ⟨used₁, out₁, happend, hfilled, -⟩ := h.outAppend hcap (hpaths path mem_cons_self) []
        obtain ⟨used₂, out₂, hline, hnext, hshows⟩ :=
          hfilled.outAppend hcap (w := [10]) (by decide) []
        rw [happend]
        change Rel _ _ ((Shell.outAppend ([10] ++ 0 :: []) used₁ out₁).bind _)
        rw [hline]
        refine rel_map_left (ih hnext hrest) fun listed out' hdone => ⟨hdone.1, ?_⟩
        rw [if_neg (by simp)]
        obtain ⟨-, htext⟩ := hdone
        split at htext
        · rename_i hnil
          rw [htext, hnil]
          simpa using hshows
        · simpa using htext
      · refine rel_map_left (ih h hrest) fun listed out' hdone => ?_
        simpa using hdone

theorem cmdCat_does (hfs : Lawful fs) {words argv : List (List Byte)}
    (hargv : Forall₂ Shows words argv) (hwords : ∀ w ∈ words, 0 ∉ w) (hne : words ≠ [])
    (buf : List Byte) (hcap : 0 < out.length) {input : Option (List Byte)} {input' : List Byte}
    (hinput : ∀ n, readString (input.getD [0]) n = readString input' n) (s : Vfs T R) :
    Rel (Does out) (catEffect fs fuel out.length words input' s)
      ((cmdCat fs fuel argv buf out input s).map fun r =>
        ⟨r.1, [(.cat, words)], none, r.2.1, r.2.2⟩) := by
  cases hargv with
  | nil => exact absurd rfl hne
  | @cons name row words argv hname hargs =>
    cases hargs with
    | nil =>
      have happend := (filled_nil out).outAppend_buffer hcap (input.getD [0])
      rw [hinput] at happend
      simp only [catEffect, cmdCat, tail_cons, Option.map_map]
      exact rel_map happend fun w q hq => ⟨rfl, rfl, rfl, rfl, hq.1.size, hq.2⟩
    | @cons path row' words argv hpath hargs =>
      have hrow : cString row' = path := by
        rw [hpath.cString_eq, cString_eq_self (hwords path (by simp))]
      simp only [catEffect, cmdCat, tail_cons, hrow]
      cases s.fsOpen fs fuel (some path) nmORdonly with
      | none => exact .none
      | some r =>
        obtain ⟨fd, s'⟩ := r
        simp only [bind_eq_bind, bind_some]
        split
        · exact .some ⟨rfl, rfl, rfl, rfl, rfl, rfl⟩
        · have hloop := (filled_nil out).catLoop hfs fd fuel buf s'
          generalize fileText fs fd fuel s' = x at hloop ⊢
          generalize catLoop fs fd fuel buf 0 out s' = y at hloop ⊢
          cases hloop with
          | none => exact .none
          | @some p q hpq =>
            obtain ⟨used, out₁, s₁⟩ := q
            obtain ⟨hstate, hfilled⟩ := hpq
            obtain ⟨out', hstore, hdone, hshows⟩ := hfilled.terminate hcap
            simp only [bind_some, if_pos (hfilled.used_lt hcap), hstore, map_some]
            exact .some ⟨rfl, rfl, rfl, by rw [← hstate], hdone.size, by simpa using hshows⟩

theorem cmdLs_does (hcap : 0 < out.length) (words : List (List Byte)) (s : Vfs T R) :
    Rel (Does out)
      ((listing fs fuel s candidates).map fun t =>
        ⟨0, [(.ls, words)], if t = [] then none else some (t.take (out.length - 1)), s⟩)
      ((cmdLs fs fuel out s).map fun r => ⟨r.1, [(.ls, words)], none, r.2, s⟩) := by
  have hloop : Rel _ (listing fs fuel s candidates) _ :=
    (filled_nil out).lsLoop hcap s (by decide)
  rw [cmdLs, Option.map_map]
  refine rel_map hloop fun listed out' hdone => ⟨rfl, rfl, rfl, rfl, hdone.1, ?_⟩
  obtain ⟨-, htext⟩ := hdone
  dsimp only
  split at htext
  · rename_i hnil
    simpa [hnil] using htext
  · rename_i hne
    simpa [hne] using htext

theorem map_cString_of_shows {words argv : List (List Byte)} (h : Forall₂ Shows words argv)
    (hwords : ∀ w ∈ words, 0 ∉ w) : argv.map cString = words := by
  induction h with
  | nil => rfl
  | @cons w row words argv hrow _ ih =>
    rw [map_cons, hrow.cString_eq, cString_eq_self (hwords w mem_cons_self),
      ih fun v hv => hwords v (mem_cons_of_mem w hv)]

theorem strEq_name {words argv : List (List Byte)} (h : Forall₂ Shows words argv)
    (hwords : ∀ w ∈ words, 0 ∉ w) (hne : words ≠ []) {name : List Byte} (hname : 0 ∉ name) :
    strEq (argv.headD []) (name ++ [0]) = some (decide (words.head? = some name)) := by
  cases h with
  | nil => exact absurd rfl hne
  | @cons w row words argv hrow _ =>
    have hw := hwords w mem_cons_self
    obtain ⟨rest, hrest⟩ := hrow.exists_rest
    rw [cString_eq_self hw] at hrest
    simp only [headD_cons, head?_cons, some_inj, hrest]
    exact strEq_append hw hname rest []

/-- A command does what its words say, whatever the uninitialised buffers hold. -/
theorem runSimple_does (hfs : Lawful fs) {text : List Byte} (htext : 0 ∉ text) (rest : List Byte)
    (frame : Frame) (hcap : 0 < out.length) (input : Option (List Byte)) {input' : List Byte}
    (hinput : ∀ n, readString (input.getD [0]) n = readString input' n) (s : Vfs T R) :
    Rel (Does out) (effect fs fuel out.length (cutWords text) input' s)
      (runSimple fs fuel (text ++ 0 :: rest) frame out input s) := by
  obtain ⟨table, hsplit, hrows⟩ := splitTokens_spec htext rest frame.width
  rw [frame.rows] at hsplit hrows
  have hlen : (fields isBlank text).length = (cutWords text).length := by simp [cutWords]
  have hwords : ∀ w ∈ cutWords text, 0 ∉ w := fun w => notMem_of_mem_cutWords htext
  rw [hlen] at hsplit hrows
  generalize cutWords text = words at *
  unfold effect runSimple
  simp only [hsplit, bind_eq_bind, bind_some]
  by_cases hskip : words = [] ∨ 16 < words.length
  · have hnone : (if words.length ≤ 16 then (words.length : ℤ) else -1) ≤ 0 := by
      rcases hskip with rfl | hmany
      · decide
      · rw [if_neg (by omega)]
        decide
    obtain ⟨out', hstore, hfilled, hshows⟩ := (filled_nil out).terminate hcap
    rw [if_pos hskip, if_pos hnone, hstore]
    exact .some ⟨rfl, rfl, rfl, rfl, hfilled.size, by simpa using hshows⟩
  · obtain ⟨hne, hfew⟩ := not_or.mp hskip
    have hpos : 0 < words.length := length_pos_of_ne_nil hne
    have hargv := hrows (by omega)
    have hargc : (if words.length ≤ 16 then (words.length : ℤ) else -1) = words.length :=
      if_pos (by omega)
    rw [if_neg hskip, hargc, if_neg (show ¬ (words.length : ℤ) ≤ 0 by omega)]
    simp only [Int.toNat_natCast, map_cString_of_shows hargv hwords]
    rw [strEq_name hargv hwords hne (show 0 ∉ echoName by decide),
      strEq_name hargv hwords hne (show 0 ∉ catName by decide),
      strEq_name hargv hwords hne (show 0 ∉ lsName by decide)]
    simp only [bind_some, decide_eq_true_eq]
    split
    · obtain ⟨out', hecho, hsize, hshows⟩ := cmdEcho_shows out hcap hargv hwords
      rw [hecho]
      exact .some ⟨rfl, rfl, rfl, rfl, hsize, hshows⟩
    · split
      · exact cmdCat_does hfs hargv hwords hne frame.buf hcap hinput s
      · split
        · exact cmdLs_does hcap words s
        · exact .some ⟨rfl, rfl, rfl, rfl, rfl, rfl⟩

end NeverMind.Shell
