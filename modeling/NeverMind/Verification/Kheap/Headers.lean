import NeverMind.Library.Chain
import NeverMind.Model.Kheap

/-! # Headers in memory

What the writes of the heap change of the headers, and what the search of the free list
returns. -/

namespace NeverMind.Kheap

variable {s : Kheap} {h h' v : ℕ}

def ptr (a : ℕ) : Option ℕ := if a = 0 then none else some a

def link (s : Kheap) (h : ℕ) : Option ℕ := ptr (s.next h)

theorem link_eq (s : Kheap) (h : ℕ) : s.link h = ptr (s.next h) := rfl

def Separate (h h' : ℕ) : Prop := h + 16 ≤ h' ∨ h' + 16 ≤ h

theorem Separate.symm (hsep : Separate h h') : Separate h' h := Or.symm hsep

/-- The header is the same in two states. -/
structure SameHeader (s s' : Kheap) (h : ℕ) : Prop where
  magic : s'.magic h = s.magic h
  size : s'.size h = s.size h
  next : s'.next h = s.next h

variable {s' : Kheap}

theorem SameHeader.trans {s'' : Kheap} (h₁ : SameHeader s s' h) (h₂ : SameHeader s' s'' h) :
    SameHeader s s'' h :=
  ⟨h₂.magic.trans h₁.magic, h₂.size.trans h₁.size, h₂.next.trans h₁.next⟩

theorem SameHeader.of_mem (hmem : ∀ x, h ≤ x → x < h + 16 → s'.mem x = s.mem x) :
    SameHeader s s' h where
  magic := loadWord_congr fun x hlow hhigh => hmem x (by omega) (by omega)
  size := loadWord_congr fun x hlow hhigh => hmem x (by omega) (by omega)
  next := loadWord_congr fun x hlow hhigh => hmem x (by omega) (by omega)

theorem SameHeader.of_mem_eq (hmem : s'.mem = s.mem) (h : ℕ) : SameHeader s s' h :=
  .of_mem fun _ _ _ => by rw [hmem]

theorem mem_storeWord_of_outside {k a x : ℕ} (hout : x < a ∨ a + k ≤ x) (v : ℕ)
    (mem : ℕ → BitVec 8) : storeWord k a v mem x = mem x := by
  rw [storeWord, if_neg (by omega)]

theorem SameHeader.setMagic (hsep : Separate h h') (v : ℕ) (s : Kheap) :
    SameHeader s (s.setMagic h v) h' := by
  apply SameHeader.of_mem
  intro x hlow hhigh
  exact mem_storeWord_of_outside (by rcases hsep with hle | hle <;> omega) v s.mem

theorem SameHeader.setSize (hsep : Separate h h') (v : ℕ) (s : Kheap) :
    SameHeader s (s.setSize h v) h' := by
  apply SameHeader.of_mem
  intro x hlow hhigh
  exact mem_storeWord_of_outside (by rcases hsep with hle | hle <;> omega) v s.mem

theorem SameHeader.setNext (hsep : Separate h h') (v : ℕ) (s : Kheap) :
    SameHeader s (s.setNext h v) h' := by
  apply SameHeader.of_mem
  intro x hlow hhigh
  exact mem_storeWord_of_outside (by rcases hsep with hle | hle <;> omega) v s.mem

/-! ## The fields of one header -/

theorem setLink_some (h v : ℕ) (s : Kheap) : s.setLink (some h) v = s.setNext h v := rfl

theorem setLink_none (v : ℕ) (s : Kheap) : s.setLink none v = { s with freeList := v } := rfl

@[simp] theorem pmm_setNext (h v : ℕ) (s : Kheap) : (s.setNext h v).pmm = s.pmm := rfl

@[simp] theorem pmm_setLink (prev : Option ℕ) (v : ℕ) (s : Kheap) :
    (s.setLink prev v).pmm = s.pmm := by
  cases prev with
  | none => rfl
  | some h => rfl

@[simp] theorem magic_setMagic (h v : ℕ) (s : Kheap) : (s.setMagic h v).magic h = v % 256 ^ 4 :=
  loadWord_storeWord_self 4 h v s.mem

@[simp] theorem size_setSize (h v : ℕ) (s : Kheap) : (s.setSize h v).size h = v % 256 ^ 4 :=
  loadWord_storeWord_self 4 (h + 4) v s.mem

@[simp] theorem next_setNext (h v : ℕ) (s : Kheap) : (s.setNext h v).next h = v % 256 ^ 8 :=
  loadWord_storeWord_self 8 (h + 8) v s.mem

@[simp] theorem magic_setSize (h v : ℕ) (s : Kheap) : (s.setSize h v).magic h = s.magic h :=
  loadWord_storeWord_of_disjoint (by omega) v s.mem

@[simp] theorem magic_setNext (h v : ℕ) (s : Kheap) : (s.setNext h v).magic h = s.magic h :=
  loadWord_storeWord_of_disjoint (by omega) v s.mem

@[simp] theorem size_setNext (h v : ℕ) (s : Kheap) : (s.setNext h v).size h = s.size h :=
  loadWord_storeWord_of_disjoint (by omega) v s.mem

theorem ptr_of_ne {a : ℕ} (ha : a ≠ 0) : ptr a = some a := if_neg ha

theorem ptr_eq_some {a b : ℕ} (hab : ptr a = some b) : a = b ∧ a ≠ 0 := by
  unfold ptr at hab
  split at hab
  · cases hab
  · exact ⟨Option.some.inj hab, ‹_›⟩

theorem ptr_eq_none {a : ℕ} (ha : ptr a = none) : a = 0 := by
  unfold ptr at ha
  split at ha
  · assumption
  · cases ha

theorem link_setNext (h : ℕ) {v : ℕ} (hv : v < 2 ^ 64) (s : Kheap) :
    (s.setNext h v).link h = ptr v := by
  rw [link, next_setNext, Nat.mod_eq_of_lt (by norm_num at hv ⊢; exact hv)]

theorem SameHeader.link (hsame : SameHeader s s' h) : s'.link h = s.link h := by
  rw [Kheap.link, Kheap.link, hsame.next]

theorem next_lt (s : Kheap) (h : ℕ) : s.next h < 2 ^ 64 := by
  have hlt := loadWord_lt 8 (h + 8) s.mem
  norm_num at hlt ⊢
  exact hlt

/-! ## The search of the free list -/

/-- What the search returns on a list of headers. -/
inductive Scanned (s : Kheap) (wanted : ℕ) (prev : Option ℕ) (l : List ℕ) :
    Option (Option ℕ × ℕ) → Prop where
  | absent (hsmall : ∀ h ∈ l, s.size h < wanted) : Scanned s wanted prev l none
  | head {h : ℕ} {back : List ℕ} (hl : l = h :: back) (hsize : wanted ≤ s.size h) :
      Scanned s wanted prev l (some (prev, h))
  | after (front back : List ℕ) (a h : ℕ) (hl : l = front ++ a :: h :: back)
      (hsize : wanted ≤ s.size h) : Scanned s wanted prev l (some (some a, h))

theorem scan_spec (wanted : ℕ) {fuel : ℕ} (prev : Option ℕ) {cur : ℕ} {l : List ℕ}
    (hchain : Chain s.link (ptr cur) l) (hfuel : l.length < fuel) :
    ∃ r, s.scan wanted fuel prev cur = some r ∧ Scanned s wanted prev l r := by
  induction l generalizing fuel prev cur with
  | nil =>
    cases fuel with
    | zero => omega
    | succ fuel =>
      have hcur : cur = 0 := ptr_eq_none (Chain.nil_iff.mp hchain)
      exact ⟨none, by rw [scan, if_pos hcur], .absent (by simp)⟩
  | cons h l ih =>
    cases fuel with
    | zero => simp at hfuel
    | succ fuel =>
      obtain ⟨hhead, hrest⟩ := Chain.cons_iff.mp hchain
      obtain ⟨rfl, hcur⟩ := ptr_eq_some hhead
      by_cases hsize : wanted ≤ s.size cur
      · exact ⟨_, by rw [scan, if_neg hcur, if_pos hsize], .head rfl hsize⟩
      · rw [link_eq] at hrest
        have hlength : l.length < fuel := by simpa using hfuel
        obtain ⟨r, hr, hspec⟩ := ih (some cur) hrest hlength
        refine ⟨r, by rw [scan, if_neg hcur, if_neg hsize, hr], ?_⟩
        cases hspec with
        | absent hsmall => exact .absent (List.forall_mem_cons.mpr ⟨Nat.lt_of_not_le hsize, hsmall⟩)
        | @head h back hl hsize' => exact .after [] back cur h (congrArg (cur :: ·) hl) hsize'
        | after front back a h hl hsize' =>
          exact .after (cur :: front) back a h (congrArg (cur :: ·) hl) hsize'

theorem scan_mono {wanted fuel more : ℕ} {prev : Option ℕ} {cur : ℕ}
    {r : Option (Option ℕ × ℕ)} (hr : s.scan wanted fuel prev cur = some r) (hle : fuel ≤ more) :
    s.scan wanted more prev cur = some r := by
  induction fuel generalizing more prev cur with
  | zero => cases hr
  | succ fuel ih =>
    obtain ⟨more, rfl⟩ : ∃ m, more = m + 1 := ⟨more - 1, by omega⟩
    rw [scan] at hr ⊢
    split at hr
    · rename_i hcur
      rw [if_pos hcur]
      exact hr
    · rename_i hcur
      rw [if_neg hcur]
      split at hr
      · rename_i hsize
        rw [if_pos hsize]
        exact hr
      · rename_i hsize
        rw [if_neg hsize]
        exact ih hr (by omega)

end NeverMind.Kheap
