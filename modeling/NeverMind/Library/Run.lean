import Mathlib.Data.List.Basic

/-! # Runs of a machine

A machine is a total step function; a run is a list of calls. The rules here lead from what
one step does to what holds along a run. -/

namespace NeverMind

variable {κ σ : Type*} (step : κ → σ → σ)

/-- The state after a run. -/
def runCalls (calls : List κ) (s : σ) : σ := calls.foldl (fun s c => step c s) s

/-- `Q` holds of every step of a run, in the state in which it is made. -/
def EachStep (Q : κ → σ → Prop) : List κ → σ → Prop
  | [], _ => True
  | c :: cs, s => Q c s ∧ EachStep Q cs (step c s)

/-- `P` holds at the start of a run and in every state it reaches. -/
def Throughout (P : σ → Prop) : List κ → σ → Prop
  | [], s => P s
  | c :: cs, s => P s ∧ Throughout P cs (step c s)

instance EachStep.decidable {Q : κ → σ → Prop} [∀ c s, Decidable (Q c s)] :
    ∀ (calls : List κ) (s : σ), Decidable (EachStep step Q calls s)
  | [], _ => inferInstanceAs (Decidable True)
  | c :: cs, s =>
    have := EachStep.decidable (Q := Q) cs (step c s)
    inferInstanceAs (Decidable (Q c s ∧ EachStep step Q cs (step c s)))

variable {step} {calls : List κ} {s : σ} {P I : σ → Prop} {Q R : κ → σ → Prop}

@[simp] theorem runCalls_nil (s : σ) : runCalls step [] s = s := rfl

@[simp] theorem runCalls_cons (c : κ) (cs : List κ) (s : σ) :
    runCalls step (c :: cs) s = runCalls step cs (step c s) :=
  rfl

theorem runCalls_append (before after : List κ) (s : σ) :
    runCalls step (before ++ after) s = runCalls step after (runCalls step before s) :=
  List.foldl_append

theorem eachStep_append (before after : List κ) (s : σ) :
    EachStep step Q (before ++ after) s ↔
      EachStep step Q before s ∧ EachStep step Q after (runCalls step before s) := by
  induction before generalizing s with
  | nil => exact ⟨fun h => ⟨trivial, h⟩, fun h => h.2⟩
  | cons c cs ih =>
    rw [List.cons_append, EachStep, EachStep, ih, runCalls_cons]
    exact and_assoc.symm

theorem eachStep_true (calls : List κ) (s : σ) : EachStep step (fun _ _ => True) calls s := by
  induction calls generalizing s with
  | nil => trivial
  | cons c cs ih => exact ⟨trivial, ih (step c s)⟩

theorem eachStep_of_forall {Q : κ → Prop} (h : ∀ c ∈ calls, Q c) :
    EachStep step (fun c _ => Q c) calls s := by
  induction calls generalizing s with
  | nil => trivial
  | cons c cs ih =>
    exact ⟨h c List.mem_cons_self, ih fun c' hc' => h c' (List.mem_cons_of_mem c hc')⟩

theorem EachStep.and (h : EachStep step Q calls s) (h' : EachStep step R calls s) :
    EachStep step (fun c s => Q c s ∧ R c s) calls s := by
  induction calls generalizing s with
  | nil => trivial
  | cons c cs ih => exact ⟨⟨h.1, h'.1⟩, ih h.2 h'.2⟩

/-- An invariant of the steps that are made holds at the end of the run. -/
theorem EachStep.run (h : EachStep step Q calls s)
    (hstep : ∀ c s, Q c s → I s → I (step c s)) (hs : I s) : I (runCalls step calls s) := by
  induction calls generalizing s with
  | nil => exact hs
  | cons c cs ih => exact ih h.2 (hstep c s h.1 hs)

/-- Such an invariant holds in every state of the run. -/
theorem EachStep.throughout (h : EachStep step Q calls s)
    (hstep : ∀ c s, Q c s → I s → I (step c s)) (hs : I s) : Throughout step I calls s := by
  induction calls generalizing s with
  | nil => exact hs
  | cons c cs ih => exact ⟨hs, ih h.2 (hstep c s h.1 hs)⟩

/-- What an invariant gives for a step holds of every step of the run. -/
theorem EachStep.eachStep (h : EachStep step Q calls s) (hstep : ∀ c s, Q c s → I s → I (step c s))
    (hR : ∀ c s, Q c s → I s → R c s) (hs : I s) : EachStep step R calls s := by
  induction calls generalizing s with
  | nil => trivial
  | cons c cs ih => exact ⟨hR c s h.1 hs, ih h.2 (hstep c s h.1 hs)⟩

theorem Throughout.imp (h : Throughout step I calls s) (himp : ∀ s, I s → P s) :
    Throughout step P calls s := by
  induction calls generalizing s with
  | nil => exact himp s h
  | cons c cs ih => exact ⟨himp s h.1, ih h.2⟩

/-- A condition on the steps that reads only a part of the state. -/
theorem eachStep_map {κ σ τ : Type*} {step : κ → σ → σ} {step' : κ → τ → τ} {f : σ → τ}
    {R : κ → τ → Prop} (hf : ∀ c s, f (step c s) = step' c (f s)) (calls : List κ) (s : σ) :
    EachStep step (fun c s => R c (f s)) calls s ↔ EachStep step' R calls (f s) := by
  induction calls generalizing s with
  | nil => rfl
  | cons c cs ih => rw [EachStep, EachStep, ih, hf]

/-- A quantity that never falls and ends below a bound stayed below it all along. -/
theorem eachStep_of_run_lt {f : σ → ℕ} {bound : ℕ} (hmono : ∀ c s, f s ≤ f (step c s))
    (hlast : f (runCalls step calls s) < bound) :
    EachStep step (fun c s => f (step c s) < bound) calls s := by
  have hle : ∀ (cs : List κ) (s : σ), f s ≤ f (runCalls step cs s) := by
    intro cs
    induction cs with
    | nil => exact fun s => Nat.le_refl (f s)
    | cons c cs ih => exact fun s => Nat.le_trans (hmono c s) (ih (step c s))
  induction calls generalizing s with
  | nil => trivial
  | cons c cs ih =>
    rw [runCalls_cons] at hlast
    exact ⟨Nat.lt_of_le_of_lt (hle cs (step c s)) hlast, ih hlast⟩

/-- Where a step keeps `P` exactly if `R` holds of it, `P` holds along the runs all of whose
steps satisfy `R`, and along no others. -/
theorem throughout_iff_eachStep (h : EachStep step Q calls s)
    (hI : ∀ c s, Q c s → I s → I (step c s))
    (hP : ∀ c s, Q c s → I s → P s → (P (step c s) ↔ R c s)) (hs : I s) (hPs : P s) :
    Throughout step P calls s ↔ EachStep step R calls s := by
  induction calls generalizing s with
  | nil => exact ⟨fun _ => trivial, fun _ => hPs⟩
  | cons c cs ih =>
    have hiff := hP c s h.1 hs hPs
    have htail : P (step c s) → (Throughout step P cs (step c s) ↔
        EachStep step R cs (step c s)) := ih h.2 (hI c s h.1 hs)
    constructor
    · intro hall
      have hnext : P (step c s) := by
        cases cs with
        | nil => exact hall.2
        | cons c' cs => exact hall.2.1
      exact ⟨hiff.mp hnext, (htail hnext).mp hall.2⟩
    · intro hall
      exact ⟨hPs, (htail (hiff.mpr hall.1)).mpr hall.2⟩

end NeverMind
