import Mathlib.Data.List.Basic

/-!
# Runs of a step function

A run folds a step function over a list of inputs. `Guarded` says that every step of the run
meets a condition on the state before it; invariants and equivalences of conditions are proved
for one step and lifted to runs here.
-/

namespace Transition

variable {σ ι : Type} (step : σ → ι → σ)

def run (s : σ) (inputs : List ι) : σ := inputs.foldl step s

@[simp] theorem run_nil (s : σ) : run step s [] = s := rfl

@[simp] theorem run_cons (s : σ) (i : ι) (is : List ι) :
    run step s (i::is) = run step (step s i) is := rfl

/-- Every input of the run meets the condition in the state it finds. -/
def Guarded (ok : σ → ι → Prop) : σ → List ι → Prop
  | _, [] => True
  | s, i::is => ok s i ∧ Guarded ok (step s i) is

instance Guarded.decidable (ok : σ → ι → Prop) [∀ s i, Decidable (ok s i)] (s : σ)
    (is : List ι) : Decidable (Guarded step ok s is) :=
  match is with
  | [] => isTrue trivial
  | i::is => @instDecidableAnd _ _ _ (Guarded.decidable ok (step s i) is)

variable {step} {ok ok' : σ → ι → Prop} {P : σ → Prop}

theorem guarded_append (s : σ) (is js : List ι) :
    Guarded step ok s (is ++ js) ↔ Guarded step ok s is ∧ Guarded step ok (run step s is) js := by
  induction is generalizing s with
  | nil => simp [Guarded]
  | cons i is ih => simp only [List.cons_append,Guarded,ih,run_cons,and_assoc]

theorem run_invariant (hstep : ∀ s i, P s → P (step s i)) {s : σ} (hs : P s) (is : List ι) :
    P (run step s is) := by
  induction is generalizing s with
  | nil => exact hs
  | cons i is ih => exact ih (hstep s i hs)

/-- An invariant preserved by the steps that meet the condition holds after the run. -/
theorem Guarded.invariant (hstep : ∀ s i, P s → ok s i → P (step s i)) {s : σ} {is : List ι}
    (hs : P s) (h : Guarded step ok s is) : P (run step s is) := by
  induction is generalizing s with
  | nil => exact hs
  | cons i is ih => exact ih (hstep s i hs h.1) h.2

theorem Guarded.at {s : σ} {pre post : List ι} {i : ι}
    (h : Guarded step ok s (pre ++ i::post)) :
    Guarded step ok s pre ∧ ok (run step s pre) i := by
  rw [guarded_append] at h
  exact ⟨h.1,h.2.1⟩

theorem Guarded.mono (hstep : ∀ s i, P s → ok s i → P (step s i))
    (himp : ∀ s i, P s → ok s i → ok' s i) {s : σ} {is : List ι} (hs : P s)
    (h : Guarded step ok s is) : Guarded step ok' s is := by
  induction is generalizing s with
  | nil => exact h
  | cons i is ih => exact ⟨himp s i hs h.1,ih (hstep s i hs h.1) h.2⟩

/-- Two systems related by a simulation, whose conditions agree on related states, have the
same guarded runs. -/
theorem guarded_iff_of_simulation {τ : Type} {step' : τ → ι → τ} {okT : τ → ι → Prop}
    {R : σ → τ → Prop} (hok : ∀ s t i, R s t → (ok s i ↔ okT t i))
    (hstep : ∀ s t i, R s t → okT t i → R (step s i) (step' t i)) {s : σ} {t : τ} (h : R s t)
    (is : List ι) : Guarded step ok s is ↔ Guarded step' okT t is := by
  induction is generalizing s t with
  | nil => rfl
  | cons i is ih =>
    simp only [Guarded,hok s t i h]
    constructor
    · rintro ⟨hi,hrest⟩
      exact ⟨hi,(ih (hstep s t i h hi)).mp hrest⟩
    · rintro ⟨hi,hrest⟩
      exact ⟨hi,(ih (hstep s t i h hi)).mpr hrest⟩

end Transition
