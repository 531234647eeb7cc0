import Mathlib.Data.List.Basic
import Mathlib.Logic.Function.Basic

/-!
What a machine answers to a list of operations, and when a specification allows these answers. A machine is a
step function that gives an answer and the next state; a specification says which answers and which next states
are allowed. Machines can be put side by side, with an index in the operation for the one that takes the step.
-/

namespace Traces
variable {σ τ Op Out : Type*}

/-- The answers, and the state in the end. -/
def run (step : σ → Op → Out × σ) : σ → List Op → List Out × σ
  | s, [] => ([], s)
  | s, op :: ops => ((step s op).1 :: (run step (step s op).2 ops).1, (run step (step s op).2 ops).2)

/-- Each operation meets a precondition in the state it is made in. -/
def Legal (step : σ → Op → Out × σ) (legal : σ → Op → Prop) : σ → List Op → Prop
  | _, [] => True
  | s, op :: ops => legal s op ∧ Legal step legal (step s op).2 ops

/-- The specification can give these answers. -/
def Allows (spec : τ → Op → Out → τ → Prop) : τ → List Op → List Out → Prop
  | _, [], [] => True
  | t, op :: ops, out :: outs => ∃ t', spec t op out t' ∧ Allows spec t' ops outs
  | _, _, _ => False

/-- `R` relates the states of a machine and of its specification as long as the operations are legal. -/
def Simulates (step : σ → Op → Out × σ) (legal : σ → Op → Prop) (spec : τ → Op → Out → τ → Prop)
    (R : σ → τ → Prop) : Prop :=
  ∀ s t op, R s t → legal s op → ∃ t', spec t op (step s op).1 t' ∧ R (step s op).2 t'

variable {step : σ → Op → Out × σ} {legal : σ → Op → Prop} {spec : τ → Op → Out → τ → Prop} {R : σ → τ → Prop}
  {s : σ} {t : τ}

theorem Simulates.allows (h : Simulates step legal spec R) {ops : List Op} (hR : R s t)
    (hlegal : Legal step legal s ops) : Allows spec t ops (run step s ops).1 := by
  induction ops generalizing s t with
  | nil => trivial
  | cons op ops ih =>
      obtain ⟨t', hspec, hR'⟩ := h s t op hR hlegal.1
      exact ⟨t', hspec, ih hR' hlegal.2⟩

theorem Simulates.related (h : Simulates step legal spec R) {ops : List Op} (hR : R s t)
    (hlegal : Legal step legal s ops) : ∃ t', R (run step s ops).2 t' := by
  induction ops generalizing s t with
  | nil => exact ⟨t, hR⟩
  | cons op ops ih =>
      obtain ⟨t', -, hR'⟩ := h s t op hR hlegal.1
      exact ih hR' hlegal.2

section Family
variable {ι : Type*} [DecidableEq ι]

def familyStep (step : σ → Op → Out × σ) (s : ι → σ) (op : ι × Op) : Out × (ι → σ) :=
  ((step (s op.1) op.2).1, Function.update s op.1 (step (s op.1) op.2).2)

def familyLegal (legal : σ → Op → Prop) (s : ι → σ) (op : ι × Op) : Prop := legal (s op.1) op.2

def familySpec (spec : τ → Op → Out → τ → Prop) (t : ι → τ) (op : ι × Op) (out : Out) (t' : ι → τ) : Prop :=
  spec (t op.1) op.2 out (t' op.1) ∧ ∀ i, i ≠ op.1 → t' i = t i

theorem Simulates.family (h : Simulates step legal spec R) :
    Simulates (familyStep step) (familyLegal legal) (familySpec spec)
      fun (s : ι → σ) (t : ι → τ) => ∀ i, R (s i) (t i) := by
  intro s t op hR hlegal
  obtain ⟨t', hspec, hR'⟩ := h (s op.1) (t op.1) op.2 (hR op.1) hlegal
  refine ⟨Function.update t op.1 t', ⟨?_, fun i hi => Function.update_of_ne hi _ _⟩, fun i => ?_⟩
  · rw [Function.update_self]
    exact hspec
  · by_cases hi : i = op.1
    · subst hi
      dsimp only [familyStep]
      rw [Function.update_self, Function.update_self]
      exact hR'
    · dsimp only [familyStep]
      rw [Function.update_of_ne hi, Function.update_of_ne hi]
      exact hR i

end Family

end Traces
