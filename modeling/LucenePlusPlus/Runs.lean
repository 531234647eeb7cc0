import Mathlib.Data.List.Basic

/-!
Runs of a partial step function. `run` fails as soon as one step fails; `Legal` says that every step
of a run meets a precondition in the state it starts from.
-/

namespace Runs
variable {σ α : Type*}

def run (step : σ → α → Option σ) (s : σ) (as : List α) : Option σ := as.foldlM step s

def Legal (step : σ → α → Option σ) (legal : σ → α → Prop) : σ → List α → Prop
  | _, [] => True
  | s, a :: as => legal s a ∧ ∀ s', step s a = some s' → Legal step legal s' as

/-- `P` holds in every state of a run. -/
def Always (step : σ → α → Option σ) (P : σ → Prop) : σ → List α → Prop
  | s, [] => P s
  | s, a :: as => P s ∧ ∀ s', step s a = some s' → Always step P s' as

variable {step : σ → α → Option σ} {legal : σ → α → Prop} {s s' : σ}

@[simp] theorem run_nil : run step s [] = some s := rfl

theorem run_cons (a : α) (as : List α) :
    run step s (a :: as) = (step s a).bind fun s' => run step s' as := rfl

theorem run_cons_eq_some {a : α} {as : List α} :
    run step s (a :: as) = some s' ↔ ∃ s₁, step s a = some s₁ ∧ run step s₁ as = some s' := by
  rw [run_cons, Option.bind_eq_some_iff]

theorem Legal.mono {legal' : σ → α → Prop} (himp : ∀ s a, legal s a → legal' s a) {as : List α}
    (h : Legal step legal s as) : Legal step legal' s as := by
  induction as generalizing s with
  | nil => trivial
  | cons a as ih => exact ⟨himp s a h.1, fun s' hs' => ih (h.2 s' hs')⟩

instance decidableLegal [∀ s a, Decidable (legal s a)] :
    ∀ (s : σ) (as : List α), Decidable (Legal step legal s as)
  | _, [] => .isTrue trivial
  | s, a :: as =>
      match h : step s a with
      | none => decidable_of_iff (legal s a) ⟨fun hlegal => ⟨hlegal, by simp [h]⟩, And.left⟩
      | some s₁ =>
          have := decidableLegal s₁ as
          decidable_of_iff (legal s a ∧ Legal step legal s₁ as) (by simp [Legal, h])

theorem run_invariant {P : σ → Prop} (hstep : ∀ s a s', P s → step s a = some s' → P s')
    {as : List α} (hs : P s) (hrun : run step s as = some s') : P s' := by
  induction as generalizing s with
  | nil => exact Option.some.inj hrun ▸ hs
  | cons a as ih =>
      obtain ⟨s₁, hs₁, hrest⟩ := run_cons_eq_some.mp hrun
      exact ih (hstep s a s₁ hs hs₁) hrest

theorem legal_invariant {P : σ → Prop}
    (hstep : ∀ s a s', P s → legal s a → step s a = some s' → P s')
    {as : List α} (hs : P s) (hlegal : Legal step legal s as) (hrun : run step s as = some s') :
    P s' := by
  induction as generalizing s with
  | nil => exact Option.some.inj hrun ▸ hs
  | cons a as ih =>
      obtain ⟨s₁, hs₁, hrest⟩ := run_cons_eq_some.mp hrun
      exact ih (hstep s a s₁ hs hlegal.1 hs₁) (hlegal.2 s₁ hs₁) hrest

theorem legal_run_total {P : σ → Prop}
    (hstep : ∀ s a, P s → legal s a → ∃ s', step s a = some s' ∧ P s')
    {as : List α} (hs : P s) (hlegal : Legal step legal s as) :
    ∃ s', run step s as = some s' ∧ P s' := by
  induction as generalizing s with
  | nil => exact ⟨s, rfl, hs⟩
  | cons a as ih =>
      obtain ⟨s₁, hs₁, hP⟩ := hstep s a hs hlegal.1
      obtain ⟨s', hrun, hP'⟩ := ih hP (hlegal.2 s₁ hs₁)
      exact ⟨s', run_cons_eq_some.mpr ⟨s₁, hs₁, hrun⟩, hP'⟩

theorem Always.head {P : σ → Prop} {as : List α} (h : Always step P s as) : P s := by
  cases as with
  | nil => exact h
  | cons a as => exact h.1

theorem Always.to_legal {P : σ → Prop} {as : List α} (h : Always step P s as)
    (himp : ∀ s a, P s → legal s a) : Legal step legal s as := by
  induction as generalizing s with
  | nil => trivial
  | cons a as ih => exact ⟨himp s a h.1, fun s' hs' => ih (h.2 s' hs')⟩

/-- If a step keeps `P` exactly when it is legal, a run keeps `P` exactly when all its steps are legal. -/
theorem always_iff_legal {I P : σ → Prop} (hI : ∀ s a s', I s → step s a = some s' → I s')
    (hP : ∀ s a s', I s → P s → step s a = some s' → (P s' ↔ legal s a))
    {as : List α} (hIs : I s) (hPs : P s) (hrun : run step s as = some s') :
    Always step P s as ↔ Legal step legal s as := by
  induction as generalizing s with
  | nil => exact iff_of_true hPs trivial
  | cons a as ih =>
      obtain ⟨s₁, hs₁, hrest⟩ := run_cons_eq_some.mp hrun
      have hstep := hP s a s₁ hIs hPs hs₁
      constructor
      · intro h
        have hPs₁ := (h.2 s₁ hs₁).head
        refine ⟨hstep.mp hPs₁, fun s₂ hs₂ => ?_⟩
        cases hs₁.symm.trans hs₂
        exact (ih (hI s a s₁ hIs hs₁) hPs₁ hrest).mp (h.2 s₁ hs₁)
      · intro h
        have hPs₁ := hstep.mpr h.1
        refine ⟨hPs, fun s₂ hs₂ => ?_⟩
        cases hs₁.symm.trans hs₂
        exact (ih (hI s a s₁ hIs hs₁) hPs₁ hrest).mpr (h.2 s₁ hs₁)

/-- A run is legal as long as it keeps `Good`, and once it is not, it is `Bad` for good. -/
theorem legal_good_or_bad {Good Bad : σ → Prop}
    (hgood : ∀ s a s', Good s → legal s a → step s a = some s' → Good s')
    (hbad : ∀ s a s', Good s → ¬ legal s a → step s a = some s' → Bad s')
    (hstays : ∀ s a s', Bad s → step s a = some s' → Bad s')
    {as : List α} (hs : Good s) (hrun : run step s as = some s') :
    (Legal step legal s as ∧ Good s') ∨ (¬ Legal step legal s as ∧ Bad s') := by
  induction as generalizing s with
  | nil => exact Or.inl ⟨trivial, Option.some.inj hrun ▸ hs⟩
  | cons a as ih =>
      obtain ⟨s₁, hs₁, hrest⟩ := run_cons_eq_some.mp hrun
      have hnext : Legal step legal s (a :: as) ↔ legal s a ∧ Legal step legal s₁ as := by
        simp [Legal, hs₁]
      rw [hnext]
      by_cases hlegal : legal s a
      · exact (ih (hgood s a s₁ hs hlegal hs₁) hrest).imp (fun h => ⟨⟨hlegal, h.1⟩, h.2⟩)
          fun h => ⟨fun hand => h.1 hand.2, h.2⟩
      · exact Or.inr ⟨fun hand => hlegal hand.1, run_invariant hstays (hbad s a s₁ hs hlegal hs₁) hrest⟩

end Runs
