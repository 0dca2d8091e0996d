import Mathlib.Data.Option.Basic

namespace refinement

/-- A component driven by one call at a time. A call leads to the next state and
an outcome; a call that never comes to its end leads to `none`. -/
structure Machine (Op Outcome State : Type*) where
  step : State → Op → Option (State × Outcome)

variable {Op Outcome State Abstract : Type*}

namespace Machine

/-- The state and the outcomes after a sequence of calls. -/
def run (M : Machine Op Outcome State) : State → List Op → Option (State × List Outcome)
  | s, [] => some (s, [])
  | s, op :: ops =>
    match M.step s op with
    | none => none
    | some (s, outcome) => (M.run s ops).map fun (s, outcomes) => (s, outcome :: outcomes)

/-- Every call comes to the same end in both components, and the ends are
related again. -/
def Simulates (C : Machine Op Outcome State) (A : Machine Op Outcome Abstract)
    (R : State → Abstract → Prop) : Prop :=
  ∀ s t op, R s t → ∃ s' t' outcome,
    C.step s op = some (s', outcome) ∧ A.step t op = some (t', outcome) ∧ R s' t'

/-- Related components stay related, with equal outcomes, over every sequence of
calls. -/
theorem Simulates.run {C : Machine Op Outcome State} {A : Machine Op Outcome Abstract}
    {R : State → Abstract → Prop} (hsim : C.Simulates A R) (ops : List Op) :
    ∀ {s t}, R s t → ∃ s' t' outcomes,
      C.run s ops = some (s', outcomes) ∧ A.run t ops = some (t', outcomes) ∧ R s' t' := by
  induction ops with
  | nil => exact fun {s t} hR => ⟨s, t, [], rfl, rfl, hR⟩
  | cons op ops ih =>
    intro s t hR
    obtain ⟨s₁, t₁, outcome, hC, hA, hR₁⟩ := hsim s t op hR
    obtain ⟨s', t', outcomes, hC', hA', hR'⟩ := ih hR₁
    refine ⟨s', t', outcome :: outcomes, ?_, ?_, hR'⟩
    · simp only [Machine.run, hC, hC', Option.map_some]
    · simp only [Machine.run, hA, hA', Option.map_some]

end Machine

end refinement
