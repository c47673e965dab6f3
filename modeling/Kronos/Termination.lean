import Mathlib.Logic.Relation

namespace Kronos.Termination

-- Whatever step is taken, a run from here comes to a state that meets the goal:
-- it never stops before, and it does not go on for ever.
inductive Inevitable (step : σ → σ → Prop) (goal : σ → Prop) : σ → Prop
  | now {s : σ} (met : goal s) : Inevitable step goal s
  | later {s : σ} (moves : ∃ next, step s next) (all : ∀ next, step s next → Inevitable step goal next) :
      Inevitable step goal s

section
variable {step : σ → σ → Prop} {goal : σ → Prop} {s : σ}

-- A weight that every step lowers, and a step whenever the goal is not met.
theorem by_weight (weight : σ → Nat) (invariant : σ → Prop)
    (lighter : ∀ s next, invariant s → step s next → weight next < weight s)
    (keeps : ∀ s next, invariant s → step s next → invariant next)
    (moves : ∀ s, invariant s → goal s ∨ ∃ next, step s next) (holds : invariant s) : Inevitable step goal s := by
  generalize bound : weight s = n
  induction n using Nat.strongRecOn generalizing s with
  | _ _ ih =>
    rcases moves s holds with met | more
    · exact .now met
    · refine .later more ?_
      intro next taken
      have less := lighter s next holds taken
      exact ih (weight next) (by omega) (keeps s next holds taken) rfl

theorem Inevitable.mono {wider : σ → Prop} (ends : Inevitable step goal s) (weaker : ∀ s, goal s → wider s) :
    Inevitable step wider s := by
  induction ends with
  | now met => exact .now (weaker _ met)
  | later moves _ ih => exact .later moves ih

theorem Inevitable.reaches (ends : Inevitable step goal s) : ∃ next, Relation.ReflTransGen step s next ∧ goal next := by
  induction ends with
  | now met => exact ⟨_,.refl,met⟩
  | later moves _ ih =>
    obtain ⟨next,taken⟩ := moves
    obtain ⟨last,path,met⟩ := ih next taken
    exact ⟨last,.head taken path,met⟩

end
end Kronos.Termination
