import Mathlib.Init

namespace Kronos.Effect

-- A run either returns or stops with a fault; the state reached so far is kept
-- in both cases, as it is for a program that returns an error half way through.
def Meets (program : EStateM ε σ α) (s : σ) (post : α → σ → Prop) (bad : ε → σ → Prop) : Prop :=
  match program s with
  | .ok a after => post a after
  | .error e after => bad e after

-- A call whose error the caller looks at itself.
def attempt {ε σ α : Type} (program : EStateM ε σ α) : EStateM ε σ (Except ε α) := fun s =>
  match program s with
  | .ok a after => .ok (.ok a) after
  | .error e after => .ok (.error e) after

theorem meets_ok {program : EStateM ε σ α} (ran : program s = .ok a after)
    (met : Meets program s post bad) : post a after := by
  simpa [Meets,ran] using met

theorem meets_error {program : EStateM ε σ α} (ran : program s = .error e after)
    (met : Meets program s post bad) : bad e after := by
  simpa [Meets,ran] using met

theorem meets_pure {post : α → σ → Prop} {bad : ε → σ → Prop} (holds : post a s) : Meets (pure a) s post bad := holds

theorem meets_throw {post : α → σ → Prop} {bad : ε → σ → Prop} (holds : bad e s) : Meets (throw e) s post bad := holds

theorem meets_bind {next : α → EStateM ε σ β} (one : Meets first s middle bad)
    (two : ∀ a t, middle a t → Meets (next a) t post bad) : Meets (first >>= next) s post bad := by
  unfold Meets at one ⊢
  cases ran : first s with
  | ok a t =>
    have reached : middle a t := by simpa [ran] using one
    have rest := two a t reached
    simpa [bind,EStateM.bind,ran,Meets] using rest
  | error => simpa [bind,EStateM.bind,ran] using one

-- A call whose outcome is known leaves only what follows it.
theorem meets_ran {first : EStateM ε σ α} {next : α → EStateM ε σ β} (ran : first s = .ok a t)
    (rest : Meets (next a) t post bad) : Meets (first >>= next) s post bad := by
  simpa [Meets,bind,EStateM.bind,ran] using rest

theorem meets_mono {program : EStateM ε σ α} (met : Meets program s post bad)
    (stronger : ∀ a t, post a t → post' a t) : Meets program s post' bad := by
  unfold Meets at met ⊢
  cases ran : program s with
  | ok a t => simp only [ran] at met; exact stronger a t met
  | error => simpa only [ran] using met

theorem bind_ran {next : α → EStateM ε σ β} (ran : first s = .ok a t) : (first >>= next) s = next a t := by
  simp [bind,EStateM.bind,ran]

theorem bind_ok {next : α → EStateM ε σ β} : (first >>= next) s = .ok b after ↔
      ∃ a t, first s = .ok a t ∧ next a t = .ok b after := by
  cases ran : first s with
  | ok => simp [bind,EStateM.bind,ran,and_assoc]
  | error => simp [bind,EStateM.bind,ran]

theorem bind_ok_iff {first : Except ε α} {next : α → Except ε β} {b : β} :
    (first >>= next) = .ok b ↔ ∃ a, first = .ok a ∧ next a = .ok b := by
  constructor
  · intro ran
    cases first with
    | ok a => exact ⟨a,rfl,ran⟩
    | error => cases ran
  · rintro ⟨_,rfl,ran⟩
    exact ran

theorem guard_ok_iff {p : Prop} [Decidable p] {rest : Except ε α} :
    (if p then .error e else rest) = .ok a ↔ ¬p ∧ rest = .ok a := by
  by_cases stop : p
  · rw [if_pos stop]
    constructor
    · intro ran
      cases ran
    · intro ran
      exact absurd stop ran.1
  · rw [if_neg stop]
    exact ⟨fun ran => ⟨stop,ran⟩,fun ran => ran.2⟩

theorem map_ok_iff {f : α → β} {result : Except ε α} : result.map f = .ok b ↔ ∃ a, result = .ok a ∧ f a = b := by
  cases result <;> simp [Except.map]

theorem mapError_ok {f : ε → ε'} {result : Except ε α} (ran : result.mapError f = .ok a) : result = .ok a := by
  cases result with
  | ok =>
    cases ran
    rfl
  | error => cases ran

-- A computation that may fail, but in no way that counts as bad.
def Spares (bad : ε → Prop) (result : Except ε α) : Prop := ∀ e, result = .error e → ¬bad e

theorem spares_ok {bad : ε → Prop} (a : α) : Spares bad (.ok a) := by
  intro e never
  cases never

theorem spares_error {bad : ε → Prop} (good : ¬bad e) : Spares bad (.error e : Except ε α) := by
  intro other same
  cases same
  exact good

theorem spares_error_iff {bad : ε → Prop} : Spares bad (.error e : Except ε α) ↔ ¬bad e := by
  constructor
  · intro spares
    exact spares e rfl
  · exact spares_error

theorem spares_bind {bad : ε → Prop} {next : α → Except ε β} (one : Spares bad first)
    (rest : ∀ a, first = .ok a → Spares bad (next a)) : Spares bad (first >>= next) := by
  cases ran : first with
  | ok a => exact rest a ran
  | error e => exact spares_error (one e ran)

theorem spares_bind_iff {bad : ε → Prop} {next : α → Except ε β} :
    Spares bad (first >>= next) ↔ Spares bad first ∧ ∀ a, first = .ok a → Spares bad (next a) := by
  constructor
  · intro spares
    cases first with
    | ok a =>
      refine ⟨spares_ok a,?_⟩
      rintro _ ⟨⟩
      exact spares
    | error e =>
      refine ⟨spares_error (spares e rfl),?_⟩
      intro a never
      cases never
  · intro spares
    exact spares_bind spares.1 spares.2

theorem spares_ite {bad : ε → Prop} {p : Prop} [Decidable p] {first second : Except ε α} (one : p → Spares bad first)
    (two : ¬p → Spares bad second) : Spares bad (if p then first else second) := by
  split
  · rename_i yes
    exact one yes
  · rename_i no
    exact two no

end Kronos.Effect
