import Mathlib.Data.List.Basic

namespace Kronos.Delimited

variable {A B : Type}

-- No code of an element begins another one's, so a text is read in one way only.
structure Separated (code : A → List B) : Prop where
  some : ∀ a, code a ≠ []
  first : ∀ a b x y, code a ++ x = code b ++ y → a = b

theorem Separated.injective {code : A → List B} (separated : Separated code) :
    Function.Injective (List.flatMap code) := by
  intro left
  induction left with
  | nil =>
    intro right same
    cases right with
    | nil => rfl
    | cons b =>
      exact absurd (List.append_eq_nil_iff.mp same.symm).1 (separated.some b)
  | cons a _ ih =>
    intro right same
    cases right with
    | nil =>
      exact absurd (List.append_eq_nil_iff.mp same).1 (separated.some a)
    | cons b =>
      cases separated.first a b _ _ same
      rw [ih (List.append_cancel_left same)]

theorem intercalate_some [DecidableEq B] {parts : List (List B)} (listed : parts ≠ [])
    (held : ∀ part ∈ parts, part ≠ []) : [mark].intercalate parts ≠ [] := by
  cases parts with
  | nil => exact absurd rfl listed
  | cons part rest =>
    have some := held part List.mem_cons_self
    cases rest with
    | nil => simpa [List.intercalate] using some
    | cons => simp [List.intercalate]

theorem intercalate_unique [DecidableEq B] {left : List (List B)}
    (plain : ∀ part ∈ left ++ right, part ≠ [] ∧ mark ∉ part)
    (same : [mark].intercalate left = [mark].intercalate right) : left = right := by
  have held : ∀ part ∈ left ++ right, part ≠ [] := fun part member => (plain part member).1
  have clean : ∀ part ∈ left ++ right, mark ∉ part := fun part member => (plain part member).2
  simp only [List.mem_append] at held clean
  cases left with
  | nil =>
    cases right with
    | nil => rfl
    | cons part =>
      exact absurd same.symm (intercalate_some (List.cons_ne_nil _ _) (fun part member => held part (.inr member)))
  | cons part rest =>
    cases right with
    | nil => exact absurd same (intercalate_some (List.cons_ne_nil _ _) (fun part member => held part (.inl member)))
    | cons next others =>
      rw [← List.splitOn_intercalate mark (fun part member => clean part (.inl member)) (List.cons_ne_nil part rest),same]
      exact List.splitOn_intercalate mark (fun part member => clean part (.inr member)) (List.cons_ne_nil next others)

end Kronos.Delimited
