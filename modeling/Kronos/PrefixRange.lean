import Mathlib.Data.List.Lex
import Mathlib.Data.List.Induction
import Mathlib.Order.Lattice

namespace Kronos.PrefixRange

-- Lists in lexicographic order: those that start alike form a range.
variable {α : Type} [LinearOrder α] {front rest left right key : List α} {a b : α}

theorem append_lt_append : front ++ left < front ++ right ↔ left < right := by
  induction front with
  | nil => rfl
  | cons _ _ ih => simpa [List.cons_lt_cons_iff] using ih

theorem append_le_append : front ++ left ≤ front ++ right ↔ left ≤ right := by
  rw [← not_lt,append_lt_append,not_lt]

theorem le_append (front rest : List α) : front ≤ front ++ rest := by
  have shorter : front ++ [] ≤ front ++ rest := append_le_append.mpr (not_lt.mp (List.not_lt_nil rest))
  simpa using shorter

theorem head_le (above : a :: left ≤ b :: right) : a ≤ b := by
  by_contra less
  exact absurd above (not_le.mpr (List.cons_lt_cons_iff.mpr (.inl (not_le.mp less))))

-- `b` is the next element after `a`: what lies from `front ++ [a]` up to
-- `front ++ [b]` starts with `front ++ [a]`.
theorem between_exact (next : ∀ x, x < b ↔ x ≤ a) :
    (front ++ [a] ≤ key ∧ key < front ++ [b]) ↔ front ++ [a] <+: key := by
  constructor
  · rintro ⟨above,below⟩
    induction front generalizing key with
    | nil =>
      cases key with
      | nil => exact absurd above (not_le.mpr (List.nil_lt_cons a []))
      | cons head tail =>
        have most : head ≤ a := by
          rcases List.cons_lt_cons_iff.mp below with less | ⟨_,never⟩
          · exact (next head).mp less
          · exact absurd never (List.not_lt_nil tail)
        exact ⟨tail,by rw [le_antisymm (head_le above) most]; rfl⟩
    | cons first others ih =>
      cases key with
      | nil => exact absurd above (not_le.mpr (List.nil_lt_cons first _))
      | cons head tail =>
        have same : first = head := by
          apply le_antisymm (head_le above)
          rcases List.cons_lt_cons_iff.mp below with less | ⟨same,_⟩
          · exact le_of_lt less
          · exact le_of_eq same
        subst same
        have upper : others ++ [a] ≤ tail := (@append_le_append α _ [first] _ _).mp above
        have lower : tail < others ++ [b] := (@append_lt_append α _ [first] _ _).mp below
        exact List.cons_prefix_cons.mpr ⟨rfl,ih upper lower⟩
  · rintro ⟨_,rfl⟩
    refine ⟨le_append _ _,?_⟩
    rw [List.append_assoc,append_lt_append]
    exact List.cons_lt_cons_iff.mpr (.inl ((next a).mpr le_rfl))

-- Where the last element has nothing after it, only the part before it bounds.
theorem greatest_exact (greatest : ∀ x, x ≤ a) : (front ++ [a] ≤ key ∧ front <+: key) ↔ front ++ [a] <+: key := by
  constructor
  · rintro ⟨above,rest,rfl⟩
    have first : [a] ≤ rest := append_le_append.mp above
    cases rest with
    | nil => exact absurd first (not_le.mpr (List.nil_lt_cons a []))
    | cons head tail =>
      rw [le_antisymm (greatest head) (head_le first)]
      exact ⟨tail,by simp⟩
  · rintro ⟨rest,rfl⟩
    exact ⟨le_append _ _,[a] ++ rest,by simp⟩

end Kronos.PrefixRange
