import Mathlib.Data.List.Lex
import Mathlib.Data.List.Basic
import Mathlib.Data.List.TakeWhile
import Mathlib.Order.Lattice

namespace Kronos.SortedRun

-- Runs of entries in strictly ascending key order, over any linear order.
variable {K E : Type} [LinearOrder K] (key : E → K)

def Ascending (run : List E) : Prop := run.Pairwise (fun a b => key a < key b)

-- Binary search for the first position whose test fails; the interval shrinks
-- on every turn, so its width is enough fuel.
def searchFirst (below : Nat → Bool) : Nat → Nat → Nat → Nat
  | 0,lo,_ => lo
  | fuel+1,lo,hi =>
    if lo < hi then
      let mid := lo + (hi - lo) / 2
      if below mid then searchFirst below fuel (mid+1) hi
      else searchFirst below fuel lo mid
    else lo

def lowerBound (run : List E) (k : K) : Nat :=
  searchFirst (fun i => (run[i]?).any (fun e => decide (key e < k))) run.length 0 run.length

theorem searchFirst_exact (below : Nat → Bool) (cut size : Nat)
    (left : ∀ i, i < cut → below i = true) (right : ∀ i, cut ≤ i → i < size → below i = false) :
    ∀ fuel lo hi, lo ≤ cut → cut ≤ hi → hi ≤ size → hi - lo ≤ fuel →
      searchFirst below fuel lo hi = cut := by
  intro fuel
  induction fuel with
  | zero =>
    intro lo hi atLeast atMost _ narrow
    simp only [searchFirst]
    omega
  | succ fuel ih =>
    intro lo hi atLeast atMost inside narrow
    simp only [searchFirst]
    split
    · split
      · rename_i smaller
        have past : lo + (hi - lo) / 2 < cut := by
          by_contra beyond
          have refused := right (lo + (hi - lo) / 2) (by omega) (by omega)
          rw [refused] at smaller
          cases smaller
        exact ih _ _ (by omega) atMost inside (by omega)
      · rename_i refused
        have beyond : cut ≤ lo + (hi - lo) / 2 := by
          by_contra past
          exact refused (left _ (by omega))
        exact ih _ _ atLeast beyond (by omega) (by omega)
    · omega

theorem ascending_cut (sorted : Ascending key run) (k : K) :
    ∃ below rest, run = below ++ rest ∧ (∀ e ∈ below, key e < k) ∧ ∀ e ∈ rest, k ≤ key e := by
  induction run with
  | nil => exact ⟨[],[],rfl,by simp,by simp⟩
  | cons head tail ih =>
    obtain ⟨first,later⟩ := List.pairwise_cons.mp sorted
    by_cases small : key head < k
    · obtain ⟨below,rest,rfl,left,right⟩ := ih later
      refine ⟨head :: below,rest,rfl,?_,right⟩
      intro e member
      rcases List.mem_cons.mp member with rfl | old
      · exact small
      · exact left e old
    · refine ⟨[],head :: tail,rfl,by simp,?_⟩
      intro e member
      rcases List.mem_cons.mp member with rfl | old
      · exact le_of_not_gt small
      · exact le_trans (le_of_not_gt small) (le_of_lt (first e old))

theorem lowerBound_cut (below rest : List E) (k : K) (left : ∀ e ∈ below, key e < k)
    (right : ∀ e ∈ rest, k ≤ key e) : lowerBound key (below ++ rest) k = below.length := by
  apply searchFirst_exact _ below.length (below ++ rest).length
  · intro i inside
    rw [List.getElem?_append_left inside,List.getElem?_eq_getElem inside]
    simpa using left _ (List.getElem_mem inside)
  · intro i beyond inside
    rw [List.length_append] at inside
    have bound : i - below.length < rest.length := by omega
    rw [List.getElem?_append_right beyond,List.getElem?_eq_getElem bound]
    simpa using right _ (List.getElem_mem bound)
  · exact Nat.zero_le _
  · rw [List.length_append]; omega
  · exact Nat.le_refl _
  · exact Nat.le_refl _

-- The finite map an ascending run stands for, and its two updates.
def find (run : List E) (k : K) : Option E := run.find? (fun e => decide (key e = k))

def put (run : List E) (new : E) : List E :=
  run.filter (fun e => decide (key e < key new)) ++ new :: run.filter (fun e => decide (key new < key e))

def drop (run : List E) (k : K) : List E := run.filter (fun e => decide (key e ≠ k))

theorem mem_put : e ∈ put key run new ↔ e = new ∨ (e ∈ run ∧ key e ≠ key new) := by
  simp only [put,List.mem_append,List.mem_cons,List.mem_filter,decide_eq_true_eq]
  constructor
  · rintro (⟨old,less⟩ | rfl | ⟨old,more⟩)
    · exact .inr ⟨old,ne_of_lt less⟩
    · exact .inl rfl
    · exact .inr ⟨old,ne_of_gt more⟩
  · rintro (rfl | ⟨old,other⟩)
    · exact .inr (.inl rfl)
    · rcases lt_or_gt_of_ne other with less | more
      · exact .inl ⟨old,less⟩
      · exact .inr (.inr ⟨old,more⟩)

theorem mem_drop : e ∈ drop key run k ↔ e ∈ run ∧ key e ≠ k := by
  simp [drop]

theorem put_ascending (sorted : Ascending key run) (new : E) : Ascending key (put key run new) := by
  unfold Ascending put
  rw [List.pairwise_append,List.pairwise_cons]
  refine ⟨sorted.filter _,⟨?_,sorted.filter _⟩,?_⟩
  · intro e member
    simpa using (List.mem_filter.mp member).2
  · intro a inBelow b inRest
    have less : key a < key new := by simpa using (List.mem_filter.mp inBelow).2
    rcases List.mem_cons.mp inRest with rfl | above
    · exact less
    · exact lt_trans less (by simpa using (List.mem_filter.mp above).2)

theorem drop_ascending (sorted : Ascending key run) (k : K) : Ascending key (drop key run k) := sorted.filter _

theorem ascending_unique (sorted : Ascending key run) (left : a ∈ run) (right : b ∈ run) (same : key a = key b) :
    a = b := by
  induction run with
  | nil => cases left
  | cons _ _ ih =>
    obtain ⟨first,later⟩ := List.pairwise_cons.mp sorted
    rcases List.mem_cons.mp left with rfl | inTail
    · rcases List.mem_cons.mp right with rfl | other
      · rfl
      · exact absurd same (ne_of_lt (first b other))
    · rcases List.mem_cons.mp right with rfl | other
      · exact absurd same (ne_of_gt (first a inTail))
      · exact ih later inTail other

theorem find_exact (sorted : Ascending key run) (k : K) (e : E) : find key run k = some e ↔ e ∈ run ∧ key e = k := by
  constructor
  · intro found
    exact ⟨List.mem_of_find?_eq_some found,by simpa using List.find?_some found⟩
  · rintro ⟨member,same⟩
    cases found : find key run k with
    | none =>
      have refused := List.find?_eq_none.mp found e member
      simp [same] at refused
    | some other =>
      have otherKey : key other = k := by simpa using List.find?_some found
      rw [ascending_unique key sorted (List.mem_of_find?_eq_some found) member (otherKey.trans same.symm)]

theorem find_put (sorted : Ascending key run) (new : E) (k : K) :
    find key (put key run new) k = if k = key new then some new else find key run k := by
  apply Option.ext
  intro e
  rw [find_exact key (put_ascending key sorted new),mem_put]
  split
  · rename_i same
    subst same
    constructor
    · rintro ⟨rfl | ⟨_,other⟩,equal⟩
      · rfl
      · exact absurd equal other
    · intro equal
      cases Option.some.inj equal
      exact ⟨.inl rfl,rfl⟩
  · rename_i different
    rw [find_exact key sorted]
    constructor
    · rintro ⟨rfl | ⟨old,_⟩,equal⟩
      · exact absurd equal.symm different
      · exact ⟨old,equal⟩
    · rintro ⟨old,rfl⟩
      exact ⟨.inr ⟨old,different⟩,rfl⟩

theorem find_drop (sorted : Ascending key run) (gone k : K) :
    find key (drop key run gone) k = if k = gone then none else find key run k := by
  apply Option.ext
  intro e
  rw [find_exact key (drop_ascending key sorted gone),mem_drop]
  split
  · rename_i same
    subst same
    constructor
    · rintro ⟨⟨_,other⟩,equal⟩
      exact absurd equal other
    · intro none; cases none
  · rename_i different
    rw [find_exact key sorted]
    constructor
    · rintro ⟨⟨old,_⟩,equal⟩
      exact ⟨old,equal⟩
    · rintro ⟨old,rfl⟩
      exact ⟨⟨old,different⟩,rfl⟩

theorem find_between {left middle right : List E} {k : K}
    (before : ∀ e ∈ left, key e ≠ k) (after : ∀ e ∈ right, key e ≠ k) :
    find key (left ++ middle ++ right) k = find key middle k := by
  have noLeft : left.find? (fun e => decide (key e = k)) = none :=
    List.find?_eq_none.mpr fun e member => by simpa using before e member
  have noRight : right.find? (fun e => decide (key e = k)) = none :=
    List.find?_eq_none.mpr fun e member => by simpa using after e member
  simp [find,List.find?_append,noLeft,noRight]

theorem put_between {left middle right : List E} {new : E}
    (before : ∀ e ∈ left, key e < key new) (after : ∀ e ∈ right, key new < key e) :
    put key (left ++ middle ++ right) new = left ++ put key middle new ++ right := by
  have keepLeft : left.filter (fun e => decide (key e < key new)) = left :=
    List.filter_eq_self.mpr (fun e member => by simpa using before e member)
  have cutLeft : left.filter (fun e => decide (key new < key e)) = [] :=
    List.filter_eq_nil_iff.mpr (fun e member => by simpa using le_of_lt (before e member))
  have keepRight : right.filter (fun e => decide (key new < key e)) = right :=
    List.filter_eq_self.mpr (fun e member => by simpa using after e member)
  have cutRight : right.filter (fun e => decide (key e < key new)) = [] :=
    List.filter_eq_nil_iff.mpr (fun e member => by simpa using le_of_lt (after e member))
  simp only [put,List.filter_append,keepLeft,cutLeft,keepRight,cutRight,List.nil_append,
    List.append_nil,List.append_assoc,List.cons_append]

theorem drop_between {left middle right : List E} {k : K}
    (before : ∀ e ∈ left, key e ≠ k) (after : ∀ e ∈ right, key e ≠ k) :
    drop key (left ++ middle ++ right) k = left ++ drop key middle k ++ right := by
  have keepLeft : left.filter (fun e => decide (key e ≠ k)) = left :=
    List.filter_eq_self.mpr (fun e member => by simpa using before e member)
  have keepRight : right.filter (fun e => decide (key e ≠ k)) = right :=
    List.filter_eq_self.mpr (fun e member => by simpa using after e member)
  simp only [drop,List.filter_append,keepLeft,keepRight]

-- Filling a map entry by entry; the last entry of a key stays.
def putAll (run : List E) (new : List E) : List E := new.foldl (put key) run

theorem putAll_ascending (sorted : Ascending key run) (new : List E) : Ascending key (putAll key run new) := by
  induction new generalizing run with
  | nil => exact sorted
  | cons first _ ih => exact ih (put_ascending key sorted first)

theorem mem_putAll (member : e ∈ putAll key run new) : e ∈ run ∨ e ∈ new := by
  induction new generalizing run with
  | nil => exact .inl member
  | cons _ _ ih =>
    rcases ih member with placed | later
    · rcases (mem_put key).mp placed with rfl | ⟨old,_⟩
      · exact .inr List.mem_cons_self
      · exact .inl old
    · exact .inr (List.mem_cons_of_mem _ later)

theorem putAll_above {run new : List E} (sorted : Ascending key (run ++ new)) : putAll key run new = run ++ new := by
  induction new generalizing run with
  | nil => exact (List.append_nil run).symm
  | cons first _ ih =>
    obtain ⟨_,_,across⟩ := List.pairwise_append.mp sorted
    have placed : put key run first = run ++ [first] := by
      have at_end := @put_between K E _ key run [] [] first
        (fun e member => across e member first List.mem_cons_self) (by simp)
      simpa [put] using at_end
    rw [putAll,List.foldl_cons,placed,← putAll,ih (by simpa using sorted)]
    simp

end Kronos.SortedRun
