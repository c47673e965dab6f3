import Mathlib.Order.Lattice

namespace Kronos.Recurrence

-- A recurrence is a function that names the next time after a given one; times
-- are compared by their stamps.
variable {T I E : Type} [LinearOrder I] (stamp : T → I) (next : T → Except E T)

structure Follows (Valid Occurs : T → Prop) : Prop where
  valid : ∀ a t, Valid a → next a = .ok t → Valid t
  later : ∀ a t, Valid a → next a = .ok t → stamp a < stamp t
  occurs : ∀ a t, Valid a → next a = .ok t → Occurs t
  first : ∀ a t u, Valid a → next a = .ok t → Occurs u → stamp a < stamp u → stamp t ≤ stamp u

-- The times up to now, starting with one that is pending; no more than there is room for.
def collect (full : E) (now : I) : Nat → T → Except E (List T × T)
  | 0,t => if now < stamp t then .ok ([],t) else .error full
  | room+1,t =>
    if now < stamp t then .ok ([],t)
    else do
      let t' ← next t
      let (due,last) ← collect full now room t'
      return (t :: due,last)

inductive Collects (now : I) : T → List T → T → Prop
  | stop : now < stamp t → Collects now t [] t
  | more : stamp t ≤ now → next t = .ok t' → Collects now t' due last → Collects now t (t :: due) last

-- The due time that comes so many after the pending one.
inductive Reaches (now : I) : T → Nat → T → Prop
  | here : stamp t ≤ now → Reaches now t 0 t
  | next : stamp t ≤ now → next t = .ok t' → Reaches now t' n u → Reaches now t (n+1) u

variable {stamp next}

theorem Reaches.past (path : Reaches stamp next now t n u) : stamp t ≤ now := by
  cases path with
  | here past => exact past
  | next past => exact past

theorem collect_future (future : now < stamp t) : collect stamp next full now room t = .ok ([],t) := by
  cases room <;> rw [collect,if_pos future]

theorem collect_fails_iff {full : E} {now : I} {room : Nat} {t : T} :
    (∃ e, collect stamp next full now room t = .error e) ↔
      (∃ u, Reaches stamp next now t room u) ∨ ∃ n u e, Reaches stamp next now t n u ∧ next u = .error e := by
  by_cases future : now < stamp t
  · rw [collect_future future]
    constructor
    · intro ⟨e,failed⟩
      cases failed
    · intro paths
      rcases paths with ⟨u,path⟩ | ⟨n,u,e,path,_⟩
      · exact absurd path.past (not_le.mpr future)
      · exact absurd path.past (not_le.mpr future)
  have past : stamp t ≤ now := not_lt.mp future
  cases room with
  | zero =>
    rw [collect,if_neg future]
    exact ⟨fun _ => .inl ⟨t,.here past⟩,fun _ => ⟨full,rfl⟩⟩
  | succ room =>
    rw [collect,if_neg future]
    cases found : next t with
    | error e => exact ⟨fun _ => .inr ⟨0,t,e,.here past,found⟩,fun _ => ⟨e,rfl⟩⟩
    | ok t' =>
      have inner := @collect_fails_iff full now room t'
      constructor
      · intro ⟨e,failed⟩
        have failed' : ∃ e, collect stamp next full now room t' = .error e := by
          cases rest : collect stamp next full now room t' with
          | error e => exact ⟨e,rfl⟩
          | ok =>
            simp only [bind,Except.bind,rest] at failed
            cases failed
        rcases inner.mp failed' with ⟨u,path⟩ | ⟨n,u,e,path,stuck⟩
        · exact .inl ⟨u,.next past found path⟩
        · exact .inr ⟨n+1,u,e,.next past found path,stuck⟩
      · intro paths
        have failed : ∃ e, collect stamp next full now room t' = .error e := by
          apply inner.mpr
          rcases paths with ⟨u,path⟩ | ⟨_,u,e,path,stuck⟩
          · cases path with
            | next _ found' path =>
              rw [found] at found'
              cases found'
              exact .inl ⟨u,path⟩
          · cases path with
            | here =>
              rw [found] at stuck
              cases stuck
            | next _ found' path =>
              rw [found] at found'
              cases found'
              exact .inr ⟨_,u,e,path,stuck⟩
        obtain ⟨e,failed⟩ := failed
        exact ⟨e,by simp only [bind,Except.bind,failed]⟩
termination_by room

theorem collect_sound (ran : collect stamp next full now room t = .ok (due,last)) :
    Collects stamp next now t due last := by
  induction room generalizing t due last with
  | zero =>
    rw [collect] at ran
    split at ran
    · rename_i future
      cases ran
      exact .stop future
    · cases ran
  | succ room ih =>
    rw [collect] at ran
    split at ran
    · rename_i future
      cases ran
      exact .stop future
    · rename_i past
      cases found : next t with
      | error =>
        rw [found] at ran
        cases ran
      | ok t' =>
        rw [found] at ran
        cases rest : collect stamp next full now room t' with
        | error =>
          simp only [bind,Except.bind,rest] at ran
          cases ran
        | ok =>
          simp only [bind,Except.bind,rest] at ran
          cases ran
          exact .more (not_lt.mp past) found (ih rest)

theorem Collects.unique (one : Collects stamp next now t due last) (other : Collects stamp next now t due' last') :
    due = due' ∧ last = last' := by
  induction one generalizing due' last' with
  | stop future =>
    cases other with
    | stop => exact ⟨rfl,rfl⟩
    | more past => exact absurd past (not_le.mpr future)
  | more past found _ ih =>
    cases other with
    | stop future => exact absurd past (not_le.mpr future)
    | more _ found' rest =>
      rw [found] at found'
      cases found'
      obtain ⟨same,end_⟩ := ih rest
      exact ⟨congrArg _ same,end_⟩

theorem Collects.append (order : early ≤ late) (one : Collects stamp next early t due middle)
    (two : Collects stamp next late middle due' last) : Collects stamp next late t (due ++ due') last := by
  induction one with
  | stop => exact two
  | more past found _ ih => exact .more (le_trans past order) found (ih two)

theorem Collects.ends (path : Collects stamp next now t due last) : now < stamp last := by
  induction path with
  | stop future => exact future
  | more _ _ _ ih => exact ih

theorem Reaches.collected (reached : Reaches stamp next now t n u) (path : Collects stamp next now t due last) :
    u ∈ due := by
  induction reached generalizing due last with
  | here past =>
    cases path with
    | stop future => exact absurd past (not_le.mpr future)
    | more => exact List.mem_cons_self
  | next past found _ ih =>
    cases path with
    | stop future => exact absurd past (not_le.mpr future)
    | more _ found' rest =>
      rw [found] at found'
      cases found'
      exact List.mem_cons_of_mem _ (ih rest)

theorem Collects.cursor {now : I} {t : T} (path : Collects stamp next now t due last) (some_due : due ≠ []) :
    ∃ latest, due.getLast? = some latest ∧ next latest = .ok last := by
  induction path with
  | stop => exact absurd rfl some_due
  | @more t t' due last _ found rest ih =>
    cases rest with
    | stop => exact ⟨t,rfl,found⟩
    | more =>
      obtain ⟨latest,ends,named⟩ := ih (List.cons_ne_nil _ _)
      exact ⟨latest,by rw [List.getLast?_cons_cons]; exact ends,named⟩

theorem Collects.head (path : Collects stamp next now t due last) :
    due = [] ∧ last = t ∧ now < stamp t ∨ stamp t ≤ now ∧ due.head? = some t := by
  cases path with
  | stop future => exact .inl ⟨rfl,rfl,future⟩
  | more past => exact .inr ⟨past,rfl⟩

section
variable {Valid Occurs : T → Prop} (follows : Follows stamp next Valid Occurs) {now : I} {t last : T}
  {due : List T} (valid : Valid t) (path : Collects stamp next now t due last)
include follows valid path

theorem Collects.valid_all : (∀ v ∈ due, Valid v) ∧ Valid last := by
  induction path with
  | stop =>
    constructor
    · intro v member
      cases member
    · exact valid
  | @more t t' due last past found rest ih =>
    obtain ⟨all,final⟩ := ih (follows.valid t t' valid found)
    exact ⟨List.forall_mem_cons.mpr ⟨valid,all⟩,final⟩

theorem Collects.within : ∀ v ∈ due, stamp t ≤ stamp v ∧ stamp v ≤ now := by
  induction path with
  | stop => intro v member; cases member
  | @more t t' due last past found rest ih =>
    intro v member
    rcases List.mem_cons.mp member with rfl | member
    · exact ⟨le_refl _,past⟩
    · obtain ⟨low,high⟩ := ih (follows.valid t t' valid found) v member
      exact ⟨le_trans (le_of_lt (follows.later t t' valid found)) low,high⟩

theorem Collects.ascending : due.Pairwise (fun a b => stamp a < stamp b) := by
  induction path with
  | stop => exact .nil
  | @more t t' due last past found rest ih =>
    have inner := follows.valid t t' valid found
    refine .cons ?_ (ih inner)
    intro v member
    exact lt_of_lt_of_le (follows.later t t' valid found) (rest.within follows inner v member).1

theorem Collects.occurs : (∀ v ∈ due, v = t ∨ Occurs v) ∧ (last = t ∨ Occurs last) := by
  induction path with
  | stop =>
    constructor
    · intro v member
      cases member
    · exact .inl rfl
  | @more t t' due last past found rest ih =>
    obtain ⟨all,final⟩ := ih (follows.valid t t' valid found)
    have named : Occurs t' := follows.occurs t t' valid found
    constructor
    · intro v member
      rcases List.mem_cons.mp member with rfl | member
      · exact .inl rfl
      · rcases all v member with rfl | occurs
        · exact .inr named
        · exact .inr occurs
    · rcases final with rfl | occurs
      · exact .inr named
      · exact .inr occurs

theorem Collects.complete (occurs : Occurs u) (reached : stamp t ≤ stamp u) (past : stamp u ≤ now) :
    ∃ v ∈ due, stamp v = stamp u := by
  induction path with
  | stop future => exact absurd (le_trans reached past) (not_le.mpr future)
  | @more t t' due last _ found rest ih =>
    rcases lt_or_eq_of_le reached with below | same
    · obtain ⟨v,member,same⟩ := ih (follows.valid t t' valid found) (follows.first t t' u valid found occurs below)
      exact ⟨v,List.mem_cons_of_mem _ member,same⟩
    · exact ⟨t,List.mem_cons_self,same⟩

theorem Collects.next_first (occurs : Occurs u) (reached : stamp t ≤ stamp u) (future : now < stamp u) :
    stamp last ≤ stamp u := by
  induction path with
  | stop => exact reached
  | @more t t' due last past found rest ih =>
    exact ih (follows.valid t t' valid found)
      (follows.first t t' u valid found occurs (lt_of_le_of_lt past future))

end

end Kronos.Recurrence
