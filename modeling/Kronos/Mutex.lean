import Kronos.Interleaving

namespace Kronos.Mutex
open Interleaving

-- Requests that do all their work while they hold one lock.
inductive GuardedOp (Op : Type)
  | lock | unlock | inside (op : Op)

structure Locked (σ : Type) where
  state : σ
  held : Bool

variable {Op R α σ : Type} {Reply : Op → Type}

@[reducible]
def GuardedReply (Reply : Op → Type) : GuardedOp Op → Type
  | .lock => Unit
  | .unlock => Unit
  | .inside op => Reply op

abbrev Guarded (Op : Type) (Reply : Op → Type) (α : Type) := Program (GuardedOp Op) (GuardedReply Reply) α

abbrev GuardedSystem (σ R Op : Type) (Reply : Op → Type) (α : Type) :=
  System (Locked σ) R (GuardedOp Op) (GuardedReply Reply) α

def guardedExec (exec : (op : Op) → σ → Reply op × σ) :
    (op : GuardedOp Op) → Locked σ → GuardedReply Reply op × Locked σ
  | .lock,s => ((),{s with held := true})
  | .unlock,s => ((),{s with held := false})
  | .inside op,s => ((exec op s.state).1,{s with state := (exec op s.state).2})

def within : Program Op Reply α → Guarded Op Reply α
  | .done result => .call .unlock (fun _ => .done result)
  | .call op next => .call (.inside op) (fun reply => within (next reply))

def guarded (program : Program Op Reply α) : Guarded Op Reply α := .call .lock (fun _ => within program)

-- A request that is turned away at the door never asks for the lock.
def handle (refuse : R → Option α) (body : R → Program Op Reply α) (request : R) : Guarded Op Reply α :=
  match refuse request with
  | some answer => .done answer
  | none => guarded (body request)

theorem handle_admitted {refuse : R → Option α} {body : R → Program Op Reply α} (door : refuse request = none) :
    handle refuse body request = guarded (body request) := by
  simp only [handle,door]

-- The lock is given to one that asks for it only while nobody has it.
def Exclusive (s : GuardedSystem σ R Op Reply α) (move : Move R (GuardedOp Op)) : Prop :=
  ∀ place, move = .perform place .lock → s.state.held = false

section
variable (exec : (op : Op) → σ → Reply op × σ) (body : R → Program Op Reply α)

inductive Serial (first : σ) : List (Nat × R × α) → σ → Prop
  | start : Serial first [] first
  | next {order : List (Nat × R × α)} {s : σ} (place : Nat) (request : R) (before : Serial first order s) :
      Serial first ((place,request,((body request).run exec s).1) :: order) ((body request).run exec s).2

end

section
variable {exec : (op : Op) → σ → Reply op × σ} {refuse : R → Option α} {body : R → Program Op Reply α} {first : σ}
  {s next : GuardedSystem σ R Op Reply α} {move : Move R (GuardedOp Op)}

-- Where a request stands while some are finished and one may hold the lock.
inductive Standing (refuse : R → Option α) (body : R → Program Op Reply α) (order : List (Nat × R × α))
    (holder : Option Nat) (place : Nat) (request : R) : Guarded Op Reply α → Prop
  | refused {answer : α} (door : refuse request = some answer) : Standing refuse body order holder place request (.done answer)
  | waiting : Standing refuse body order holder place request (guarded (body request))
  | working {program : Guarded Op Reply α} (turn : holder = some place) :
      Standing refuse body order holder place request program
  | finished {result : α} (listed : (place,request,result) ∈ order) :
      Standing refuse body order holder place request (.done result)

-- The finished requests in their order. The one that holds the lock works on
-- from what they left, as if it were alone.
structure Ordered (exec : (op : Op) → σ → Reply op × σ) (refuse : R → Option α) (body : R → Program Op Reply α)
    (first : σ) (s : GuardedSystem σ R Op Reply α) (order : List (Nat × R × α)) (holder : Option Nat) : Prop where
  standing : ∀ place request program, s.tasks place = some (request,program) →
    Standing refuse body order holder place request program
  lock : s.state.held = holder.isSome
  free : holder = none → Serial exec body first order s.state.state
  busy : ∀ place, holder = some place → ∃ request rest before, s.tasks place = some (request,within rest) ∧
    Serial exec body first order before ∧ rest.run exec s.state.state = (body request).run exec before

variable {order : List (Nat × R × α)} {holder : Option Nat} {place : Nat} {request : R}

theorem ordered_start : Ordered exec refuse body first ⟨⟨first,false⟩,fun _ => none,[]⟩ [] none where
  standing := fun _ _ _ there => nomatch there
  lock := rfl
  free := fun _ => .start
  busy := fun _ held => nomatch held

theorem accept_ordered (ordered : Ordered exec refuse body first s order holder) (free : s.tasks place = none) :
    Ordered exec refuse body first
      {s with tasks := Function.update s.tasks place (some (request,handle refuse body request))} order holder where
  standing := by
    intro other asked program there
    rcases updated_task there with ⟨rfl,same⟩ | ⟨_,old⟩
    · obtain ⟨rfl,rfl⟩ := Prod.mk.inj same
      unfold handle
      split
      · rename_i answer door
        exact .refused door
      · exact .waiting
    · exact ordered.standing other asked program old
  lock := ordered.lock
  free := ordered.free
  busy := by
    intro other held
    obtain ⟨asked,rest,before,there,serial,same⟩ := ordered.busy other held
    have differ : other ≠ place := by
      intro same
      rw [same,free] at there
      cases there
    exact ⟨asked,rest,before,(Function.update_of_ne differ _ _).trans there,serial,same⟩

theorem lock_ordered (ordered : Ordered exec refuse body first s order none)
    (turn : s.tasks place = some (request,guarded (body request))) : Ordered exec refuse body first
      ⟨⟨s.state.state,true⟩,Function.update s.tasks place (some (request,within (body request))),log⟩
      order (some place) where
  standing := by
    intro other asked program there
    rcases updated_task there with ⟨rfl,_⟩ | ⟨_,old⟩
    · exact .working rfl
    · cases ordered.standing other asked program old with
      | refused door => exact .refused door
      | waiting => exact .waiting
      | working turn => cases turn
      | finished listed => exact .finished listed
  lock := rfl
  free := fun none_held => nomatch none_held
  busy := by
    intro other held
    obtain rfl := Option.some.inj held
    exact ⟨request,body request,s.state.state,Function.update_self _ _ _,ordered.free rfl,rfl⟩

theorem work_ordered {after : Reply op → Program Op Reply α}
    (ordered : Ordered exec refuse body first s order (some place))
    (turn : s.tasks place = some (request,within (.call op after))) (serial : Serial exec body first order before)
    (same : (Program.call op after).run exec s.state.state = (body request).run exec before) :
    Ordered exec refuse body first
      ⟨⟨(exec op s.state.state).2,s.state.held⟩,
        Function.update s.tasks place (some (request,within (after (exec op s.state.state).1))),log⟩
      order (some place) where
  standing := by
    intro other asked program there
    rcases updated_task there with ⟨rfl,_⟩ | ⟨_,old⟩
    · exact .working rfl
    · exact ordered.standing other asked program old
  lock := ordered.lock
  free := fun none_held => nomatch none_held
  busy := by
    intro other held
    obtain rfl := Option.some.inj held
    exact ⟨request,after (exec op s.state.state).1,before,Function.update_self _ _ _,serial,same⟩

theorem unlock_ordered (ordered : Ordered exec refuse body first s order (some place))
    (turn : s.tasks place = some (request,within (.done result))) (serial : Serial exec body first order before)
    (same : (result,s.state.state) = (body request).run exec before) : Ordered exec refuse body first
      ⟨⟨s.state.state,false⟩,Function.update s.tasks place (some (request,.done result)),log⟩
      ((place,request,result) :: order) none where
  standing := by
    intro other asked program there
    rcases updated_task there with ⟨rfl,moved⟩ | ⟨differ,old⟩
    · cases moved
      exact .finished List.mem_cons_self
    · cases ordered.standing other asked program old with
      | refused door => exact .refused door
      | waiting => exact .waiting
      | working turn => exact absurd (Option.some.inj turn).symm differ
      | finished listed => exact .finished (List.mem_cons_of_mem _ listed)
  lock := rfl
  free := by
    intro _
    have last := Serial.next place request serial
    rw [← same] at last
    exact last
  busy := fun _ held => nomatch held

theorem step_ordered (step : Step (guardedExec exec) (handle refuse body) s move next) (may : Exclusive s move)
    (ordered : Ordered exec refuse body first s order holder) :
    ∃ order holder, Ordered exec refuse body first next order holder := by
  cases step with
  | accept _ _ free => exact ⟨order,holder,accept_ordered ordered free⟩
  | perform place request op after turn =>
    generalize there : Program.call op after = program at turn
    cases ordered.standing place request program turn with
    | refused | finished => cases there
    | waiting =>
      cases there
      have idle : holder = none := by
        have free := ordered.lock.symm.trans (may place rfl)
        cases holder with
        | none => rfl
        | some => cases free
      subst idle
      exact ⟨order,some place,lock_ordered ordered turn⟩
    | working held =>
      subst held
      obtain ⟨_,rest,_,here,serial,same⟩ := ordered.busy place rfl
      rw [turn] at here
      cases here
      cases rest with
      | done =>
        cases there
        exact ⟨_,none,unlock_ordered ordered turn serial same⟩
      | call =>
        cases there
        exact ⟨order,some place,work_ordered ordered turn serial same⟩

theorem reached_ordered (reached : Reached (guardedExec exec) (handle refuse body) Exclusive ⟨first,false⟩ s) :
    ∃ order holder, Ordered exec refuse body first s order holder := by
  induction reached with
  | start => exact ⟨[],none,ordered_start⟩
  | step _ step may ih =>
    obtain ⟨_,_,ordered⟩ := ih
    exact step_ordered step may ordered

-- However requests that share a lock are interleaved, those that have an answer
-- got it as if they had been handled one after another.
theorem reached_serial (reached : Reached (guardedExec exec) (handle refuse body) Exclusive ⟨first,false⟩ s) :
    ∃ order last, Serial exec body first order last ∧
      ∀ place request result, s.tasks place = some (request,.done result) →
        refuse request = some result ∨ (place,request,result) ∈ order := by
  obtain ⟨order,holder,ordered⟩ := reached_ordered reached
  have done_listed : ∀ place request result, s.tasks place = some (request,.done result) →
      refuse request = some result ∨ (place,request,result) ∈ order := by
    intro place request result there
    generalize same : Program.done result = program at there
    cases ordered.standing place request program there with
    | refused door =>
      cases same
      exact Or.inl door
    | waiting => cases same
    | working held =>
      obtain ⟨_,rest,_,here,_⟩ := ordered.busy place held
      rw [there] at here
      cases here
      cases rest <;> cases same
    | finished listed =>
      cases same
      exact Or.inr listed
  cases holder with
  | none => exact ⟨order,s.state.state,ordered.free rfl,done_listed⟩
  | some place =>
    obtain ⟨_,_,before,_,serial,_⟩ := ordered.busy place rfl
    exact ⟨order,before,serial,done_listed⟩

-- The request that holds the lock can always be handled to its end, and so can
-- one that asks for a free lock.
theorem within_finishes (reached : Reached (guardedExec exec) (handle refuse body) Exclusive begins s)
    (turn : s.tasks place = some (request,within rest)) :
    ∃ after, Reached (guardedExec exec) (handle refuse body) Exclusive begins after ∧
      after.state = ⟨(rest.run exec s.state.state).2,false⟩ ∧
      after.tasks = Function.update s.tasks place (some (request,.done (rest.run exec s.state.state).1)) := by
  induction rest generalizing s with
  | done => exact ⟨_,reached.step (.perform place request _ _ turn) (fun _ same => nomatch same),rfl,rfl⟩
  | call op _ ih =>
    have moved := reached.step (.perform place request _ _ turn) (fun _ same => nomatch same)
    obtain ⟨after,finished,state,tasks⟩ := ih (exec op s.state.state).1 moved (Function.update_self _ _ _)
    rw [Function.update_idem] at tasks
    exact ⟨after,finished,state,tasks⟩

theorem waiting_finishes {begins : Locked σ} (reached : Reached (guardedExec exec) (handle refuse body) Exclusive begins s)
    (free : s.state.held = false) (turn : s.tasks place = some (request,guarded (body request))) :
    ∃ after, Reached (guardedExec exec) (handle refuse body) Exclusive begins after ∧
      after.state = ⟨((body request).run exec s.state.state).2,false⟩ ∧
      after.tasks = Function.update s.tasks place (some (request,.done ((body request).run exec s.state.state).1)) := by
  have moved := reached.step (.perform place request _ _ turn) (fun _ _ => free)
  obtain ⟨after,finished,state,tasks⟩ := within_finishes moved (Function.update_self _ _ _)
  rw [Function.update_idem] at tasks
  exact ⟨after,finished,state,tasks⟩

end
end Kronos.Mutex
