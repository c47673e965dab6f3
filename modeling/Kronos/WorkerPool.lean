import Mathlib.Data.List.Basic
import Mathlib.Algebra.Ring.Nat

namespace Kronos.WorkerPool

-- A bounded channel: what waits in it, and whether its sender closed it.
structure Channel (α : Type) where
  queue : List α
  closed : Bool

def Channel.empty : Channel α := ⟨[],false⟩

-- A worker of a stage: waiting for an item, holding one it has received, working
-- on it, sending the result on, or gone.
inductive Worker (α β : Type)
  | idle | holding (item : α) | working (item : α) | sending (item : β) | gone

def Worker.held : Worker α β → List α
  | .holding item => [item]
  | .working item => [item]
  | _ => []

def Worker.ready : Worker α β → List β
  | .sending item => [item]
  | _ => []

def held (workers : List (Worker α β)) : List α := workers.flatMap Worker.held

def ready (workers : List (Worker α β)) : List β := workers.flatMap Worker.ready

def Turns (old new : Worker α β) (before after : List (Worker α β)) : Prop :=
  ∃ left right, before = left ++ old :: right ∧ after = left ++ new :: right

structure Stage (α β : Type) where
  input : Channel α
  workers : List (Worker α β)
  output : Channel β

theorem perm_deeper (split : whole.Perm (item :: rest)) (front : List α) :
    (front ++ whole).Perm (item :: (front ++ rest)) :=
  (split.append_left front).trans List.perm_middle

-- What holds of all items where some are moved, one is taken or one is added.
section
variable {P : α → Prop} {before after : List α} {item : α}

theorem moved_all (same : after.Perm before) (all : ∀ a ∈ before, P a) : ∀ a ∈ after, P a :=
  fun a member => all a (same.mem_iff.mp member)

theorem taken_all (taken : before.Perm (item :: after)) (all : ∀ a ∈ before, P a) : P item ∧ ∀ a ∈ after, P a :=
  List.forall_mem_cons.mp (moved_all taken.symm all)

theorem added_all (added : after.Perm (item :: before)) (new : P item) (all : ∀ a ∈ before, P a) : ∀ a ∈ after, P a :=
  moved_all added (List.forall_mem_cons.mpr ⟨new,all⟩)

end

-- What a stage does apart from the work itself. The output is closed by the one
-- who waits for the workers.
inductive Move (capacity : Nat) (before after : Stage α β) : Prop
  | receive (item : α) (rest : List α) (next : before.input.queue = item :: rest)
      (turn : Turns .idle (.holding item) before.workers after.workers)
      (input : after.input = ⟨rest,before.input.closed⟩) (output : after.output = before.output)
  | finish (drained : before.input.queue = []) (closed : before.input.closed = true)
      (turn : Turns .idle .gone before.workers after.workers)
      (input : after.input = before.input) (output : after.output = before.output)
  | send (item : β) (room : before.output.queue.length < capacity) (unclosed : before.output.closed = false)
      (turn : Turns (.sending item) .idle before.workers after.workers)
      (input : after.input = before.input) (output : after.output = ⟨before.output.queue ++ [item],false⟩)
  | close (left : ∀ worker ∈ before.workers, worker = .gone) (unclosed : before.output.closed = false)
      (workers : after.workers = before.workers)
      (input : after.input = before.input) (output : after.output = ⟨before.output.queue,true⟩)

section
variable {old new : Worker α β} {before after : List (Worker α β)}

theorem Turns.held (turn : Turns old new before after) :
    ∃ others, (held before).Perm (old.held ++ others) ∧ (WorkerPool.held after).Perm (new.held ++ others) := by
  obtain ⟨left,right,rfl,rfl⟩ := turn
  refine ⟨WorkerPool.held left ++ WorkerPool.held right,?_,?_⟩
  all_goals
    simp only [WorkerPool.held,List.flatMap_append,List.flatMap_cons]
    rw [← List.append_assoc,← List.append_assoc]
    exact List.Perm.append_right _ List.perm_append_comm

theorem Turns.ready (turn : Turns old new before after) :
    ∃ others, (ready before).Perm (old.ready ++ others) ∧ (WorkerPool.ready after).Perm (new.ready ++ others) := by
  obtain ⟨left,right,rfl,rfl⟩ := turn
  refine ⟨WorkerPool.ready left ++ WorkerPool.ready right,?_,?_⟩
  all_goals
    simp only [WorkerPool.ready,List.flatMap_append,List.flatMap_cons]
    rw [← List.append_assoc,← List.append_assoc]
    exact List.Perm.append_right _ List.perm_append_comm

theorem Turns.keeps (turn : Turns old new before after) (sameHeld : new.held = old.held)
    (sameReady : new.ready = old.ready) :
    (WorkerPool.held after).Perm (WorkerPool.held before) ∧ (WorkerPool.ready after).Perm (WorkerPool.ready before) := by
  obtain ⟨_,heldBefore,heldAfter⟩ := turn.held
  obtain ⟨_,readyBefore,readyAfter⟩ := turn.ready
  rw [sameHeld] at heldAfter
  rw [sameReady] at readyAfter
  exact ⟨heldAfter.trans heldBefore.symm,readyAfter.trans readyBefore.symm⟩

theorem Turns.works (turn : Turns (.working item) (.sending result) before after) :
    (WorkerPool.held before).Perm (item :: WorkerPool.held after) ∧
      (WorkerPool.ready after).Perm (result :: WorkerPool.ready before) := by
  obtain ⟨_,heldBefore,heldAfter⟩ := turn.held
  obtain ⟨_,readyBefore,readyAfter⟩ := turn.ready
  exact ⟨heldBefore.trans (heldAfter.symm.cons item),readyAfter.trans (readyBefore.symm.cons result)⟩

theorem Turns.weight (turn : Turns old new before after) (weigh : Worker α β → Nat) :
    (before.map weigh).sum + weigh new = (after.map weigh).sum + weigh old := by
  obtain ⟨_,_,rfl,rfl⟩ := turn
  simp only [List.map_append,List.map_cons,List.sum_append,List.sum_cons]
  omega

theorem Turns.length (turn : Turns old new before after) : after.length = before.length := by
  obtain ⟨_,_,rfl,rfl⟩ := turn
  simp

theorem Turns.mem (turn : Turns old new before after) (member : worker ∈ after) : worker = new ∨ worker ∈ before := by
  obtain ⟨_,_,rfl,rfl⟩ := turn
  simp only [List.mem_append,List.mem_cons] at member ⊢
  tauto

theorem Turns.was (turn : Turns old new before after) : old ∈ before := by
  obtain ⟨_,_,rfl,rfl⟩ := turn
  simp

theorem turns_of_mem (member : old ∈ before) (new : Worker α β) : ∃ after, Turns old new before after := by
  obtain ⟨left,right,rfl⟩ := List.append_of_mem member
  exact ⟨_,left,right,rfl,rfl⟩

end

-- The items that came in and are not worked on yet, and those that are done.
def Stage.waiting (stage : Stage α β) : List α := stage.input.queue ++ held stage.workers

def Stage.done (stage : Stage α β) : List β := ready stage.workers ++ stage.output.queue

section
variable {capacity : Nat} {before after : Stage α β}

theorem Move.waiting (move : Move capacity before after) : after.waiting.Perm before.waiting := by
  cases move with
  | receive item rest next turn input =>
    obtain ⟨_,was,is⟩ := turn.held
    simp only [Stage.waiting,input,next]
    refine (is.append_left rest).trans (List.Perm.trans ?_ (was.append_left (item :: rest)).symm)
    exact List.perm_middle
  | finish _ _ turn input | send _ _ _ turn input =>
    obtain ⟨_,was,is⟩ := turn.held
    simp only [Stage.waiting,input]
    exact (is.trans was.symm).append_left _
  | close _ _ workers input =>
    rw [Stage.waiting,Stage.waiting,input,workers]

theorem Move.done (move : Move capacity before after) : after.done.Perm before.done := by
  cases move with
  | receive _ _ _ turn _ output | finish _ _ turn _ output =>
    obtain ⟨_,was,is⟩ := turn.ready
    simp only [Stage.done,output]
    exact (is.trans was.symm).append_right _
  | send _ _ _ turn _ output =>
    obtain ⟨_,was,is⟩ := turn.ready
    simp only [Stage.done,output]
    refine (is.append_right _).trans (List.Perm.trans ?_ (was.append_right _).symm)
    rw [← List.append_assoc]
    exact List.perm_append_singleton _ _
  | close _ _ workers _ output =>
    rw [Stage.done,Stage.done,output,workers]

theorem Move.length (move : Move capacity before after) : after.workers.length = before.workers.length := by
  cases move with
  | receive _ _ _ turn | finish _ _ turn | send _ _ _ turn => exact turn.length
  | close _ _ workers => rw [workers]

theorem Move.input_closed (move : Move capacity before after) : after.input.closed = before.input.closed := by
  cases move with
  | receive _ _ _ _ input => rw [input]
  | finish _ _ _ input => rw [input]
  | send _ _ _ _ input => rw [input]
  | close _ _ _ input => rw [input]

theorem Move.output_closed (move : Move capacity before after) (closed : before.output.closed = true) :
    after.output = before.output := by
  cases move with
  | receive _ _ _ _ _ output | finish _ _ _ _ output => exact output
  | send _ _ unclosed | close _ unclosed =>
    rw [closed] at unclosed; cases unclosed

-- A closed output has no worker behind it.
def Over (stage : Stage α β) : Prop := stage.output.closed = true → ∀ worker ∈ stage.workers, worker = .gone

-- A worker that left did so because nothing was to come.
def Drained (stage : Stage α β) : Prop := .gone ∈ stage.workers → stage.input.closed = true ∧ stage.input.queue = []

theorem Over.turn {old new : Worker α β} {workers : List (Worker α β)} (past : Over before)
    (turn : Turns old new before.workers workers) (busy : old ≠ .gone) : before.output.closed = false := by
  cases closed : before.output.closed with
  | false => rfl
  | true => exact absurd (past closed old turn.was) busy

theorem Over.turned (past : Over before) (turn : Turns old new before.workers workers) (busy : old ≠ .gone) :
    Over ⟨before.input,workers,before.output⟩ := by
  intro closed
  have unclosed := past.turn turn busy
  rw [closed] at unclosed
  cases unclosed

theorem Drained.turned (clean : Drained before) (turn : Turns old new before.workers workers) (stays : new ≠ .gone) :
    Drained ⟨before.input,workers,before.output⟩ := by
  intro gone
  rcases turn.mem gone with same | old
  · exact absurd same.symm stays
  · exact clean old

theorem Drained.ended (clean : Drained before) (some : before.workers ≠ [])
    (left : ∀ worker ∈ before.workers, worker = .gone) :
    before.input.closed = true ∧ before.waiting = [] ∧ WorkerPool.ready before.workers = [] := by
  obtain ⟨worker,member⟩ := List.exists_mem_of_ne_nil _ some
  have gone := left worker member
  subst gone
  obtain ⟨closed,empty⟩ := clean member
  refine ⟨closed,?_,?_⟩
  · rw [Stage.waiting,empty,List.nil_append,held,List.flatMap_eq_nil_iff]
    intro other member
    rw [left other member]
    rfl
  · rw [ready,List.flatMap_eq_nil_iff]
    intro other member
    rw [left other member]
    rfl

theorem Turns.some {before after : List (Worker α β)} (turn : Turns old new before after) : after ≠ [] := by
  obtain ⟨_,_,rfl,rfl⟩ := turn
  simp

theorem Move.some (move : Move capacity before after) (some : before.workers ≠ []) : after.workers ≠ [] := by
  apply List.ne_nil_of_length_pos
  rw [move.length]
  exact List.length_pos_iff.mpr some

theorem Move.keepsOver (move : Move capacity before after) (past : Over before) : Over after := by
  cases move with
  | receive _ _ _ turn _ output | finish _ closed turn _ output =>
    intro closed
    rw [output,past.turn turn nofun] at closed
    cases closed
  | send _ _ _ _ _ output =>
    intro closed
    rw [output] at closed
    cases closed
  | close left _ workers =>
    intro _
    rw [workers]
    exact left

theorem Move.drained (move : Move capacity before after) (clean : Drained before) : Drained after := by
  cases move with
  | receive _ _ next turn =>
    intro gone
    rcases turn.mem gone with same | old
    · cases same
    · have empty := (clean old).2
      rw [next] at empty
      cases empty
  | finish drained closed _ input =>
    intro _
    rw [input]
    exact ⟨closed,drained⟩
  | send _ _ _ turn input =>
    intro gone
    rw [input]
    rcases turn.mem gone with same | old
    · cases same
    · exact clean old
  | close _ _ workers input =>
    intro gone
    rw [workers] at gone
    rw [input]
    exact clean gone

-- The weight of an item falls with every place it passes on its way from the
-- input to the output, and a worker that leaves is weight gone.
def Worker.weight (k : Nat) : Worker α β → Nat
  | .idle => 1
  | .holding _ => k + 4
  | .working _ => k + 3
  | .sending _ => k + 2
  | .gone => 0

def Channel.weight (k : Nat) (channel : Channel α) : Nat :=
  k * channel.queue.length + if channel.closed then 0 else 1

def weight (k : Nat) (workers : List (Worker α β)) : Nat := (workers.map (Worker.weight k)).sum

theorem Move.lighter (move : Move capacity before after) (k : Nat) :
    after.input.weight (k + 4) + weight k after.workers + after.output.weight k <
      before.input.weight (k + 4) + weight k before.workers + before.output.weight k := by
  cases move with
  | receive _ _ next turn input output =>
    have moved := turn.weight (Worker.weight k)
    simp only [Channel.weight,weight,input,output,next,List.length_cons,Nat.mul_add]
    simp only [Worker.weight] at moved
    omega
  | finish _ _ turn input output =>
    have moved := turn.weight (Worker.weight k)
    simp only [Channel.weight,weight,input,output]
    simp only [Worker.weight] at moved
    omega
  | send _ _ unclosed turn input output =>
    have moved := turn.weight (Worker.weight k)
    simp only [Channel.weight,weight,input,output,unclosed,List.length_append,List.length_singleton,Nat.mul_add]
    simp only [Worker.weight] at moved
    omega
  | close _ unclosed workers input output =>
    simp only [Channel.weight,weight,input,output,workers,unclosed,if_true,Bool.false_eq_true,if_false]
    omega

theorem moves (room : 0 < capacity) (empty : before.output.queue = []) (unclosed : before.output.closed = false) :
    (∃ after, Move capacity before after) ∨ (∃ item, .holding item ∈ before.workers) ∨
      (∃ item, .working item ∈ before.workers) ∨
      (before.input.queue = [] ∧ before.input.closed = false) := by
  by_cases left : ∀ worker ∈ before.workers, worker = .gone
  · exact Or.inl ⟨⟨before.input,before.workers,⟨before.output.queue,true⟩⟩,.close left unclosed rfl rfl rfl⟩
  · simp only [not_forall] at left
    obtain ⟨worker,member,stays⟩ := left
    cases worker with
    | gone => exact absurd rfl stays
    | holding item => exact Or.inr (Or.inl ⟨item,member⟩)
    | working item => exact Or.inr (Or.inr (Or.inl ⟨item,member⟩))
    | sending item =>
      obtain ⟨workers,turn⟩ := turns_of_mem member .idle
      refine Or.inl ⟨⟨before.input,workers,⟨before.output.queue ++ [item],false⟩⟩,?_⟩
      exact .send item (by rw [empty]; exact room) unclosed turn rfl rfl
    | idle =>
      cases next : before.input.queue with
      | cons item rest =>
        obtain ⟨workers,turn⟩ := turns_of_mem member (.holding item)
        exact Or.inl ⟨⟨⟨rest,before.input.closed⟩,workers,before.output⟩,.receive item rest next turn rfl rfl⟩
      | nil =>
        cases closed : before.input.closed with
        | false => exact Or.inr (Or.inr (Or.inr ⟨rfl,rfl⟩))
        | true =>
          obtain ⟨workers,turn⟩ := turns_of_mem member .gone
          exact Or.inl ⟨⟨before.input,workers,before.output⟩,.finish next closed turn rfl rfl⟩

end
end Kronos.WorkerPool
