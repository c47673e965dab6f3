import Mathlib.Logic.Function.Basic

namespace Kronos.Interleaving

-- A program whose steps are atomic operations on a state that others share.
inductive Program (Op : Type) (Reply : Op → Type) (α : Type)
  | done (result : α) | call (op : Op) (next : Reply op → Program Op Reply α)

variable {Op : Type} {Reply : Op → Type} {α β σ R : Type}

namespace Program

def bind : Program Op Reply α → (α → Program Op Reply β) → Program Op Reply β
  | .done a,f => f a
  | .call op next,f => .call op (fun reply => (next reply).bind f)

instance : Monad (Program Op Reply) where
  pure := .done
  bind := bind

theorem bind_assoc {γ : Type} (p : Program Op Reply α) (f : α → Program Op Reply β) (g : β → Program Op Reply γ) :
    (p.bind f).bind g = p.bind (fun a => (f a).bind g) := by
  induction p with
  | done => rfl
  | call op _ ih =>
    change call op _ = call op _
    congr 1
    funext reply
    exact ih reply

theorem bind_done (p : Program Op Reply α) : p.bind .done = p := by
  induction p with
  | done => rfl
  | call op _ ih =>
    change call op _ = call op _
    congr 1
    funext reply
    exact ih reply

def ask (op : Op) : Program Op Reply (Reply op) := .call op .done

def run (exec : (op : Op) → σ → Reply op × σ) : Program Op Reply α → σ → α × σ
  | .done a,s => (a,s)
  | .call op next,s => run exec (next (exec op s).1) (exec op s).2

theorem run_bind (exec : (op : Op) → σ → Reply op × σ) (p : Program Op Reply α) (f : α → Program Op Reply β) (s : σ) :
    run exec (p >>= f) s = run exec (f (run exec p s).1) (run exec p s).2 := by
  induction p generalizing s with
  | done => rfl
  | call op _ ih => exact ih (exec op s).1 (exec op s).2

end Program

-- Requests that are being handled, each at its place, and the operations that
-- were performed, the last one first.
structure System (σ R : Type) (Op : Type) (Reply : Op → Type) (α : Type) where
  state : σ
  tasks : Nat → Option (R × Program Op Reply α)
  log : List Op

inductive Move (R Op : Type)
  | accept (place : Nat) (request : R) | perform (place : Nat) (op : Op)

section
variable (exec : (op : Op) → σ → Reply op × σ) (handler : R → Program Op Reply α)

inductive Step (s : System σ R Op Reply α) : Move R Op → System σ R Op Reply α → Prop
  | accept (place : Nat) (request : R) (free : s.tasks place = none) :
      Step s (.accept place request) {s with tasks := Function.update s.tasks place (some (request,handler request))}
  | perform (place : Nat) (request : R) (op : Op) (next : Reply op → Program Op Reply α)
      (turn : s.tasks place = some (request,.call op next)) :
      Step s (.perform place op) {
        state := (exec op s.state).2
        tasks := Function.update s.tasks place (some (request,next (exec op s.state).1))
        log := op :: s.log}

inductive Reached (allowed : System σ R Op Reply α → Move R Op → Prop) (first : σ) : System σ R Op Reply α → Prop
  | start : Reached allowed first ⟨first,fun _ => none,[]⟩
  | step {s next : System σ R Op Reply α} {move : Move R Op} (before : Reached allowed first s)
      (step : Step exec handler s move next) (may : allowed s move) : Reached allowed first next

end

section
variable {exec : (op : Op) → σ → Reply op × σ} {handler : R → Program Op Reply α}
  {allowed : System σ R Op Reply α → Move R Op → Prop} {first : σ} {s next : System σ R Op Reply α} {move : Move R Op}

theorem Reached.invariant {invariant : System σ R Op Reply α → Prop} (starts : invariant ⟨first,fun _ => none,[]⟩)
    (keeps : ∀ s move next, Step exec handler s move next → allowed s move → invariant s → invariant next)
    (reached : Reached exec handler allowed first s) : invariant s := by
  induction reached with
  | start => exact starts
  | step _ step may ih => exact keeps _ _ _ step may ih

theorem updated_task {T : Type} {task found : T} {tasks : Nat → Option T}
    (there : Function.update tasks place (some task) other = some found) :
    (other = place ∧ found = task) ∨ (other ≠ place ∧ tasks other = some found) := by
  by_cases same : other = place
  · subst same
    rw [Function.update_self] at there
    exact Or.inl ⟨rfl,(Option.some.inj there).symm⟩
  · rw [Function.update_of_ne same] at there
    exact Or.inr ⟨same,there⟩

def row {T : Type} (tasks : List T) (place : Nat) : Option T := tasks[place]?

theorem row_append {T : Type} (tasks : List T) (task : T) :
    Function.update (row tasks) tasks.length (some task) = row (tasks ++ [task]) := by
  funext place
  unfold row
  by_cases same : place = tasks.length
  · subst same
    rw [Function.update_self,List.getElem?_concat_length]
  · rw [Function.update_of_ne same]
    by_cases inside : place < tasks.length
    · rw [List.getElem?_append_left inside]
    · rw [List.getElem?_eq_none (by omega),List.getElem?_eq_none (by rw [List.length_append,List.length_singleton]; omega)]

theorem row_set {T : Type} {tasks : List T} (inside : place < tasks.length) (task : T) :
    Function.update (row tasks) place (some task) = row (tasks.set place task) := by
  funext other
  unfold row
  by_cases same : other = place
  · subst same
    rw [Function.update_self,List.getElem?_set_self inside]
  · rw [Function.update_of_ne same,List.getElem?_set_ne (Ne.symm same)]

theorem Reached.none : Reached exec handler allowed first ⟨first,row [],[]⟩ := by
  exact .start

section
variable {state : σ} {tasks : List (R × Program Op Reply α)} {log : List Op}

theorem Reached.accepts (before : Reached exec handler allowed first ⟨state,row tasks,log⟩) (request : R)
    (may : allowed ⟨state,row tasks,log⟩ (.accept tasks.length request)) :
    Reached exec handler allowed first ⟨state,row (tasks ++ [(request,handler request)]),log⟩ := by
  rw [← row_append]
  exact .step before (.accept tasks.length request (List.getElem?_eq_none (Nat.le_refl _))) may

theorem Reached.performs (before : Reached exec handler allowed first ⟨state,row tasks,log⟩) (place : Nat)
    {after : Reply op → Program Op Reply α} (turn : tasks[place]? = some (request,.call op after))
    (may : allowed ⟨state,row tasks,log⟩ (.perform place op)) : Reached exec handler allowed first
      ⟨(exec op state).2,row (tasks.set place (request,after (exec op state).1)),op :: log⟩ := by
  rw [← row_set (List.getElem?_eq_some_iff.1 turn).1]
  exact .step before (.perform place request op after turn) may

-- One task takes its turns until a part of its program is done, and the others wait.
theorem Reached.runs {β : Type} (may : ∀ s place op, allowed s (.perform place op)) (part : Program Op Reply β)
    {rest : β → Program Op Reply α} (before : Reached exec handler allowed first ⟨state,row tasks,log⟩)
    (turn : tasks[place]? = some (request,part.bind rest)) : ∃ log, Reached exec handler allowed first
      ⟨(part.run exec state).2,row (tasks.set place (request,rest (part.run exec state).1)),log⟩ := by
  induction part generalizing state tasks log with
  | done b =>
    have same : tasks.set place (request,rest b) = tasks := by
      obtain ⟨inside,found⟩ := List.getElem?_eq_some_iff.1 turn
      change tasks[place] = (request,rest b) at found
      rw [← found,List.set_getElem_self]
    exact ⟨log,by rw [Program.run,same]; exact before⟩
  | call op _ ih =>
    obtain ⟨inside,_⟩ := List.getElem?_eq_some_iff.1 turn
    have performed := before.performs place turn (may _ _ _)
    obtain ⟨log,reached⟩ := ih (exec op state).1 performed (List.getElem?_set_self inside)
    rw [List.set_set] at reached
    exact ⟨log,reached⟩

end
end
end Kronos.Interleaving
