import Kronos.Scheduler
import Mathlib.Logic.Function.Basic

namespace Kronos.JobQueue
open ByteRange Utf8 Scheduler Function

-- A target without an entry in a map reads as idle and as one with nothing queued.
structure TargetQueue where
  running : Bytes → Bool
  queued : Bytes → List DueJob

def newTargetQueue : TargetQueue := ⟨fun _ => false,fun _ => []⟩

namespace TargetQueue

-- One turn of the loop of Enqueue.
def enqueueOne (q : TargetQueue) (job : DueJob) : TargetQueue × List DueJob :=
  if q.running job.targetID = false then ({q with running := update q.running job.targetID true},[job])
  else ({q with queued := update q.queued job.targetID (q.queued job.targetID ++ [job])},[])

def enqueue : TargetQueue → List DueJob → TargetQueue × List DueJob
  | q,[] => (q,[])
  | q,job :: rest =>
    let (q,first) := q.enqueueOne job
    let (q,ready) := enqueue q rest
    (q,first ++ ready)

def complete (q : TargetQueue) (targetID : Bytes) : TargetQueue × Option DueJob :=
  match q.queued targetID with
  | [] => (⟨update q.running targetID false,update q.queued targetID []⟩,none)
  | next :: rest => (⟨update q.running targetID true,update q.queued targetID rest⟩,some next)

def pending (q : TargetQueue) (targetID : Bytes) : Nat := (q.queued targetID).length

end TargetQueue

def ofTarget (target : Bytes) (jobs : List DueJob) : List DueJob :=
  jobs.filter (fun job => decide (job.targetID = target))

theorem ofTarget_own (own : job.targetID = target) : ofTarget target [job] = [job] := by
  simp [ofTarget,own]

theorem ofTarget_other (other : job.targetID ≠ target) : ofTarget target [job] = [] := by
  simp [ofTarget,other]

theorem ofTarget_append (target : Bytes) (jobs more : List DueJob) :
    ofTarget target (jobs ++ more) = ofTarget target jobs ++ ofTarget target more := List.filter_append _ _

theorem ofTarget_count (job : DueJob) (jobs : List DueJob) : (ofTarget job.targetID jobs).count job = jobs.count job := by
  rw [ofTarget,List.count_filter]
  exact decide_eq_true rfl

-- A queue with what came in, what went out, and the target of each completed job.
structure History where
  queue : TargetQueue
  enqueued : List DueJob
  handed : List DueJob
  completed : List Bytes

namespace History

def start : History := ⟨newTargetQueue,[],[],[]⟩

def enqueue (h : History) (jobs : List DueJob) : History :=
  ⟨(h.queue.enqueue jobs).1,h.enqueued ++ jobs,h.handed ++ (h.queue.enqueue jobs).2,h.completed⟩

def complete (h : History) (target : Bytes) : History :=
  ⟨(h.queue.complete target).1,h.enqueued,h.handed ++ (h.queue.complete target).2.toList,target :: h.completed⟩

-- A job of the target was handed out and is not completed.
def Active (h : History) (target : Bytes) : Prop := h.completed.count target < (ofTarget target h.handed).length

inductive Reached : History → Prop
  | start : Reached start | enqueue {h : History} (jobs : List DueJob) : Reached h → Reached (h.enqueue jobs)
  | complete {h : History} {target : Bytes} : Reached h → h.Active target → Reached (h.complete target)

-- What concerns one target.
structure View where
  enqueued : List DueJob
  handed : List DueJob
  queued : List DueJob
  completed : Nat
  running : Bool

def view (h : History) (target : Bytes) : View :=
  ⟨ofTarget target h.enqueued,ofTarget target h.handed,h.queue.queued target,h.completed.count target,h.queue.running target⟩

structure View.Sound (v : View) : Prop where
  order : v.handed ++ v.queued = v.enqueued
  level : v.handed.length = v.completed + v.running.toNat
  idle : v.running = false → v.queued = []

variable {h : History} {target : Bytes}

def enqueueOne (h : History) (job : DueJob) : History :=
  ⟨(h.queue.enqueueOne job).1,h.enqueued ++ [job],h.handed ++ (h.queue.enqueueOne job).2,h.completed⟩

theorem enqueueOne_own (job : DueJob) : (h.enqueueOne job).view job.targetID =
    let v := h.view job.targetID
    if v.running = false then {v with enqueued := v.enqueued ++ [job],handed := v.handed ++ [job],running := true}
    else {v with enqueued := v.enqueued ++ [job],queued := v.queued ++ [job]} := by
  by_cases free : h.queue.running job.targetID = false <;>
    simp [view,enqueueOne,TargetQueue.enqueueOne,free,ofTarget_append,ofTarget_own]

theorem enqueueOne_other (other : job.targetID ≠ target) : (h.enqueueOne job).view target = h.view target := by
  by_cases free : h.queue.running job.targetID = false <;>
    simp [view,enqueueOne,TargetQueue.enqueueOne,free,ofTarget_append,ofTarget_other other,update_of_ne (Ne.symm other)]

theorem enqueueOne_preserves (holds : ∀ target, (h.view target).Sound) (job : DueJob) (target : Bytes) :
    ((h.enqueueOne job).view target).Sound := by
  by_cases own : job.targetID = target
  · subst own
    obtain ⟨order,level,idle⟩ := holds job.targetID
    rw [enqueueOne_own]
    dsimp only
    split
    · rename_i free
      have empty := idle free
      rw [empty,List.append_nil] at order
      refine ⟨?_,?_,nofun⟩
      · simp [empty,order]
      · simpa [free] using level
    · rename_i taken
      exact ⟨by simp [← order],level,fun free => absurd free taken⟩
  · rw [enqueueOne_other own]
    exact holds target

theorem enqueue_cons (h : History) (job : DueJob) (rest : List DueJob) :
    h.enqueue (job :: rest) = (h.enqueueOne job).enqueue rest := by
  simp only [enqueue,enqueueOne,TargetQueue.enqueue,List.append_assoc,List.singleton_append]

theorem enqueue_preserves (jobs : List DueJob) (holds : ∀ target, (h.view target).Sound) :
    ∀ target, ((h.enqueue jobs).view target).Sound := by
  induction jobs generalizing h with
  | nil =>
    simp only [enqueue,TargetQueue.enqueue,List.append_nil]
    exact holds
  | cons job _ ih =>
    rw [enqueue_cons]
    exact ih (enqueueOne_preserves holds job)

theorem complete_other (mine : ∀ next ∈ h.queue.queued done, next.targetID = done) (other : done ≠ target) :
    (h.complete done).view target = h.view target := by
  cases waiting : h.queue.queued done with
  | nil => simp [view,complete,TargetQueue.complete,waiting,update_of_ne (Ne.symm other),List.count_cons_of_ne other]
  | cons next =>
    have apart : next.targetID ≠ target := by
      rw [mine next (by simp [waiting])]
      exact other
    simp [view,complete,TargetQueue.complete,waiting,ofTarget_append,ofTarget_other apart,update_of_ne (Ne.symm other),
      List.count_cons_of_ne other]

theorem complete_preserves (holds : ∀ target, (h.view target).Sound) (active : h.Active done) (target : Bytes) :
    ((h.complete done).view target).Sound := by
  obtain ⟨order,level,_⟩ := holds done
  -- what waits under a target are jobs of that target
  have mine : ∀ next ∈ h.queue.queued done, next.targetID = done := by
    intro next waits
    have member : next ∈ (h.view done).enqueued := order ▸ List.mem_append_right _ waits
    exact of_decide_eq_true (List.mem_filter.mp member).2
  by_cases own : done = target
  · subst own
    have running : h.queue.running done = true := by
      by_contra rests
      rw [view,Bool.eq_false_of_not_eq_true rests] at level
      exact Nat.lt_irrefl _ (Nat.lt_of_lt_of_eq active level)
    rw [view,running] at level
    rw [view] at order
    cases waiting : h.queue.queued done with
    | nil =>
      rw [waiting] at order
      refine ⟨?_,?_,fun _ => ?_⟩ <;> simp [view,complete,TargetQueue.complete,waiting]
      · simpa using order
      · exact level
    | cons next =>
      rw [waiting] at order
      have same := mine next (by simp [waiting])
      refine ⟨?_,?_,?_⟩ <;> simp [view,complete,TargetQueue.complete,waiting,ofTarget_append,ofTarget_own same]
      · exact order
      · exact level
  · rw [complete_other mine own]
    exact holds target

theorem reached_sound (reached : Reached h) : ∀ target, (h.view target).Sound := by
  induction reached with
  | start => exact fun _ => ⟨rfl,rfl,fun _ => rfl⟩
  | enqueue jobs _ ih => exact enqueue_preserves jobs ih
  | complete _ active ih => exact complete_preserves ih active

-- A target has at most one job out, its jobs go out in the order they came in,
-- and every job is out or waiting, as often as it came in.
theorem queue_serial_and_lossless (reached : Reached h) :
    (∀ target, (ofTarget target h.handed).length ≤ h.completed.count target + 1) ∧
    (∀ target, ofTarget target h.handed ++ h.queue.queued target = ofTarget target h.enqueued) ∧
    ∀ job, h.enqueued.count job = h.handed.count job + (h.queue.queued job.targetID).count job := by
  have holds := reached_sound reached
  refine ⟨?_,fun target => (holds target).order,?_⟩
  · intro target
    have level := (holds target).level
    have one := (h.view target).running.toNat_le
    rw [view] at level one
    dsimp only at level one
    omega
  · intro job
    have same := congrArg (List.count job) (holds job.targetID).order
    rw [view,List.count_append,ofTarget_count,ofTarget_count] at same
    exact same.symm

end History

def jobFor (target : Bytes) (due : Int) : DueJob := ⟨ascii "s",target,ascii "st",ascii "full",[],⟨[],[]⟩,⟨due,0⟩,⟨due,0⟩⟩

def twoTargets : History :=
  (History.start.enqueue [jobFor (ascii "a") 1,jobFor (ascii "b") 2,jobFor (ascii "a") 3]).complete (ascii "a")

theorem two_targets_serial : twoTargets.handed = [jobFor (ascii "a") 1,jobFor (ascii "b") 2,jobFor (ascii "a") 3] ∧
    (ofTarget (ascii "a") twoTargets.handed).length ≤ twoTargets.completed.count (ascii "a") + 1 := by
  have reached : History.Reached twoTargets := .complete (.enqueue _ .start) (by unfold History.Active; decide)
  exact ⟨by decide,(History.queue_serial_and_lossless reached).1 (ascii "a")⟩

end Kronos.JobQueue
