import Kronos.JobProtocol

namespace Kronos.JobSuccess
open ByteRange Utf8 Rfc3339 RecordTable JobRecords JobServer JobProtocol Interleaving

-- No other request is about to save a job that this one is going to save.
def Unshared (s : JobSystem) (place : Nat) (op : Op) : Prop :=
  ∀ request next, s.tasks place = some (request,.call op next) → ∀ job, Upcoming job (next (exec op s.state).1) →
    ∀ other later, other ≠ place → Pending s other later → later.id ≠ job.id

-- A request reads a job that it is going to save only while no other request is about
-- to save that job, and a new job has an ID of its own.
def Apart (s : JobSystem) : Move Request Op → Prop
  | .perform place (.get id) => Unshared s place (.get id)
  | .perform place .list => Unshared s place .list
  | .accept _ (.enqueue record _) => Fresh s record.id
  | _ => True

structure Invariant (s : JobSystem) : Prop where
  orderly : Orderly s
  apart : ∀ place other one job, Pending s place one → Pending s other job → one.id = job.id → place = other
  current : ∀ place job old, Pending s place job → s.state.jobs.get job.id = some old → old.status = .succeeded →
    job.status = .succeeded

section
variable {settings : Settings} {first : Stores} {s next : JobSystem} {move : Move Request Op} {place : Nat} {job : JobRecord}

theorem start_invariant (first : Stores) : Invariant ⟨first,fun _ => none,[]⟩ :=
  ⟨start_orderly first,fun _ _ _ _ pending => absurd pending start_pending,
    fun _ _ _ pending => absurd pending start_pending⟩

-- A record that was not pending before is the only pending one of its ID, and a
-- success that is stored is kept by it.
theorem arriving (step : Step exec (handler settings) s move next) (may : Apart s move) (orderly : Orderly s)
    (pending : Pending next place job) : Pending s place job ∨
      ((∀ other later, other ≠ place → Pending next other later → later.id ≠ job.id) ∧
        ∀ old, s.state.jobs.get job.id = some old → old.status = .succeeded → job.status = .succeeded) := by
  have unshared {op : Op} (performed : move = .perform place op) (apart : Unshared s place op) :
      ∀ other later, other ≠ place → Pending next other later → later.id ≠ job.id := by
    rintro other later different ⟨served,rest,stands,upcomingToo⟩
    obtain ⟨_,_,there,upcoming⟩ := pending
    subst performed
    cases step with
    | perform _ _ _ after turn =>
      dsimp only at stands there
      rw [Function.update_of_ne different] at stands
      rw [Function.update_self] at there
      cases there
      exact apart _ after turn job upcoming other later different ⟨served,rest,stands,upcomingToo⟩
  cases step_arrival step orderly pending with
  | kept before => exact Or.inl before
  | new _ _ accepted same =>
    subst accepted
    refine Or.inr ⟨?_,?_⟩
    · intro other later different waiting known
      cases step_arrival step orderly waiting with
      | kept before => exact may.2 other later before (known.trans same.id)
      | new _ _ accepted => exact different (Move.accept.inj accepted).1.symm
      | read _ _ _ _ performed | swept _ _ performed => cases performed
    · intro old found
      rw [same.id] at found
      exact nomatch may.1.symm.trans found
  | read _ _ _ _ performed _ found follows =>
    refine Or.inr ⟨unshared performed (by subst performed; exact may),?_⟩
    intro stored foundToo done
    rw [follows.id,(s.state.jobs.get_exact.1 found).2,found] at foundToo
    cases foundToo
    exact follows.final done
  | swept _ _ performed _ found follows =>
    refine Or.inr ⟨unshared performed (by subst performed; exact may),?_⟩
    intro stored foundToo done
    rw [found] at foundToo
    cases foundToo
    exact follows.final done

theorem step_preserves (step : Step exec (handler settings) s move next) (may : Apart s move) (invariant : Invariant s) :
    Invariant next := by
  refine ⟨step_orderly step invariant.orderly,?_,?_⟩
  · intro spot other one later waiting waitingToo same
    rcases arriving step may invariant.orderly waiting with kept | ⟨alone,_⟩
    · rcases arriving step may invariant.orderly waitingToo with keptToo | ⟨alone,_⟩
      · exact invariant.apart spot other one later kept keptToo same
      · by_contra different
        exact alone spot one different waiting same
    · by_contra different
      exact alone other later (Ne.symm different) waitingToo same.symm
  · intro spot later old waiting found done
    rcases step_jobs step invariant.orderly with ⟨place,job,moved,pending,stored,_,after⟩ | ⟨stored,_⟩
    · rw [stored,Table.get_put] at found
      have kept : Pending s spot later := by
        cases step_arrival step invariant.orderly waiting with
        | kept before => exact before
        | new _ _ accepted => exact nomatch moved.symm.trans accepted
        | read _ _ _ _ performed | swept _ _ performed => exact nomatch moved.symm.trans performed
      split at found
      · rename_i same
        have known : job = old := Option.some.inj found
        have here := invariant.apart spot place later job kept pending same
        subst here
        obtain ⟨_,follows⟩ := (after later waiting).2 same
        rw [known] at follows
        exact follows.final done
      · exact invariant.current spot later old kept found done
    · rw [stored] at found
      rcases arriving step may invariant.orderly waiting with kept | ⟨_,keeps⟩
      · exact invariant.current spot later old kept found done
      · exact keeps old found done

-- In every run in which requests that save the same job do not overlap, a job that is
-- stored as succeeded stays so.
theorem success_final (reached : Reached exec (handler settings) Apart first s)
    (step : Step exec (handler settings) s move next) {id : Bytes}
    (stored : s.state.jobs.get id = some job) (done : job.status = .succeeded) :
    ∃ later, next.state.jobs.get id = some later ∧ later.status = .succeeded := by
  have invariant := reached.invariant (start_invariant first) (fun _ _ _ => step_preserves)
  rcases step_jobs step invariant.orderly with ⟨place,saved,_,pending,put,_⟩ | ⟨same,_⟩
  · rw [put,Table.get_put]
    split
    · rename_i known
      rw [known] at stored
      exact ⟨saved,rfl,invariant.current place saved job pending stored done⟩
    · exact ⟨job,stored,done⟩
  · rw [same]
    exact ⟨job,stored,done⟩

end

def runningJob : JobRecord := startedOn (ascii "b1") Time.zero (backupOf (ascii "j1"))

def oneRunning : Stores := holding runningJob

def RunningReached (allowed : JobSystem → Move Request Op → Prop) (s : JobSystem) : Prop :=
  Reached exec (handler plainSettings) allowed oneRunning s

def reportOf (id : Bytes) : Request := .finish (ascii "b1") id (some plainReport) Time.zero

def sweepNow : Request := .sweep [lostAgent] Time.zero

def succeededJob : JobRecord := ended .succeeded [] Time.zero runningJob

def failedJob : JobRecord := ended .failed (ascii "agent_lost") Time.zero runningJob

def NoEnqueue (_ : JobSystem) (move : Move Request Op) : Prop :=
  ∀ place job parentID, move ≠ .accept place (.enqueue job parentID)

-- The sweep lists the job as running, the job succeeds, and the sweep saves it as failed.
theorem success_overwritten : ∃ s move next, RunningReached NoEnqueue s ∧
    Step exec (handler plainSettings) s move next ∧ s.state.jobs.get (ascii "j1") = some succeededJob ∧
    next.state.jobs.get (ascii "j1") = some failedJob := by
  have asked : RunningReached NoEnqueue ⟨oneRunning,row [(sweepNow,handler plainSettings sweepNow),
      (reportOf (ascii "j1"),handler plainSettings (reportOf (ascii "j1")))],[]⟩ :=
    (Reached.none.accepts sweepNow (fun _ _ _ => nofun)).accepts (reportOf (ascii "j1")) (fun _ _ _ => nofun)
  have listed := performs_list asked 0 rfl (by decide) rfl (fun _ _ _ => nofun)
  have read := (listed.performs 1 rfl (fun _ _ _ => nofun)).performs 1 rfl (fun _ _ _ => nofun)
  have succeeded := read.performs 1 rfl (fun _ _ _ => nofun)
  exact ⟨_,_,_,succeeded,.perform 0 sweepNow _ _ rfl,rfl,rfl⟩

theorem success_survives_sweep : ∃ s move next, RunningReached Apart s ∧
    Step exec (handler plainSettings) s move next ∧ s.state.jobs.get (ascii "j1") = some succeededJob ∧
    ∃ later, next.state.jobs.get (ascii "j1") = some later ∧ later.status = .succeeded := by
  have asked : RunningReached Apart ⟨oneRunning,row [(sweepNow,handler plainSettings sweepNow),
      (reportOf (ascii "j1"),handler plainSettings (reportOf (ascii "j1")))],[]⟩ :=
    (Reached.none.accepts sweepNow trivial).accepts (reportOf (ascii "j1")) trivial
  have known := asked.performs 1 rfl (fun _ _ _ _ _ _ _ _ pending => absurd pending (row_quiet
    (List.forall_mem_cons.2 ⟨quiet_list,List.forall_mem_singleton.2 quiet_get⟩)))
  have read := known.performs 1 rfl (fun _ _ _ _ _ _ _ _ pending => absurd pending (row_quiet
    (List.forall_mem_cons.2 ⟨quiet_list,List.forall_mem_singleton.2 quiet_get⟩)))
  have succeeded := read.performs 1 rfl trivial
  refine ⟨_,_,_,succeeded,.perform 0 sweepNow _ _ rfl,rfl,?_⟩
  exact success_final succeeded (.perform 0 sweepNow _ _ rfl) rfl rfl

end Kronos.JobSuccess
