import Kronos.FinishJob

namespace Kronos.JobAttempts
open ByteRange Utf8 Strings Rfc3339 RecordTable Agents JobRecords JobServer JobProtocol FinishJob Interleaving Program

-- Requests that are handled one after the other, with their answers, the last one first.
inductive History (settings : Settings) (first : Stores) : Stores → List (Request × Response) → Prop
  | start : History settings first first []
  | handle {s : Stores} {log : List (Request × Response)} (before : History settings first s log) (request : Request) :
      History settings first (run exec (handler settings request) s).2
        ((request,(run exec (handler settings request) s).1) :: log)

-- A job that was put in the queue belongs to no agent, a job that was claimed to the claiming one.
def attempt : Request × Response → Option (Bytes × Option Bytes)
  | (.claim header _ _ _ _,.claimed (some job)) => some (job.id,some (trimSpace header))
  | (.retry _ _,.job job) => some (job.id,none)
  | (.enqueue _ _,.job job) => some (job.id,none)
  | _ => none

def holder (id : Bytes) : List (Request × Response) → Option Bytes
  | [] => none
  | entry :: log => match attempt entry with
    | none => holder id log
    | some (known,agent) => if known = id then agent else holder id log

def Held (s : Stores) (log : List (Request × Response)) : Prop :=
  ∀ job ∈ s.jobs.rows, active job.status = true → holder job.id log = some job.agentID

section
variable {settings : Settings} {first s : Stores} {log : List (Request × Response)} {α : Type}

theorem idle_run (p : Server α) (lawful : Lawful false p) (idle : ∀ job, Upcoming job p → active job.status = false) (s : Stores)
    {row : JobRecord} (member : row ∈ (run exec p s).2.jobs.rows) (going : active row.status = true) : row ∈ s.jobs.rows := by
  induction p generalizing s with
  | done => exact member
  | call op next ih =>
    have later : ∀ job, Upcoming job (next (exec op s).1) → active job.status = false := by
      intro job upcoming
      by_contra busy
      rcases exec_upcoming lawful upcoming with same | ⟨_,_,_,_,follows⟩ | ⟨_,_,_,_,follows⟩
      · exact busy (idle job same)
      · cases (follows_starts follows (Bool.eq_true_of_not_eq_false busy)).2
      · cases (follows_starts follows (Bool.eq_true_of_not_eq_false busy)).2
    have present := ih _ (exec_lawful lawful s) later (exec op s).2 member
    rcases exec_jobs op s with ⟨job,saves,stored⟩ | ⟨_,stored⟩
    · subst saves
      rcases s.jobs.mem_put.1 present with same | ⟨kept,_⟩
      · rw [same,idle job .now] at going
        cases going
      · exact kept
    · rw [stored] at present
      exact present

theorem handler_idle {request : Request} (other : request.isClaim = false) {row : JobRecord}
    (member : row ∈ (run exec (handler settings request) s).2.jobs.rows) (going : active row.status = true) :
    row ∈ s.jobs.rows := by
  refine idle_run _ (other ▸ handler_lawful request) ?_ s member going
  intro job upcoming
  obtain ⟨_,_,_,same⟩ := handler_start upcoming
  rw [same.status]
  rfl

theorem held_kept (held : Held s log) (quiet : attempt entry = none)
    (kept : ∀ row ∈ next.jobs.rows, active row.status = true → row ∈ s.jobs.rows) : Held next (entry :: log) := by
  intro row member going
  unfold holder
  rw [quiet]
  exact held row (kept row member going) going

theorem held_queued {s next : Stores} {entry : Request × Response} {job : JobRecord} (held : Held s log)
    (queued : attempt entry = some (job.id,none)) (stored : next.jobs.get job.id = some job) (waits : job.status = .queued)
    (kept : ∀ row ∈ next.jobs.rows, active row.status = true → row ∈ s.jobs.rows) : Held next (entry :: log) := by
  intro row member going
  unfold holder
  rw [queued]
  dsimp only
  split
  · rename_i same
    have found := next.jobs.get_exact.2 ⟨member,same.symm⟩
    rw [stored] at found
    cases found
    rw [waits] at going
    cases going
  · exact held row (kept row member going) going

theorem retry_run (id : Bytes) (now : Time) (s : Stores) :
    (∃ refusal, run exec (handleRetryJob id now) s = (.refused refusal,s)) ∨
      ∃ job, run exec (handleRetryJob id now) s = (.job (requeued now job),{s with jobs := s.jobs.put (requeued now job)}) := by
  unfold handleRetryJob
  rw [retry_bind,run_withJob]
  split
  · exact Or.inl ⟨_,rfl⟩
  · cases s.jobs.get id with
    | none => exact Or.inl ⟨_,rfl⟩
    | some job =>
      dsimp only
      split
      · exact Or.inl ⟨_,rfl⟩
      · exact Or.inr ⟨job,rfl⟩

theorem enqueue_run (new : JobRecord) (parentID : Bytes) (s : Stores) :
    ∃ job, (run exec (enqueue new parentID) s).1 = .job job ∧
      (run exec (enqueue new parentID) s).2.jobs.get job.id = some job ∧ job.status = .queued := by
  have put : ∀ (table : JobTable) (job : JobRecord), (table.put job).get job.id = some job := by
    intro table job
    rw [Table.get_put,if_pos rfl]
  unfold enqueue
  split
  · exact ⟨newJob new,rfl,put s.jobs (newJob new),rfl⟩
  · exact ⟨{newJob new with parentBackupID := parentID},rfl,put (s.jobs.put (newJob new)) _,rfl⟩

theorem sweep_stores (agents : List AgentSnapshot) (now : Time) (s : Stores) :
    (run exec (sweep agents now) s).2 = (run exec (failLostAgentJobs agents now) s).2 := by
  unfold sweep
  rw [run_bind]
  rfl

theorem claim_run (header : Bytes) (seen : List AgentSnapshot) (swept : Time) (agents : List AgentSnapshot) (now : Time)
    (s : Stores) : ∃ answer after, run exec (handleClaimJob settings header seen swept agents now) s = (answer,after) ∧
      ((attempt (.claim header seen swept agents now,answer) = none ∧ after = (run exec (sweep seen swept) s).2) ∨
        ∃ job, answer = .claimed (some (startedOn (trimSpace header) now job)) ∧ job.status = .queued ∧
          (run exec (sweep seen swept) s).2.jobs.get job.id = some job ∧
          after.jobs = (run exec (sweep seen swept) s).2.jobs.put (startedOn (trimSpace header) now job)) := by
  rw [handleClaimJob_pick,run_bind,sweep_stores]
  generalize (run exec (failLostAgentJobs seen swept) s).2 = middle
  change ∃ answer after, run exec (pick settings (trimSpace header) agents now (exec .list middle).1) middle = (answer,after) ∧ _
  rcases @pick_cases settings (trimSpace header) agents now (exec .list middle).1 with same | ⟨candidate,_,_,same⟩
  · rw [same]
    exact ⟨_,_,rfl,Or.inl ⟨rfl,rfl⟩⟩
  · rw [same,run_withJob]
    split
    · exact ⟨_,_,rfl,Or.inl ⟨rfl,rfl⟩⟩
    · cases found : middle.jobs.get candidate.id with
      | none => exact ⟨_,_,rfl,Or.inl ⟨rfl,rfl⟩⟩
      | some job =>
        dsimp only
        unfold begin
        split
        · exact ⟨_,_,rfl,Or.inl ⟨rfl,rfl⟩⟩
        · rename_i queued
          refine ⟨_,_,rfl,Or.inr ⟨job,rfl,not_not.1 queued,?_,rfl⟩⟩
          rw [(middle.jobs.get_exact.1 found).2]
          exact found

theorem claim_held (held : Held s log) : Held (run exec (handleClaimJob settings header seen swept agents now) s).2
      ((.claim header seen swept agents now,(run exec (handleClaimJob settings header seen swept agents now) s).1) :: log) := by
  have kept : ∀ row ∈ (run exec (sweep seen swept) s).2.jobs.rows, active row.status = true → row ∈ s.jobs.rows :=
    fun row member going => @handler_idle settings s (.sweep seen swept) rfl row member going
  obtain ⟨_,_,ran,outcome⟩ := @claim_run settings header seen swept agents now s
  rw [ran]
  rcases outcome with ⟨quiet,same⟩ | ⟨job,claimed,_,_,stored⟩
  · subst same
    exact held_kept held quiet kept
  · subst claimed
    intro row member going
    rw [stored] at member
    change (if (startedOn (trimSpace header) now job).id = row.id then some (trimSpace header) else holder row.id log) =
      some row.agentID
    rcases (run exec (sweep seen swept) s).2.jobs.mem_put.1 member with same | ⟨present,apart⟩
    · subst same
      exact if_pos rfl
    · rw [if_neg (Ne.symm apart)]
      exact held row (kept row present going) going

theorem handle_held (held : Held s log) (request : Request) :
    Held (run exec (handler settings request) s).2 ((request,(run exec (handler settings request) s).1) :: log) := by
  cases request with
  | claim => exact claim_held held
  | finish | cancel | sweep => exact held_kept held rfl (fun row => handler_idle rfl)
  | retry id now =>
    have kept := fun row => @handler_idle settings s (.retry id now) rfl row
    change ∀ row, row ∈ (run exec (handleRetryJob id now) s).2.jobs.rows → _ at kept
    change Held (run exec (handleRetryJob id now) s).2 ((.retry id now,(run exec (handleRetryJob id now) s).1) :: log)
    rcases retry_run id now s with ⟨_,ran⟩ | ⟨job,ran⟩
    · rw [ran] at kept ⊢
      exact held_kept held rfl kept
    · rw [ran] at kept ⊢
      refine @held_queued _ _ _ _ (requeued now job) held rfl ?_ rfl kept
      change (s.jobs.put (requeued now job)).get (requeued now job).id = _
      rw [Table.get_put,if_pos rfl]
  | enqueue new parentID =>
    have kept := fun row => @handler_idle settings s (.enqueue new parentID) rfl row
    obtain ⟨_,answered,stored,queued⟩ := enqueue_run new parentID s
    change Held (run exec (enqueue new parentID) s).2 ((.enqueue new parentID,(run exec (enqueue new parentID) s).1) :: log)
    rw [answered]
    exact held_queued held rfl stored queued kept

theorem history_held (idle : ∀ job ∈ first.jobs.rows, active job.status = false)
    (history : History settings first s log) : Held s log := by
  induction history with
  | start =>
    intro job member going
    rw [idle job member] at going
    cases going
  | handle _ request ih => exact handle_held ih request

def Claimant (s : Stores) (log : List (Request × Response)) (id agentID : Bytes) : Prop :=
  ∃ job, s.jobs.get id = some job ∧ active job.status = true ∧ holder id log = some agentID

-- A finish request changes the jobs only in the name of the claimant exactly when each
-- request that is carried out finds an active job with the ID of the agent it comes from.
theorem finish_by_claimant_iff (idle : ∀ job ∈ first.jobs.rows, active job.status = false)
    (history : History settings first s log) (header id : Bytes) (body : Option FinishRequest) (now : Time) :
    ((run exec (handler settings (.finish header id body now)) s).2.jobs ≠ s.jobs → Claimant s log id (trimSpace header)) ↔
      ∀ request job status, Accepted settings id body s request job status →
        active job.status = true ∧ job.agentID = trimSpace header := by
  have held := history_held idle history
  change ((run exec (handleFinishJob settings id body now) s).2.jobs ≠ s.jobs → _) ↔ _
  constructor
  · intro claimant request job status accepted
    obtain ⟨_,found,ended,different⟩ := accepted_changes accepted now
    have changed : (run exec (handleFinishJob settings id body now) s).2.jobs ≠ s.jobs := by
      intro same
      rw [same,accepted.found] at found
      cases found
      exact different ended
    obtain ⟨_,stored,going,agent⟩ := claimant changed
    cases accepted.found.symm.trans stored
    obtain ⟨member,known⟩ := s.jobs.get_exact.1 accepted.found
    have holds := held job member going
    rw [known,agent] at holds
    exact ⟨going,(Option.some.inj holds).symm⟩
  · intro proper changed
    rcases @handleFinishJob_run settings id body now s with ⟨request,job,status,accepted,_⟩ | ⟨_,_,ran⟩
    · obtain ⟨going,agent⟩ := proper request job status accepted
      obtain ⟨member,known⟩ := s.jobs.get_exact.1 accepted.found
      have holds := held job member going
      rw [known,agent] at holds
      exact ⟨job,accepted.found,going,holds⟩
    · rw [ran] at changed
      exact absurd rfl changed

end

def emptyStores : Stores := ⟨.empty,.empty,.empty,.empty⟩

def submit : Request := .enqueue (backupOf (ascii "j1")) []

def reportBy (agentID : Bytes) : Request := .finish agentID (ascii "j1") (some plainReport) Time.zero

-- The report of an agent that never claimed the job ends it.
theorem unclaimed_job_finished : ∃ s log, History plainSettings emptyStores s log ∧
    s.jobs.get (ascii "j1") = some (backupOf (ascii "j1")) ∧ holder (ascii "j1") log = none ∧
    (run exec (handler plainSettings (reportBy (ascii "a1"))) s).2.jobs.get (ascii "j1") =
      some (ended .succeeded [] Time.zero (backupOf (ascii "j1"))) :=
  ⟨_,_,.handle .start submit,rfl,rfl,rfl⟩

theorem claimed_job_finished : ∃ s log, History plainSettings emptyStores s log ∧
    Accepted plainSettings (ascii "j1") (some plainReport) s plainReport
      (startedOn (ascii "a1") Time.zero (backupOf (ascii "j1"))) .succeeded ∧
    ((run exec (handler plainSettings (reportBy (ascii "a1"))) s).2.jobs ≠ s.jobs →
      Claimant s log (ascii "j1") (trimSpace (ascii "a1"))) := by
  have queued : History plainSettings emptyStores waitingStores [(submit,.job (backupOf (ascii "j1")))] :=
    .handle .start submit
  have claimed := queued.handle (claimBy (ascii "a1") [])
  have started : run exec (handler plainSettings (claimBy (ascii "a1") [])) waitingStores = _ := waiting_claimed rfl Time.zero
  rw [started] at claimed
  refine ⟨_,_,claimed,⟨rfl,rfl,rfl,rfl,rfl,rfl⟩,?_⟩
  have idle : ∀ job ∈ emptyStores.jobs.rows, active job.status = false := by decide
  apply (finish_by_claimant_iff idle claimed (ascii "a1") _ _ _).2
  intro request job status accepted
  cases accepted.found
  exact ⟨rfl,rfl⟩

end Kronos.JobAttempts
