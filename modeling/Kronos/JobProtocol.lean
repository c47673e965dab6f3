import Kronos.JobServer

namespace Kronos.JobProtocol
open ByteRange Utf8 Strings Rfc3339 Agents JobRecords JobServer Interleaving

inductive Upcoming {α : Type} (job : JobRecord) : Server α → Prop
  | now {next : Reply (.save job) → Server α} : Upcoming job (.call (.save job) next)
  | later {other : JobRecord} {next : Reply (.save other) → Server α} (rest : Upcoming job (next ())) :
      Upcoming job (.call (.save other) next)
  | backup {backup : BackupRecord} {next : Reply (.saveBackup backup) → Server α}
      {reply : Except BackupRefusal Unit} (rest : Upcoming job (next reply)) : Upcoming job (.call (.saveBackup backup) next)
  | evidence {artifact : EvidenceArtifact} {next : Reply (.saveEvidence artifact) → Server α}
      (rest : Upcoming job (next ())) : Upcoming job (.call (.saveEvidence artifact) next)

-- What becomes of a record between a reading and a writing of it.
structure Follows (claims : Bool) (old job : JobRecord) : Prop where
  id : job.id = old.id
  target : job.targetID = old.targetID
  final : old.status = .succeeded → job.status = .succeeded
  start : job.status = .running → claims = true ∧ old.status = .queued
  settled : job.status ≠ .finalizing

-- How the handlers go about the store: what they save follows what they read, and
-- only a claim starts a record, a single one that was just read.
def Lawful {α : Type} (claims : Bool) : Server α → Prop
  | .done _ => True
  | .call (.get id) next => ∀ found : Option JobRecord, (∀ job, found = some job → job.id = id) →
      (∀ job, Upcoming job (next found) → ∃ old, found = some old ∧ Follows claims old job) ∧ Lawful claims (next found)
  | .call .list next => ∀ jobs : List JobRecord, (jobs.map JobRecord.id).Nodup →
      (∀ job, Upcoming job (next jobs) → job.status = .failed ∧ ∃ old ∈ jobs, Follows claims old job) ∧
        Lawful claims (next jobs)
  | .call (.save job) next =>
      (∀ later, Upcoming later (next ()) → active later.status = false ∧ (later.id = job.id → Follows claims job later)) ∧
        Lawful claims (next ())
  | .call (.saveBackup _) next => ∀ reply : Except BackupRefusal Unit, Lawful claims (next reply)
  | .call (.saveEvidence _) next => Lawful claims (next ())

structure Same (job later : JobRecord) : Prop where
  id : later.id = job.id
  target : later.targetID = job.targetID
  status : later.status = job.status

-- A program that saves a job again and again and ends with a result.
def Appends {α : Type} (job : JobRecord) (result : α → Prop) : Server α → Prop
  | .done a => result a
  | .call (.get _) _ => False
  | .call .list _ => False
  | .call (.save later) next => Same job later ∧ Appends job result (next ())
  | .call (.saveBackup _) next => ∀ reply : Except BackupRefusal Unit, Appends job result (next reply)
  | .call (.saveEvidence _) next => Appends job result (next ())

section
variable {α β : Type} {claims : Bool} {job : JobRecord}

theorem appends_bind {result : α → Prop} {last : β → Prop} {f : α → Server β} (p : Server α)
    (first : Appends job result p) (then_ : ∀ a, result a → Appends job last (f a)) : Appends job last (p >>= f) := by
  induction p with
  | done a => exact then_ a first
  | call op _ ih =>
    cases op with
    | get | list => exact first.elim
    | save => exact ⟨first.1,ih () first.2⟩
    | saveBackup => exact fun reply => ih reply (first reply)
    | saveEvidence => exact ih () first

theorem appends_upcoming {result : α → Prop} (appends : Appends job result p) (upcoming : Upcoming later p) :
    Same job later := by
  induction upcoming with
  | now => exact appends.1
  | later _ ih => exact ih appends.2
  | backup _ ih => exact ih (appends _)
  | evidence _ ih => exact ih appends

theorem same_follows (first : Same job one) (second : Same job other) (idle : active job.status = false) :
    Follows claims one other := by
  have status : other.status = one.status := second.status.trans first.status.symm
  refine ⟨second.id.trans first.id.symm,second.target.trans first.target.symm,fun done => status.trans done,?_,?_⟩
  · intro running
    rw [second.status] at running
    rw [running] at idle
    cases idle
  · intro finalizing
    rw [second.status] at finalizing
    rw [finalizing] at idle
    cases idle

theorem appends_lawful {result : α → Prop} (p : Server α) (appends : Appends job result p)
    (idle : active job.status = false) : Lawful claims p := by
  induction p with
  | done => trivial
  | call op _ ih =>
    cases op with
    | get | list => exact appends.elim
    | save =>
      refine ⟨?_,ih () appends.2⟩
      intro later upcoming
      have same := appends_upcoming appends.2 upcoming
      exact ⟨same.status ▸ idle,fun _ => same_follows appends.1 same idle⟩
    | saveBackup => exact fun reply => ih reply (appends reply)
    | saveEvidence => exact ih () appends

theorem same_refl (job : JobRecord) : Same job job := ⟨rfl,rfl,rfl⟩

end

section
variable {α : Type} {claims : Bool} {job later : JobRecord}

theorem quiet_done : ¬ Upcoming job (.done a : Server α) := nofun

theorem quiet_get {id : Bytes} {next : Reply (.get id) → Server α} : ¬ Upcoming job (.call (.get id) next) := nofun

theorem quiet_list {next : Reply .list → Server α} : ¬ Upcoming job (.call .list next) := nofun

theorem withJob_quiet {id : Bytes} {missing : Fault → Server α} {found : JobRecord → Server α}
    (quiet : ∀ fault, ¬ Upcoming job (missing fault)) : ¬ Upcoming job (withJob id missing found) := by
  unfold withJob
  split
  · exact quiet _
  · exact quiet_get

theorem withJob_lawful {id : Bytes} {missing : Fault → Server α} {found : JobRecord → Server α}
    (refused : ∀ fault, ∃ a, missing fault = .done a)
    (follows : ∀ job later, Upcoming later (found job) → Follows claims job later)
    (lawful : ∀ job, Lawful claims (found job)) : Lawful claims (withJob id missing found) := by
  unfold withJob
  split
  · obtain ⟨_,same⟩ := refused .idRequired
    rw [same]
    trivial
  · intro reply known
    cases reply with
    | none =>
      obtain ⟨_,same⟩ := refused (.notFound id)
      rw [same]
      exact ⟨fun job upcoming => absurd upcoming quiet_done,trivial⟩
    | some job => exact ⟨fun later upcoming => ⟨job,rfl,follows job later upcoming⟩,lawful job⟩

theorem started_follows (agentID : Bytes) (now : Time) (queued : job.status = .queued) :
    Follows true job (startedOn agentID now job) :=
  ⟨rfl,rfl,fun done => absurd (queued.symm.trans done) nofun,fun _ => ⟨rfl,queued⟩,nofun⟩

theorem ended_follows (message : Bytes) (now : Time) (terminal : terminalJobStatus status = true)
    (going : job.status ≠ .succeeded) : Follows claims job (ended status message now job) := by
  refine ⟨rfl,rfl,fun done => absurd done going,?_,?_⟩
  · intro running
    rw [show status = .running from running] at terminal
    cases terminal
  · intro finalizing
    rw [show status = .finalizing from finalizing] at terminal
    cases terminal

theorem requeued_follows (now : Time) (closed : job.status = .failed ∨ job.status = .canceled) :
    Follows claims job (requeued now job) := by
  refine ⟨rfl,rfl,?_,nofun,nofun⟩
  intro done
  rcases closed with failed | canceled
  · exact nomatch failed.symm.trans done
  · exact nomatch canceled.symm.trans done

theorem terminal_known {status : RequestStatus} (known : status.terminal = some last) :
    terminalJobStatus last = true := by
  cases status with
  | other => cases known
  | known =>
    simp only [RequestStatus.terminal,Option.ite_none_right_eq_some] at known
    rw [← Option.some.inj known.2]
    exact known.1

theorem terminal_idle (terminal : terminalJobStatus status = true) : active status = false := by
  cases status <;> first | rfl | cases terminal

theorem terminal_going (going : terminalJobStatus status = false) : status ≠ .succeeded := by
  intro done
  rw [done] at going
  cases going

-- The sweep fails every job that was listed, one after the other.
section
variable {now : Time} {f : List Bytes → Server α}

theorem failEach_upcoming (jobs : List JobRecord) (quiet : ∀ ids, ¬ Upcoming later (f ids))
    (upcoming : Upcoming later (failEach now jobs >>= f)) :
    ∃ job ∈ jobs, later = ended .failed (ascii "agent_lost") now job := by
  induction jobs generalizing f with
  | nil => exact absurd upcoming (quiet [])
  | cons first _ ih =>
    rw [failEach_bind] at upcoming
    cases upcoming with
    | now => exact ⟨first,List.mem_cons_self,rfl⟩
    | later others =>
      obtain ⟨job,listed,same⟩ := ih (fun ids => quiet _) others
      exact ⟨job,List.mem_cons_of_mem _ listed,same⟩

theorem failEach_lawful (jobs : List JobRecord) (distinct : (jobs.map JobRecord.id).Nodup)
    (quiet : ∀ ids later, ¬ Upcoming later (f ids)) (lawful : ∀ ids, Lawful claims (f ids)) :
    Lawful claims (failEach now jobs >>= f) := by
  induction jobs generalizing f with
  | nil => exact lawful []
  | cons first rest ih =>
    rw [failEach_bind]
    have apart := List.nodup_cons.1 distinct
    refine ⟨?_,ih apart.2 (fun ids => quiet _) (fun ids => lawful _)⟩
    intro later upcoming
    obtain ⟨job,listed,same⟩ := failEach_upcoming rest (fun ids => quiet _ later) upcoming
    subst same
    refine ⟨rfl,?_⟩
    intro again
    have twice : first.id ∈ rest.map JobRecord.id := List.mem_map.2 ⟨job,listed,again⟩
    exact absurd twice apart.1

theorem lost_going (found : isLost lost job = true) : job.status ≠ .succeeded := by
  intro done
  simp only [isLost,Bool.and_eq_true] at found
  rw [done] at found
  cases found.2

theorem failLost_quiet (quiet : ∀ ids, ¬ Upcoming later (f ids)) :
    ¬ Upcoming later (failLostAgentJobs agents now >>= f) := by
  rw [failLost_bind]
  split
  · exact quiet []
  · exact quiet_list

theorem failLost_lawful (quiet : ∀ ids later, ¬ Upcoming later (f ids)) (lawful : ∀ ids, Lawful claims (f ids)) :
    Lawful claims (failLostAgentJobs agents now >>= f) := by
  rw [failLost_bind]
  split
  · exact lawful []
  · intro jobs distinct
    have inside : ((jobs.filter (isLost (lostAgents agents))).map JobRecord.id).Nodup :=
      distinct.sublist (List.filter_sublist.map JobRecord.id)
    refine ⟨?_,failEach_lawful _ inside quiet lawful⟩
    intro later upcoming
    obtain ⟨job,listed,same⟩ := failEach_upcoming _ (fun ids => quiet ids later) upcoming
    subst same
    have chosen := List.mem_filter.1 listed
    exact ⟨rfl,job,chosen.1,ended_follows _ now rfl (lost_going chosen.2)⟩

end

theorem finish_lawful {id : Bytes} {f : Except Fault JobRecord → Server α}
    (refused : ∀ fault, ∃ a, f (.error fault) = .done a) (appends : ∀ job, Appends job (fun _ => True) (f (.ok job))) :
    Lawful claims (finish id status message now >>= f) := by
  rw [finish_bind]
  cases known : status.terminal with
  | none =>
    obtain ⟨a,same⟩ := refused .notTerminal
    rw [same]
    trivial
  | some last =>
    have terminal := terminal_known known
    have saves : ∀ job, Appends (ended last message now job) (fun _ => True)
        (.call (.save (ended last message now job)) (fun _ => f (.ok (ended last message now job)))) :=
      fun job => ⟨same_refl _,appends _⟩
    apply withJob_lawful refused
    · intro job later upcoming
      split at upcoming
      · obtain ⟨a,same⟩ := refused (.alreadyEnded id job.status)
        rw [same] at upcoming
        exact absurd upcoming quiet_done
      · rename_i going
        have follows : Follows claims job (ended last message now job) :=
          ended_follows message now terminal (terminal_going (Bool.eq_false_of_not_eq_true going))
        have same := appends_upcoming (saves job) upcoming
        exact ⟨same.id.trans follows.id,same.target.trans follows.target,
          fun done => same.status.trans (follows.final done),
          fun running => follows.start (same.status.symm.trans running),
          fun finalizing => follows.settled (same.status.symm.trans finalizing)⟩
    · intro job
      split
      · obtain ⟨_,same⟩ := refused (.alreadyEnded id job.status)
        rw [same]
        trivial
      · exact appends_lawful _ (saves job) (terminal_idle terminal)

theorem finish_quiet {id : Bytes} {f : Except Fault JobRecord → Server α}
    (refused : ∀ fault, ∃ a, f (.error fault) = .done a) : ¬ Upcoming job (finish id status message now >>= f) := by
  have quiet : ∀ fault, ¬ Upcoming job (f (.error fault)) := by
    intro fault upcoming
    obtain ⟨_,same⟩ := refused fault
    rw [same] at upcoming
    exact quiet_done upcoming
  rw [finish_bind]
  split
  · exact quiet _
  · exact withJob_quiet quiet

end

section
variable {settings : Settings}

section
variable (request : FinishRequest) (job : JobRecord) (now : Time)

theorem attachReports_appends : Appends job (fun _ => True) (attachReports settings request job now) := by
  refine @appends_bind _ _ job (Same job) _ _ _ ?_ ?_
  · cases request.verification with
    | none => exact same_refl job
    | some => exact ⟨⟨rfl,rfl,rfl⟩,⟨rfl,rfl,rfl⟩⟩
  intro verified same
  refine @appends_bind _ _ job (Same job) _ _ _ ?_ ?_
  · cases request.restore with
    | none => exact same
    | some => exact ⟨⟨same.id,same.target,same.status⟩,⟨same.id,same.target,same.status⟩⟩
  intro restored same
  refine @appends_bind _ _ job (Same job) _ _ _ ?_ ?_
  · cases request.failure with
    | none => exact same
    | some => exact ⟨⟨same.id,same.target,same.status⟩,⟨same.id,same.target,same.status⟩⟩
  intro failed same
  unfold attachEvidence
  split
  · cases buildRestoreEvidenceArtifact settings failed now with
    | none => trivial
    | some =>
      cases settings.evidence with
      | true | false => exact ⟨⟨same.id,same.target,same.status⟩,trivial⟩
  · trivial

theorem attachAll_refused (fault : Fault) : ∃ a, attachAll settings request now (.error fault) = .done a := by
  cases fault <;> exact ⟨_,rfl⟩

theorem attachAll_appends (job : JobRecord) :
    Appends job (fun _ => True) (attachAll settings request now (.ok job)) := by
  unfold attachAll
  cases request.backup with
  | none => exact attachReports_appends request job now
  | some =>
    intro reply
    cases reply with
    | error => trivial
    | ok => exact attachReports_appends request job now

theorem handleFinishJob_lawful (id : Bytes) (body : Option FinishRequest) (now : Time) :
    Lawful false (handleFinishJob settings id body now) := by
  unfold handleFinishJob
  cases body with
  | none => trivial
  | some request =>
    dsimp only
    rw [getJob_bind]
    apply withJob_lawful
    · intro fault
      cases fault <;> exact ⟨_,rfl⟩
    · intro job later upcoming
      dsimp only at upcoming
      split at upcoming
      · exact absurd upcoming quiet_done
      · exact absurd upcoming (finish_quiet (attachAll_refused request now))
    · intro job
      dsimp only
      split
      · trivial
      · exact finish_lawful (attachAll_refused request now) (attachAll_appends request now)

theorem answer_refused (fault : Fault) : ∃ a, (pure (answer (.error fault)) : Server Response) = .done a := ⟨_,rfl⟩

theorem handleCancelJob_lawful (id : Bytes) (now : Time) : Lawful false (handleCancelJob id now) :=
  finish_lawful answer_refused (fun _ => trivial)

theorem handleRetryJob_lawful (id : Bytes) (now : Time) : Lawful false (handleRetryJob id now) := by
  unfold handleRetryJob
  rw [retry_bind]
  apply withJob_lawful answer_refused
  · intro job later upcoming
    split at upcoming
    · exact absurd upcoming quiet_done
    · rename_i closed
      rw [not_and_or,not_not,not_not] at closed
      cases upcoming with
      | now => exact requeued_follows now closed
      | later rest => exact absurd rest quiet_done
  · intro job
    split
    · trivial
    · exact ⟨fun later upcoming => absurd upcoming quiet_done,trivial⟩

theorem sweep_lawful (agents : List AgentSnapshot) (now : Time) : Lawful false (sweep agents now) :=
  failLost_lawful (fun _ _ => quiet_done) (fun _ => trivial)

theorem enqueue_lawful (parentID : Bytes) : Lawful false (enqueue job parentID) := by
  unfold enqueue
  split
  · exact ⟨fun later upcoming => absurd upcoming quiet_done,trivial⟩
  · refine ⟨?_,fun later upcoming => absurd upcoming quiet_done,trivial⟩
    intro later upcoming
    cases upcoming with
    | now => exact ⟨rfl,fun _ => ⟨rfl,rfl,nofun,nofun,nofun⟩⟩
    | later rest => exact absurd rest quiet_done

end

def pick (settings : Settings) (agentID : Bytes) (agents : List AgentSnapshot) (now : Time) (jobs : List JobRecord) :
    Server Response :=
  if agentCapacityReached agents jobs then pure (.claimed none)
  else match jobs.find? (claimable settings jobs agentID) with
    | none => pure (.claimed none)
    | some job => do
      match ← startOnAgent job.id agentID now with
      | .error _ => pure (.refused .claimJob)
      | .ok started => pure (.claimed (some started))

def begin (agentID : Bytes) (now : Time) (job : JobRecord) : Server Response :=
  if job.status ≠ .queued then .done (.refused .claimJob)
  else .call (.save (startedOn agentID now job)) (fun _ => .done (.claimed (some (startedOn agentID now job))))

section
variable (header : Bytes) (seen : List AgentSnapshot) (swept : Time)

theorem handleClaimJob_pick (agents : List AgentSnapshot)
    (now : Time) : handleClaimJob settings header seen swept agents now =
      (failLostAgentJobs seen swept >>= fun _ => .call .list (pick settings (trimSpace header) agents now)) := rfl

theorem pick_cases (agentID : Bytes) (agents : List AgentSnapshot) (now : Time) (jobs : List JobRecord) :
    pick settings agentID agents now jobs = .done (.claimed none) ∨
      ∃ job ∈ jobs, claimable settings jobs agentID job = true ∧
        pick settings agentID agents now jobs =
          withJob job.id (fun _ => .done (.refused .claimJob)) (begin agentID now) := by
  unfold pick
  split
  · exact Or.inl rfl
  · cases found : jobs.find? (claimable settings jobs agentID) with
    | none => exact Or.inl rfl
    | some job =>
      refine Or.inr ⟨job,List.mem_of_find?_eq_some found,List.find?_some found,?_⟩
      exact startOnAgent_bind job.id agentID now _

def offer (agentID : Bytes) (now : Time) (reply : Option JobRecord) : Server Response :=
  match reply with
  | none => .done (.refused .claimJob)
  | some job => begin agentID now job

theorem pick_found {agentID : Bytes} {agents : List AgentSnapshot} {now : Time} {jobs : List JobRecord} {job : JobRecord}
    (room : agentCapacityReached agents jobs = false) (found : jobs.find? (claimable settings jobs agentID) = some job)
    (named : isZero job.id = false) : pick settings agentID agents now jobs = .call (.get job.id) (offer agentID now) := by
  unfold pick
  rw [if_neg (Bool.eq_false_iff.1 room),found]
  refine (startOnAgent_bind job.id agentID now _).trans ?_
  unfold withJob
  rw [if_neg (Bool.eq_false_iff.1 named)]
  rfl

theorem begin_saves (upcoming : Upcoming later (begin agentID now job)) :
    job.status = .queued ∧ later = startedOn agentID now job := by
  unfold begin at upcoming
  split at upcoming
  · exact absurd upcoming quiet_done
  · rename_i queued
    refine ⟨not_not.1 queued,?_⟩
    cases upcoming with
    | now => rfl
    | later rest => exact absurd rest quiet_done

theorem begin_lawful (agentID : Bytes) (now : Time) (job : JobRecord) : Lawful true (begin agentID now job) := by
  unfold begin
  split
  · trivial
  · exact ⟨fun later upcoming => absurd upcoming quiet_done,trivial⟩

theorem pick_quiet : ¬ Upcoming job (pick settings agentID agents now jobs) := by
  rcases @pick_cases settings agentID agents now jobs with same | ⟨_,_,_,same⟩
  · rw [same]
    exact quiet_done
  · rw [same]
    exact withJob_quiet (fun _ => quiet_done)

theorem pick_lawful (agentID : Bytes) (agents : List AgentSnapshot) (now : Time) (jobs : List JobRecord) :
    Lawful true (pick settings agentID agents now jobs) := by
  rcases @pick_cases settings agentID agents now jobs with same | ⟨_,_,_,same⟩
  · rw [same]
    trivial
  · rw [same]
    apply withJob_lawful (fun _ => ⟨_,rfl⟩)
    · intro job later upcoming
      obtain ⟨queued,started⟩ := begin_saves upcoming
      rw [started]
      exact started_follows agentID now queued
    · exact begin_lawful agentID now

theorem handleClaimJob_lawful (agents : List AgentSnapshot)
    (now : Time) : Lawful true (handleClaimJob settings header seen swept agents now) := by
  apply failLost_lawful (fun _ _ => quiet_list)
  intro ids jobs distinct
  exact ⟨fun job upcoming => absurd upcoming pick_quiet,pick_lawful _ agents now jobs⟩

end

theorem handler_lawful (request : Request) : Lawful request.isClaim (handler settings request) := by
  cases request with
  | claim header seen swept agents now => exact handleClaimJob_lawful header seen swept agents now
  | finish _ id body now => exact handleFinishJob_lawful id body now
  | cancel id now => exact handleCancelJob_lawful id now
  | retry id now => exact handleRetryJob_lawful id now
  | sweep seen now => exact sweep_lawful seen now
  | enqueue job parentID => exact enqueue_lawful job parentID

theorem handler_start (upcoming : Upcoming job (handler settings request)) :
    ∃ new parentID, request = .enqueue new parentID ∧ Same (newJob new) job := by
  cases request with
  | claim => exact absurd upcoming (failLost_quiet (fun _ => quiet_list))
  | finish _ id body now =>
    change Upcoming job (handleFinishJob settings id body now) at upcoming
    unfold handleFinishJob at upcoming
    cases body with
    | none => exact absurd upcoming quiet_done
    | some =>
      dsimp only at upcoming
      rw [getJob_bind] at upcoming
      refine absurd upcoming (withJob_quiet ?_)
      intro fault
      cases fault <;> exact quiet_done
  | cancel => exact absurd upcoming (finish_quiet answer_refused)
  | retry id now =>
    change Upcoming job (handleRetryJob id now) at upcoming
    unfold handleRetryJob at upcoming
    rw [retry_bind] at upcoming
    exact absurd upcoming (withJob_quiet (fun _ => quiet_done))
  | sweep => exact absurd upcoming (failLost_quiet (fun _ => quiet_done))
  | enqueue new parentID =>
    refine ⟨new,parentID,rfl,?_⟩
    have appends : Appends (newJob new) (fun _ => True) (enqueue new parentID) := by
      unfold enqueue
      split
      · exact ⟨same_refl _,trivial⟩
      · exact ⟨same_refl _,⟨rfl,rfl,rfl⟩,trivial⟩
    exact appends_upcoming appends upcoming

end

-- What one operation does to the jobs and to what is still to be saved.
section
variable {α : Type} {claims : Bool} {job : JobRecord}

theorem listed_distinct (table : JobTable) : ((table.rows.mergeSort jobOrder).map JobRecord.id).Nodup := by
  have same : ((table.rows.mergeSort jobOrder).map JobRecord.id).Perm (table.rows.map JobRecord.id) :=
    (List.mergeSort_perm table.rows jobOrder).map JobRecord.id
  exact same.nodup_iff.2 table.rows_nodup

theorem exec_lawful {next : Reply op → Server α} (lawful : Lawful claims (.call op next)) (s : Stores) :
    Lawful claims (next (exec op s).1) := by
  cases op with
  | get => exact (lawful _ (fun job found => (s.jobs.get_exact.1 found).2)).2
  | list => exact (lawful _ (listed_distinct s.jobs)).2
  | save => exact lawful.2
  | saveBackup => exact lawful _
  | saveEvidence => exact lawful

theorem exec_upcoming {next : Reply op → Server α} (lawful : Lawful claims (.call op next))
    (upcoming : Upcoming job (next (exec op s).1)) : Upcoming job (.call op next) ∨
      (∃ id old, op = .get id ∧ s.jobs.get id = some old ∧ Follows claims old job) ∨
      (op = .list ∧ job.status = .failed ∧ ∃ old, s.jobs.get job.id = some old ∧ Follows claims old job) := by
  cases op with
  | get id =>
    obtain ⟨old,found,follows⟩ := (lawful _ (fun job found => (s.jobs.get_exact.1 found).2)).1 job upcoming
    exact Or.inr (Or.inl ⟨id,old,rfl,found,follows⟩)
  | list =>
    obtain ⟨failed,old,listed,follows⟩ := (lawful _ (listed_distinct s.jobs)).1 job upcoming
    refine Or.inr (Or.inr ⟨rfl,failed,old,?_,follows⟩)
    exact s.jobs.get_exact.2 ⟨List.mem_mergeSort.1 listed,follows.id.symm⟩
  | save => exact Or.inl (.later upcoming)
  | saveBackup backup => exact Or.inl (.backup upcoming)
  | saveEvidence => exact Or.inl (.evidence upcoming)

theorem exec_jobs (op : Op) (s : Stores) : (∃ job, op = .save job ∧ (exec op s).2.jobs = s.jobs.put job) ∨
      ((∀ job, op ≠ .save job) ∧ (exec op s).2.jobs = s.jobs) := by
  cases op with
  | get | list | saveEvidence => exact Or.inr ⟨(fun _ same => nomatch same),rfl⟩
  | save job => exact Or.inl ⟨job,rfl,rfl⟩
  | saveBackup =>
    refine Or.inr ⟨(fun _ same => nomatch same),?_⟩
    unfold exec
    dsimp only
    split <;> rfl

end

def Pending (s : JobSystem) (place : Nat) (job : JobRecord) : Prop :=
  ∃ request program, s.tasks place = some (request,program) ∧ Upcoming job program

def Fresh (s : JobSystem) (id : Bytes) : Prop :=
  s.state.jobs.get id = none ∧ ∀ place job, Pending s place job → job.id ≠ id

structure Orderly (s : JobSystem) : Prop where
  lawful : ∀ place request program, s.tasks place = some (request,program) → Lawful request.isClaim program
  starts : ∀ place request program job, s.tasks place = some (request,program) → Upcoming job program →
    active job.status = true → job.status = .running ∧ request.isClaim = true

inductive Arrival (s : JobSystem) (move : Move Request Op) (place : Nat) (job : JobRecord) : Prop
  | kept (pending : Pending s place job)
  | new (record : JobRecord) (parentID : Bytes) (accepted : move = .accept place (.enqueue record parentID))
      (same : Same (newJob record) job)
  | read (request : Request) (program : Server Response) (id : Bytes) (old : JobRecord)
      (performed : move = .perform place (.get id)) (task : s.tasks place = some (request,program))
      (found : s.state.jobs.get id = some old) (follows : Follows request.isClaim old job)
  | swept (claims : Bool) (old : JobRecord) (performed : move = .perform place .list)
      (failed : job.status = .failed) (found : s.state.jobs.get job.id = some old) (follows : Follows claims old job)

section
variable {settings : Settings} {s next : JobSystem} {move : Move Request Op} {place : Nat} {job : JobRecord}

theorem start_orderly (first : Stores) : Orderly ⟨first,fun _ => none,[]⟩ := by
  refine ⟨?_,?_⟩
  · intro place request program there
    cases there
  · intro place request program job there
    cases there

theorem start_pending : ¬ Pending ⟨first,fun _ => none,[]⟩ place job := by
  intro pending
  obtain ⟨_,_,there,_⟩ := pending
  cases there

theorem active_status (going : active status = true) : status = .running ∨ status = .finalizing := by
  cases status <;> first | exact Or.inl rfl | exact Or.inr rfl | cases going

theorem follows_starts (follows : Follows claims old job) (going : active job.status = true) :
    job.status = .running ∧ claims = true := by
  rcases active_status going with running | finalizing
  · exact ⟨running,(follows.start running).1⟩
  · exact absurd finalizing follows.settled

theorem step_orderly (step : Step exec (handler settings) s move next) (orderly : Orderly s) : Orderly next := by
  cases step with
  | accept _ accepted =>
    refine ⟨?_,?_⟩
    · intro place request program there
      rcases updated_task there with ⟨_,same⟩ | ⟨_,before⟩
      · cases same
        exact handler_lawful accepted
      · exact orderly.lawful place request program before
    · intro place request program job there upcoming going
      rcases updated_task there with ⟨_,same⟩ | ⟨_,before⟩
      · cases same
        obtain ⟨_,_,_,same⟩ := handler_start upcoming
        rw [same.status] at going
        cases going
      · exact orderly.starts place request program job before upcoming going
  | perform spot served _ _ turn =>
    have lawful := orderly.lawful spot served _ turn
    refine ⟨?_,?_⟩
    · intro place request program there
      rcases updated_task there with ⟨_,same⟩ | ⟨_,before⟩
      · cases same
        exact exec_lawful lawful s.state
      · exact orderly.lawful place request program before
    · intro place request program job there upcoming going
      rcases updated_task there with ⟨_,same⟩ | ⟨_,before⟩
      · cases same
        rcases exec_upcoming lawful upcoming with same | ⟨_,_,_,_,follows⟩ | ⟨_,_,_,_,follows⟩
        · exact orderly.starts spot served _ job turn same going
        · exact follows_starts follows going
        · exact follows_starts follows going
      · exact orderly.starts place request program job before upcoming going

theorem step_arrival (step : Step exec (handler settings) s move next) (orderly : Orderly s)
    (pending : Pending next place job) : Arrival s move place job := by
  obtain ⟨request,program,there,upcoming⟩ := pending
  cases step with
  | accept =>
    rcases updated_task there with ⟨here,same⟩ | ⟨_,before⟩
    · cases same
      obtain ⟨record,parentID,enqueued,same⟩ := handler_start upcoming
      exact .new record parentID (by rw [here,enqueued]) same
    · exact .kept ⟨request,program,before,upcoming⟩
  | perform _ _ _ _ turn =>
    rcases updated_task there with ⟨here,same⟩ | ⟨_,before⟩
    · cases same
      subst here
      rcases exec_upcoming (orderly.lawful place request _ turn) upcoming with
        same | ⟨id,old,reads,found,follows⟩ | ⟨lists,failed,old,found,follows⟩
      · exact .kept ⟨request,_,turn,same⟩
      · exact .read request _ id old (by rw [reads]) turn found follows
      · exact .swept request.isClaim old (by rw [lists]) failed found follows
    · exact .kept ⟨request,program,before,upcoming⟩

theorem step_jobs (step : Step exec (handler settings) s move next) (orderly : Orderly s) :
    (∃ place job, move = .perform place (.save job) ∧ Pending s place job ∧
        next.state.jobs = s.state.jobs.put job ∧ next.log = .save job :: s.log ∧
        ∀ later, Pending next place later → active later.status = false ∧ (later.id = job.id → ∃ claims, Follows claims job later)) ∨
      (next.state.jobs = s.state.jobs ∧ (next.log = s.log ∨ ∃ op, (∀ job, op ≠ .save job) ∧ next.log = op :: s.log)) := by
  cases step with
  | accept => exact Or.inr ⟨rfl,Or.inl rfl⟩
  | perform spot served op _ turn =>
    rcases exec_jobs op s.state with ⟨job,saves,stored⟩ | ⟨other,stored⟩
    · subst saves
      refine Or.inl ⟨spot,job,rfl,⟨served,_,turn,.now⟩,stored,rfl,?_⟩
      intro later pending
      obtain ⟨_,_,there,upcoming⟩ := pending
      rcases updated_task there with ⟨_,same⟩ | ⟨elsewhere,_⟩
      · cases same
        obtain ⟨idle,follows⟩ := (orderly.lawful spot served _ turn).1 later upcoming
        exact ⟨idle,fun same => ⟨_,follows same⟩⟩
      · exact absurd rfl elsewhere
    · exact Or.inr ⟨stored,Or.inr ⟨op,other,rfl⟩⟩

theorem row_quiet {state : Stores} {tasks : List (Request × Server Response)} {log : List Op}
    (quiet : ∀ task ∈ tasks, ¬ Upcoming job task.2) : ¬ Pending ⟨state,row tasks,log⟩ place job := by
  intro pending
  obtain ⟨_,_,there,upcoming⟩ := pending
  exact quiet _ (List.mem_of_getElem? there) upcoming

theorem performs_list {allowed : JobSystem → Move Request Op → Prop} {first state : Stores}
    {tasks : List (Request × Server Response)} {log : List Op} {request : Request}
    {after : Reply .list → Server Response} {program : Server Response}
    (before : Reached exec (handler settings) allowed first ⟨state,row tasks,log⟩) (place : Nat)
    (turn : tasks[place]? = some (request,.call .list after))
    (sorted : state.jobs.rows.Pairwise (fun a b => jobOrder a b = true)) (leads : after state.jobs.rows = program)
    (may : allowed ⟨state,row tasks,log⟩ (.perform place .list)) :
    Reached exec (handler settings) allowed first ⟨state,row (tasks.set place (request,program)),.list :: log⟩ := by
  have performed := before.performs place turn may
  have listed : (exec .list state).1 = state.jobs.rows := List.mergeSort_of_pairwise sorted
  rw [listed,leads] at performed
  exact performed

end

-- A server without further stores, backups of one database, and agents that ask for work.
def plainSettings : Settings := ⟨false,false,fun _ => none,fun _ => none⟩

def backupOf (id : Bytes) : JobRecord := backupJob id (ascii "db") (ascii "s3") (ascii "full") Time.zero

def claimBy (agentID : Bytes) (seen : List AgentSnapshot) : Request := .claim agentID seen Time.zero [] Time.zero

def plainReport : FinishRequest := ⟨.known .succeeded,[],none,none,none,none⟩

def lostAgent : AgentSnapshot := ⟨ascii "b1",1,Time.zero,.degraded⟩

def choose (agentID : Bytes) : Server Response := .call .list (pick plainSettings agentID [] Time.zero)

-- One job in the tables, and one that waits there.
def holding (job : JobRecord) : Stores := ⟨.single job,.empty,.empty,.empty⟩

def waitingJob : JobRecord := backupOf (ascii "j1")

def waitingStores : Stores := holding waitingJob

theorem waiting_claimed {agents : List AgentSnapshot} (room : agentCapacityReached agents [waitingJob] = false) (now : Time) :
    Program.run exec (pick plainSettings (ascii "a1") agents now (exec .list waitingStores).1) waitingStores =
      (.claimed (some (startedOn (ascii "a1") now waitingJob)),holding (startedOn (ascii "a1") now waitingJob)) := by
  have listed : (exec .list waitingStores).1 = [waitingJob] := List.mergeSort_singleton _
  rw [listed,@pick_found _ _ _ _ _ waitingJob room rfl rfl]
  rfl

end Kronos.JobProtocol
