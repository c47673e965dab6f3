import Kronos.Agents
import Kronos.Interleaving
import Kronos.JobRecords
import Kronos.ScheduleStore

namespace Kronos.JobServer
open ByteRange Utf8 Strings Rfc3339 RecordTable Agents JobRecords Interleaving

inductive BackupRefusal
  | field (cause : ScheduleStore.Refusal) | type (type : Bytes)
  deriving DecidableEq

inductive Fault
  | idRequired | notFound (id : Bytes) | wantQueued (id : Bytes) (status : JobStatus) | notTerminal
  | alreadyEnded (id : Bytes) (status : JobStatus) | wantEnded (id : Bytes) (status : JobStatus)
  deriving DecidableEq

inductive Refusal
  | notFound | claimJob | getJob | invalidFinish | backupStatus | backupOperation | backupStore | verificationStatus
  | verificationOperation | restoreStatus | restoreOperation | failureStatus | failureOperation
  | orchestrator (fault : Fault) | backupRecord (cause : BackupRefusal) | buildEvidence
  deriving DecidableEq

inductive Response
  | refused (refusal : Refusal) | claimed (job : Option JobRecord) | job (job : JobRecord) | swept (ids : List Bytes)
  deriving DecidableEq

structure Stores where
  jobs : JobTable
  backups : BackupTable
  evidence : Table EvidenceArtifact.id
  evidenceByJob : Table (fun entry : Bytes × Bytes => entry.1)

def validateBackup (backup : BackupRecord) : Except BackupRefusal Unit := do
  (ScheduleStore.validateResourceID "backup id" backup.id).mapError .field
  (ScheduleStore.validateResourceID "backup target id" backup.targetID).mapError .field
  (ScheduleStore.validateResourceID "backup storage id" backup.storageID).mapError .field
  (ScheduleStore.validateResourceID "backup job id" backup.jobID).mapError .field
  if backup.type = [] then .error (.field (.required "backup type"))
  else if backup.type ∉ ScheduleStore.backupTypes then .error (.type backup.type)
  else do
    (ScheduleStore.validateResourceID "backup manifest id" backup.manifestID).mapError .field
    if backup.endedAt.isZero then .error (.field (.required "backup ended_at"))
    else .ok ()

-- The operations of the stores, each one transaction.
inductive Op
  | get (id : Bytes) | list | save (job : JobRecord) | saveBackup (backup : BackupRecord)
  | saveEvidence (artifact : EvidenceArtifact)

@[reducible]
def Reply : Op → Type
  | .get _ => Option JobRecord
  | .list => List JobRecord
  | .save _ => Unit
  | .saveBackup _ => Except BackupRefusal Unit
  | .saveEvidence _ => Unit

def jobOrder (a b : JobRecord) : Bool :=
  if a.queuedAt.instant = b.queuedAt.instant then decide (a.id ≤ b.id) else decide (a.queuedAt.instant < b.queuedAt.instant)

def exec : (op : Op) → Stores → Reply op × Stores
  | .get id,s => (s.jobs.get id,s)
  | .list,s => (s.jobs.rows.mergeSort jobOrder,s)
  | .save job,s => ((),{s with jobs := s.jobs.put job})
  | .saveBackup backup,s =>
    match validateBackup backup with
    | .error cause => (.error cause,s)
    | .ok _ => (.ok (),{s with backups := s.backups.put backup})
  | .saveEvidence artifact,s =>
    ((),{s with evidence := s.evidence.put artifact,evidenceByJob := s.evidenceByJob.put (artifact.jobID,artifact.id)})

abbrev Server := Program Op Reply

def ask (op : Op) : Server (Reply op) := Program.ask op

def isZero (id : Bytes) : Bool := trimSpace id = []

def getJob (id : Bytes) : Server (Except Fault JobRecord) :=
  if isZero id then pure (.error .idRequired)
  else do
    match ← ask (.get id) with
    | none => pure (.error (.notFound id))
    | some job => pure (.ok job)

def startedOn (agentID : Bytes) (now : Time) (job : JobRecord) : JobRecord :=
  {job with status := .running,startedAt := now.utc,agentID := agentID}

def ended (status : JobStatus) (message : Bytes) (now : Time) (job : JobRecord) : JobRecord :=
  {job with status := status,endedAt := now.utc,error := message}

def requeued (now : Time) (job : JobRecord) : JobRecord :=
  {job with
    status := .queued
    queuedAt := now.utc
    startedAt := Time.zero
    endedAt := Time.zero
    error := []
    agentID := []}

def startOnAgent (id agentID : Bytes) (now : Time) : Server (Except Fault JobRecord) := do
  match ← getJob id with
  | .error fault => pure (.error fault)
  | .ok job =>
    if job.status ≠ .queued then pure (.error (.wantQueued id job.status))
    else do
      ask (.save (startedOn agentID now job))
      pure (.ok (startedOn agentID now job))

inductive RequestStatus
  | known (status : JobStatus) | other (text : Bytes)
  deriving DecidableEq

def RequestStatus.terminal : RequestStatus → Option JobStatus
  | .known status => if terminalJobStatus status then some status else none
  | .other _ => none

def finish (id : Bytes) (status : RequestStatus) (message : Bytes) (now : Time) : Server (Except Fault JobRecord) :=
  match status.terminal with
  | none => pure (.error .notTerminal)
  | some status => do
    match ← getJob id with
    | .error fault => pure (.error fault)
    | .ok job =>
      if terminalJobStatus job.status then pure (.error (.alreadyEnded id job.status))
      else do
        ask (.save (ended status message now job))
        pure (.ok (ended status message now job))

def retry (id : Bytes) (now : Time) : Server (Except Fault JobRecord) := do
  match ← getJob id with
  | .error fault => pure (.error fault)
  | .ok job =>
    if job.status ≠ .failed ∧ job.status ≠ .canceled then pure (.error (.wantEnded id job.status))
    else do
      ask (.save (requeued now job))
      pure (.ok (requeued now job))

def isLost (lost : List Bytes) (job : JobRecord) : Bool :=
  job.agentID ≠ [] && decide (job.agentID ∈ lost) && active job.status

def failEach (now : Time) : List JobRecord → Server (List Bytes)
  | [] => pure []
  | job :: rest => do
    ask (.save (ended .failed (ascii "agent_lost") now job))
    let ids ← failEach now rest
    pure (job.id :: ids)

def failLostAgentJobs (agents : List AgentSnapshot) (now : Time) : Server (List Bytes) :=
  if lostAgents agents = [] then pure []
  else do
    let jobs ← ask .list
    failEach now (jobs.filter (isLost (lostAgents agents)))

def targetHasActiveJob (jobs : List JobRecord) (candidate : JobRecord) : Bool :=
  if isZero candidate.targetID then false
  else jobs.any (fun job => decide (job.id ≠ candidate.id) && decide (job.targetID = candidate.targetID) && active job.status)

def agentCapacityReached (agents : List AgentSnapshot) (jobs : List JobRecord) : Bool :=
  match healthyAgentCapacity agents with
  | none => false
  | some capacity => decide (capacity ≤ (jobs.countP (fun job => active job.status) : Int))

-- What the server is configured with: which stores there are, the agent label of
-- a target, and the digest of evidence that can be written as JSON.
structure Settings where
  backups : Bool
  evidence : Bool
  assigned : Bytes → Option Bytes
  digest : RestoreEvidence → Option Bytes

section
variable (settings : Settings)

def jobMatchesAgent (job : JobRecord) (agentID : Bytes) : Bool :=
  if agentID = [] || isZero job.targetID then true
  else match settings.assigned job.targetID with
    | none => true
    | some label => trimSpace label = [] || decide (trimSpace label = agentID)

def claimable (jobs : List JobRecord) (agentID : Bytes) (job : JobRecord) : Bool :=
  decide (job.status = .queued) && !targetHasActiveJob jobs job && jobMatchesAgent settings job agentID

-- The registry is looked at for the sweep and once more for the capacity.
def handleClaimJob (header : Bytes) (seen : List AgentSnapshot) (swept : Time) (agents : List AgentSnapshot)
    (now : Time) : Server Response := do
  let _ ← failLostAgentJobs seen swept
  let jobs ← ask .list
  if agentCapacityReached agents jobs then pure (.claimed none)
  else match jobs.find? (claimable settings jobs (trimSpace header)) with
    | none => pure (.claimed none)
    | some job => do
      match ← startOnAgent job.id (trimSpace header) now with
      | .error _ => pure (.refused .claimJob)
      | .ok started => pure (.claimed (some started))

structure FinishRequest where
  status : RequestStatus
  error : Bytes
  backup : Option BackupRecord
  failure : Option FailureEvidence
  restore : Option RestoreReport
  verification : Option VerificationReport
  deriving DecidableEq

def finishRefusal (request : FinishRequest) (job : JobRecord) : Option Refusal :=
  if request.backup.isSome ∧ request.status ≠ .known .succeeded then some .backupStatus
  else if request.backup.isSome ∧ job.operation ≠ .unset ∧ job.operation ≠ .backup then some .backupOperation
  else if request.backup.isSome ∧ settings.backups = false then some .backupStore
  else if request.verification.isSome ∧ request.status ≠ .known .succeeded then some .verificationStatus
  else if request.verification.isSome ∧ job.operation ≠ .verify then some .verificationOperation
  else if request.restore.isSome ∧ request.status ≠ .known .succeeded then some .restoreStatus
  else if request.restore.isSome ∧ job.operation ≠ .restore then some .restoreOperation
  else if request.failure.isSome ∧ request.status ≠ .known .failed then some .failureStatus
  else if request.failure.isSome ∧ job.operation ≠ .restore then some .failureOperation
  else none

-- What is left open in a request is taken from the job.
def orElse (id fallback : Bytes) : Bytes := if isZero id then fallback else id

def orElseTime (t fallback : Time) : Time := if t.isZero then fallback else t

def backupFor (job : JobRecord) (backup : BackupRecord) : BackupRecord :=
  {backup with
    jobID := orElse backup.jobID job.id
    targetID := orElse backup.targetID job.targetID
    storageID := orElse backup.storageID job.storageID
    type := if backup.type = [] then job.type else backup.type
    startedAt := orElseTime backup.startedAt job.startedAt
    endedAt := orElseTime backup.endedAt job.endedAt}

def verificationFor (job : JobRecord) (report : VerificationReport) : VerificationReport :=
  {report with
    backupID := orElse report.backupID job.verifyBackupID
    level := if report.level = .unset then job.verifyLevel else report.level
    manifestIDs := if report.manifestIDs = [] then job.verifyManifestIDs else report.manifestIDs}

def restoreManifests (job : JobRecord) (given : List Bytes) : List Bytes :=
  let listed := if given = [] then job.restoreManifestIDs else given
  if listed = [] ∧ isZero job.restoreManifestID = false then [job.restoreManifestID] else listed

def restoreFor (job : JobRecord) (report : RestoreReport) : RestoreReport :=
  {report with
    backupID := orElse report.backupID job.restoreBackupID
    targetID := orElse (orElse report.targetID job.restoreTargetID) job.targetID
    manifestIDs := restoreManifests job report.manifestIDs
    dryRun := job.restoreDryRun}

def failureFor (job : JobRecord) (evidence : FailureEvidence) : FailureEvidence :=
  {evidence with
    operation := if evidence.operation = .unset then job.operation else evidence.operation
    stage := if evidence.stage = [] then ascii "restore" else evidence.stage
    message := if evidence.message = [] then job.error else evidence.message
    backupID := orElse evidence.backupID job.restoreBackupID
    targetID := orElse (orElse evidence.targetID job.restoreTargetID) job.targetID
    storageID := orElse evidence.storageID job.storageID
    manifestIDs := restoreManifests job evidence.manifestIDs
    occurredAt := orElseTime evidence.occurredAt job.endedAt}

def evidenceOf (job : JobRecord) : RestoreEvidence where
  operation := job.operation
  status := job.status
  backupID := job.restoreBackupID
  targetID := orElse job.restoreTargetID job.targetID
  storageID := job.storageID
  manifestIDs := restoreManifests job []
  restoreAt := job.restoreAt
  dryRun := job.restoreDryRun
  replaceExisting := job.restoreReplaceExisting
  queuedAt := job.queuedAt
  startedAt := job.startedAt
  endedAt := job.endedAt
  error := job.error
  report := job.restoreReport
  failure := job.failureEvidence

def buildRestoreEvidenceArtifact (job : JobRecord) (now : Time) : Option EvidenceArtifact := do
  let sha ← settings.digest (evidenceOf job)
  return ⟨ascii "restore-evidence-" ++ sha,job.id,ascii "restore",sha,orElseTime job.endedAt now.utc,evidenceOf job⟩

def attachVerification (job : JobRecord) : Option VerificationReport → Server JobRecord
  | none => pure job
  | some report => do
    ask (.save {job with verifyReport := some (verificationFor job report)})
    pure {job with verifyReport := some (verificationFor job report)}

def attachRestore (job : JobRecord) : Option RestoreReport → Server JobRecord
  | none => pure job
  | some report => do
    ask (.save {job with restoreReport := some (restoreFor job report)})
    pure {job with restoreReport := some (restoreFor job report)}

def attachFailure (job : JobRecord) : Option FailureEvidence → Server JobRecord
  | none => pure job
  | some evidence => do
    ask (.save {job with failureEvidence := some (failureFor job evidence)})
    pure {job with failureEvidence := some (failureFor job evidence)}

def attachEvidence (job : JobRecord) (now : Time) : Server Response :=
  if job.operation = .restore ∧ (job.restoreReport.isSome ∨ job.failureEvidence.isSome) then
    match buildRestoreEvidenceArtifact settings job now with
    | none => pure (.refused .buildEvidence)
    | some artifact => do
      if settings.evidence then ask (.saveEvidence artifact) else pure ()
      ask (.save {job with evidenceArtifact := some artifact})
      pure (.job {job with evidenceArtifact := some artifact})
  else pure (.job job)

def attachReports (request : FinishRequest) (job : JobRecord) (now : Time) : Server Response := do
  let job ← attachVerification job request.verification
  let job ← attachRestore job request.restore
  let job ← attachFailure job request.failure
  attachEvidence settings job now

def attachAll (request : FinishRequest) (now : Time) : Except Fault JobRecord → Server Response
  | .error (.notFound _) => pure (.refused .notFound)
  | .error fault => pure (.refused (.orchestrator fault))
  | .ok job =>
    match request.backup with
    | none => attachReports settings request job now
    | some backup => do
      match ← ask (.saveBackup (backupFor job backup)) with
      | .error cause => pure (.refused (.backupRecord cause))
      | .ok _ => attachReports settings request job now

def handleFinishJob (id : Bytes) (body : Option FinishRequest) (now : Time) : Server Response :=
  match body with
  | none => pure (.refused .invalidFinish)
  | some request => do
    match ← getJob id with
    | .error .idRequired => pure (.refused .getJob)
    | .error _ => pure (.refused .notFound)
    | .ok current =>
      match finishRefusal settings request current with
      | some refusal => pure (.refused refusal)
      | none => do
        let result ← finish id request.status request.error now
        attachAll settings request now result

end

def answer (result : Except Fault JobRecord) : Response :=
  match result with
  | .error (.notFound _) => .refused .notFound
  | .error fault => .refused (.orchestrator fault)
  | .ok job => .job job

def handleCancelJob (id : Bytes) (now : Time) : Server Response := do
  let result ← finish id (.known .canceled) (ascii "canceled") now
  pure (answer result)

def handleRetryJob (id : Bytes) (now : Time) : Server Response := do
  let result ← retry id now
  pure (answer result)

def sweep (agents : List AgentSnapshot) (now : Time) : Server Response := do
  let ids ← failLostAgentJobs agents now
  pure (.swept ids)

-- A new job; a backup that names its parent is saved once more with it.
def newJob (job : JobRecord) : JobRecord :=
  {requeued job.queuedAt job with
    restoreReport := none
    failureEvidence := none
    evidenceArtifact := none
    verifyReport := none}

def enqueue (job : JobRecord) (parentID : Bytes) : Server Response := do
  ask (.save (newJob job))
  if isZero parentID then pure (.job (newJob job))
  else do
    ask (.save {newJob job with parentBackupID := parentID})
    pure (.job {newJob job with parentBackupID := parentID})

inductive Request
  | claim (header : Bytes) (seen : List AgentSnapshot) (swept : Time) (agents : List AgentSnapshot) (now : Time)
  | finish (header id : Bytes) (body : Option FinishRequest) (now : Time) | cancel (id : Bytes) (now : Time)
  | retry (id : Bytes) (now : Time) | sweep (seen : List AgentSnapshot) (now : Time)
  | enqueue (job : JobRecord) (parentID : Bytes)

def Request.isClaim : Request → Bool
  | .claim _ _ _ _ _ => true
  | _ => false

-- The agent that reports a job is not looked at.
def handler (settings : Settings) : Request → Server Response
  | .claim header seen swept agents now => handleClaimJob settings header seen swept agents now
  | .finish _ id body now => handleFinishJob settings id body now
  | .cancel id now => handleCancelJob id now
  | .retry id now => handleRetryJob id now
  | .sweep seen now => sweep seen now
  | .enqueue job parentID => enqueue job parentID

abbrev JobSystem := System Stores Request Op Reply Response

section
variable {α β : Type}

theorem bind_call (op : Op) (next : Reply op → Server α) (f : α → Server β) :
    ((Program.call op next : Server α) >>= f) = .call op (fun reply => next reply >>= f) := rfl

theorem ask_bind (op : Op) (f : Reply op → Server β) : (ask op >>= f) = .call op f := rfl

-- The Orchestrator's operations as one reading and one writing.
def withJob (id : Bytes) (missing : Fault → Server α) (found : JobRecord → Server α) : Server α :=
  if isZero id then missing .idRequired
  else .call (.get id) (fun reply : Option JobRecord => match reply with
    | none => missing (.notFound id)
    | some job => found job)

theorem getJob_bind (id : Bytes) (f : Except Fault JobRecord → Server β) :
    (getJob id >>= f) = withJob id (fun fault => f (.error fault)) (fun job => f (.ok job)) := by
  unfold getJob withJob
  split
  · rfl
  · rw [ask_bind,bind_call]
    congr 1
    funext reply
    cases reply <;> rfl

theorem withJob_bind (id : Bytes) (missing : Fault → Server α) (found : JobRecord → Server α) (f : α → Server β) :
    (withJob id missing found >>= f) = withJob id (fun fault => missing fault >>= f) (fun job => found job >>= f) := by
  unfold withJob
  split
  · rfl
  · rw [bind_call]
    congr 1
    funext reply
    cases reply <;> rfl

theorem startOnAgent_bind (id agentID : Bytes) (now : Time) (f : Except Fault JobRecord → Server β) :
    (startOnAgent id agentID now >>= f) = withJob id (fun fault => f (.error fault)) (fun job =>
      if job.status ≠ .queued then f (.error (.wantQueued id job.status))
      else .call (.save (startedOn agentID now job)) (fun _ => f (.ok (startedOn agentID now job)))) := by
  unfold startOnAgent
  rw [getJob_bind,withJob_bind]
  congr 1
  funext job
  dsimp only
  split <;> rfl

theorem finish_bind (id : Bytes) (status : RequestStatus) (message : Bytes) (now : Time)
    (f : Except Fault JobRecord → Server β) : (finish id status message now >>= f) = match status.terminal with
      | none => f (.error .notTerminal)
      | some status => withJob id (fun fault => f (.error fault)) (fun job =>
          if terminalJobStatus job.status then f (.error (.alreadyEnded id job.status))
          else .call (.save (ended status message now job)) (fun _ => f (.ok (ended status message now job)))) := by
  unfold finish
  cases status.terminal with
  | none => rfl
  | some =>
    dsimp only
    rw [getJob_bind,withJob_bind]
    congr 1
    funext job
    dsimp only
    split <;> rfl

theorem retry_bind (id : Bytes) (now : Time) (f : Except Fault JobRecord → Server β) :
    (retry id now >>= f) = withJob id (fun fault => f (.error fault)) (fun job =>
      if job.status ≠ .failed ∧ job.status ≠ .canceled then f (.error (.wantEnded id job.status))
      else .call (.save (requeued now job)) (fun _ => f (.ok (requeued now job)))) := by
  unfold retry
  rw [getJob_bind,withJob_bind]
  congr 1
  funext job
  dsimp only
  split <;> rfl

theorem failLost_bind (agents : List AgentSnapshot) (now : Time) (f : List Bytes → Server β) :
    (failLostAgentJobs agents now >>= f) = if lostAgents agents = [] then f []
      else .call .list (fun jobs => failEach now (jobs.filter (isLost (lostAgents agents))) >>= f) := by
  unfold failLostAgentJobs
  split <;> rfl

theorem failEach_bind (now : Time) (job : JobRecord) (rest : List JobRecord) (f : List Bytes → Server β) :
    (failEach now (job :: rest) >>= f) = .call (.save (ended .failed (ascii "agent_lost") now job))
      (fun _ => failEach now rest >>= fun ids => f (job.id :: ids)) := by
  change Program.call _ _ = Program.call _ _
  congr 1
  funext reply
  exact Program.bind_assoc (failEach now rest) _ f

end
end Kronos.JobServer
