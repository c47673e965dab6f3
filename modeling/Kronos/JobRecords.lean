import Kronos.Scheduler
import Kronos.RecordTable
import Kronos.Retention

namespace Kronos.JobRecords
open ByteRange Rfc3339 Scheduler RecordTable

inductive Operation
  | unset | backup | restore | verify | other (name : Bytes)
  deriving DecidableEq

inductive JobStatus
  | queued | running | finalizing | succeeded | failed | canceled
  deriving DecidableEq

inductive VerificationLevel
  | unset | manifest | chunk | other (name : Bytes)
  deriving DecidableEq

structure RestoreReport where
  backupID : Bytes
  targetID : Bytes
  manifestIDs : List Bytes
  objects : Int
  chunks : Int
  storedBytes : Int64
  restoredBytes : Int64
  dryRun : Bool
  deriving DecidableEq

structure VerificationReport where
  backupID : Bytes
  level : VerificationLevel
  manifestIDs : List Bytes
  objects : Int
  chunks : Int
  verifiedChunks : Int
  storedBytes : Int64
  restoredBytes : Int64
  deriving DecidableEq

structure FailureEvidence where
  operation : Operation
  stage : Bytes
  message : Bytes
  backupID : Bytes
  targetID : Bytes
  storageID : Bytes
  manifestIDs : List Bytes
  occurredAt : Time
  deriving DecidableEq

structure RestoreEvidence where
  operation : Operation
  status : JobStatus
  backupID : Bytes
  targetID : Bytes
  storageID : Bytes
  manifestIDs : List Bytes
  restoreAt : Time
  dryRun : Bool
  replaceExisting : Bool
  queuedAt : Time
  startedAt : Time
  endedAt : Time
  error : Bytes
  report : Option RestoreReport
  failure : Option FailureEvidence
  deriving DecidableEq

structure EvidenceArtifact where
  id : Bytes
  jobID : Bytes
  kind : Bytes
  sha256 : Bytes
  createdAt : Time
  restore : RestoreEvidence
  deriving DecidableEq

structure JobRecord where
  id : Bytes
  operation : Operation
  scheduleID : Bytes
  targetID : Bytes
  storageID : Bytes
  type : Bytes
  agentID : Bytes
  parentBackupID : Bytes
  restoreBackupID : Bytes
  restoreManifestID : Bytes
  restoreManifestIDs : List Bytes
  restoreTargetID : Bytes
  restoreAt : Time
  restoreDryRun : Bool
  restoreReplaceExisting : Bool
  restoreReport : Option RestoreReport
  failureEvidence : Option FailureEvidence
  evidenceArtifact : Option EvidenceArtifact
  verifyBackupID : Bytes
  verifyManifestID : Bytes
  verifyManifestIDs : List Bytes
  verifyLevel : VerificationLevel
  verifyReport : Option VerificationReport
  hooks : JobHooks
  status : JobStatus
  queuedAt : Time
  startedAt : Time
  endedAt : Time
  error : Bytes
  deriving DecidableEq

def backupJob (id targetID storageID type : Bytes) (queuedAt : Time) : JobRecord where
  id := id
  operation := .backup
  scheduleID := []
  targetID := targetID
  storageID := storageID
  type := type
  agentID := []
  parentBackupID := []
  restoreBackupID := []
  restoreManifestID := []
  restoreManifestIDs := []
  restoreTargetID := []
  restoreAt := Time.zero
  restoreDryRun := false
  restoreReplaceExisting := false
  restoreReport := none
  failureEvidence := none
  evidenceArtifact := none
  verifyBackupID := []
  verifyManifestID := []
  verifyManifestIDs := []
  verifyLevel := .unset
  verifyReport := none
  hooks := ⟨[],[]⟩
  status := .queued
  queuedAt := queuedAt
  startedAt := Time.zero
  endedAt := Time.zero
  error := []

structure BackupRecord extends Retention.Backup where
  jobID : Bytes
  chunkCount : Int
  deriving DecidableEq

abbrev JobTable := Table JobRecord.id

abbrev BackupTable := Table (fun backup : BackupRecord => backup.id)

def active (status : JobStatus) : Bool := status = .running || status = .finalizing

def terminalJobStatus (status : JobStatus) : Bool := status = .succeeded || status = .failed || status = .canceled

end Kronos.JobRecords
