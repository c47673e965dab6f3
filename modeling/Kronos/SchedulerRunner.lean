import Kronos.JobRecords

namespace Kronos.SchedulerRunner
open ByteRange Utf8 Strings Rfc3339 CronExpression WindowExpression Scheduler JobRecords RecordTable
open Retention (Backup)

-- What a tick of the server works on. The backups are in the order their store
-- lists them; a server may run without that store.
structure Stores where
  schedules : Table Schedule.id
  states : Table (fun state : ScheduleState => state.schedule.id)
  jobs : JobTable
  backups : Option (List Backup)

def scheduleOrder (a b : Schedule) : Bool := if a.name = b.name then decide (a.id ≤ b.id) else decide (a.name < b.name)

def listSchedules (stores : Stores) : List Schedule := stores.schedules.rows.mergeSort scheduleOrder

def stateOf (stores : Stores) (schedule : Schedule) : ScheduleState :=
  match stores.states.get schedule.id with
  | some state => {state with schedule := schedule}
  | none => ⟨schedule,Time.zero,Time.zero,.unset,0⟩

def scheduledBackupNeedsParent (type : Bytes) : Bool := type = ascii "incr" || type = ascii "diff"

def parentFits (due : DueJob) (backup : Backup) : Bool :=
  if backup.targetID ≠ due.targetID ∨ backup.storageID ≠ due.storageID ∨ blank backup.manifestID then false
  else if due.type = ascii "diff" then backup.type = ascii "full"
  else if due.type = ascii "incr" then
    backup.type = ascii "full" || backup.type = ascii "incr" || backup.type = ascii "diff"
  else true

def selectParentBackup (backups : List Backup) (due : DueJob) : Option Backup := backups.find? (parentFits due)

def attachParent (backups : List Backup) (due : DueJob) : DueJob :=
  if scheduledBackupNeedsParent due.type then
    match selectParentBackup backups due with
    | some parent => {due with parentBackupID := parent.id}
    | none => {due with type := ascii "full",parentBackupID := []}
  else due

def attachParentBackups (backups : Option (List Backup)) (due : List DueJob) : List DueJob :=
  match backups with
  | some backups => due.map (attachParent backups)
  | none => due

def jobOf (now : Time) (id : Bytes) (item : DueJob) : JobRecord :=
  {backupJob id item.targetID item.storageID item.type (if item.queuedAt.isZero then now.utc else item.queuedAt) with
    scheduleID := item.scheduleID,parentBackupID := item.parentBackupID,hooks := item.hooks}

-- The identifiers come from a random source, one for each job.
def enqueueDue (now : Time) (fresh : Nat → Bytes) (due : List DueJob) : List JobRecord :=
  due.mapIdx (fun i item => jobOf now (fresh i) item)

section
variable (zones : Bytes → Option Zone) (wall : Time)

def evaluate (stores : Stores) (now : Time) : Except Fault (List DueJob × List ScheduleState) :=
  tick zones wall ((listSchedules stores).map (stateOf stores)) now.utc

-- SchedulerRunner.Tick when every store operation succeeds.
def runTick (stores : Stores) (now : Time) (fresh : Nat → Bytes) : Stores × Except Fault (List JobRecord) :=
  match evaluate zones wall stores now with
  | .error e => (stores,.error e)
  | .ok (due,updated) =>
    let jobs := enqueueDue now fresh (attachParentBackups stores.backups due)
    ({stores with states := stores.states.putAll updated,jobs := stores.jobs.putAll jobs},.ok jobs)

end

end Kronos.SchedulerRunner
