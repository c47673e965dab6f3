import Kronos.JobServer
import Kronos.RetentionSafety

namespace Kronos.BackupProtection
open ByteRange Utf8 Rfc3339 RecordTable JobRecords Retention RetentionSafety Interleaving
open JobServer (BackupRefusal validateBackup)

-- The operations of the backup store, each one transaction.
inductive Op
  | get (id : Bytes) | list | save (backup : BackupRecord) | delete (id : Bytes)

@[reducible]
def Reply : Op → Type
  | .get _ => Option BackupRecord
  | .list => List BackupRecord
  | .save _ => Except BackupRefusal Unit
  | .delete _ => Unit

def backupOrder (a b : BackupRecord) : Bool :=
  if a.endedAt.instant = b.endedAt.instant then decide (a.id ≤ b.id) else decide (b.endedAt.instant < a.endedAt.instant)

def exec : (op : Op) → BackupTable → Reply op × BackupTable
  | .get id,table => (table.get id,table)
  | .list,table => (table.rows.mergeSort backupOrder,table)
  | .save backup,table =>
    match validateBackup backup with
    | .error cause => (.error cause,table)
    | .ok _ => (.ok (),table.put backup)
  | .delete id,table => ((),table.delete id)

abbrev Server := Program Op Reply

def ask (op : Op) : Server (Reply op) := Program.ask op

inductive Fault
  | keyRequired | notFound (id : Bytes) | save (cause : BackupRefusal)

inductive Refusal
  | notFound | protectBackup | invalidApply | resolve (fault : Retention.Fault) | deleteBackup

inductive Response
  | refused (refusal : Refusal) | backup (backup : BackupRecord)
  | applied (plan : Plan) (deleted : List Bytes) (dryRun : Bool)

def protect (id : Bytes) (isProtected : Bool) : Server (Except Fault BackupRecord) :=
  if id = [] then pure (.error .keyRequired)
  else do
    match ← ask (.get id) with
    | none => pure (.error (.notFound id))
    | some backup => do
      match ← ask (.save {backup with isProtected := isProtected}) with
      | .error cause => pure (.error (.save cause))
      | .ok _ => pure (.ok {backup with isProtected := isProtected})

def handleProtectBackup (id : Bytes) (isProtected : Bool) : Server Response := do
  match ← protect id isProtected with
  | .error (.notFound _) => pure (.refused .notFound)
  | .error _ => pure (.refused .protectBackup)
  | .ok backup => pure (.backup backup)

structure ApplyRequest where
  policy : List RetentionRule
  now : Time
  dryRun : Bool

def deleteAll (answer : Response) : List Bytes → Server Response
  | [] => pure answer
  | id :: rest =>
    if id = [] then pure (.refused .deleteBackup)
    else do
      ask (.delete id)
      deleteAll answer rest

section
variable (values : Values)

def planned (request : ApplyRequest) (clock : Time) (backups : List BackupRecord) : Server Response :=
  match resolve values clock (backups.map BackupRecord.toBackup) request.policy request.now with
  | .error fault => pure (.refused (.resolve fault))
  | .ok plan =>
    if request.dryRun then pure (.applied plan plan.dropIDs true)
    else deleteAll (.applied plan plan.dropIDs false) plan.dropIDs

def handleRetentionApply (body : Option ApplyRequest) (clock : Time) : Server Response :=
  match body with
  | none => pure (.refused .invalidApply)
  | some request => do
    let backups ← ask .list
    planned values request clock backups

inductive Request
  | protect (id : Bytes) (isProtected : Bool) | apply (body : Option ApplyRequest) (clock : Time)

def handler : Request → Server Response
  | .protect id isProtected => handleProtectBackup id isProtected
  | .apply body clock => handleRetentionApply values body clock

end

abbrev BackupSystem := System BackupTable Request Op Reply Response

inductive Deleting (id : Bytes) : Server Response → Prop
  | now {next : Reply (.delete id) → Server Response} : Deleting id (.call (.delete id) next)
  | later {other : Bytes} {next : Reply (.delete other) → Server Response} (rest : Deleting id (next ())) :
      Deleting id (.call (.delete other) next)

def Saving (id : Bytes) (program : Server Response) : Prop :=
  ∃ backup next, program = .call (.save backup) next ∧ backup.id = id

-- Backups are only protected. A backup is read for that only while no request is going to
-- delete it, and the listing for a retention plan is taken only while no request is about to
-- save a backup that the plan drops.
def Careful (s : BackupSystem) : Move Request Op → Prop
  | .accept _ (.protect _ isProtected) => isProtected = true
  | .perform _ (.get id) => ∀ place request program, s.tasks place = some (request,program) → ¬ Deleting id program
  | .perform place .list => ∀ request next, s.tasks place = some (request,.call .list next) →
      ∀ id, Deleting id (next (exec .list s.state).1) →
        ∀ other served program, s.tasks other = some (served,program) → ¬ Saving id program
  | _ => True

def saved (backup : BackupRecord) (reply : Except BackupRefusal Unit) : Server Response :=
  match reply with
  | .error _ => .done (.refused .protectBackup)
  | .ok _ => .done (.backup backup)

def found (isProtected : Bool) (reply : Option BackupRecord) : Server Response :=
  match reply with
  | none => .done (.refused .notFound)
  | some backup =>
    .call (.save {backup with isProtected := isProtected}) (saved {backup with isProtected := isProtected})

theorem handleProtectBackup_found (id : Bytes) (isProtected : Bool) : handleProtectBackup id isProtected =
    if id = [] then .done (.refused .protectBackup) else .call (.get id) (found isProtected) := by
  unfold handleProtectBackup protect
  split
  · rfl
  · change Program.call _ _ = Program.call _ _
    congr 1
    funext reply
    cases reply with
    | none => rfl
    | some =>
      change Program.call _ _ = Program.call _ _
      congr 1
      funext reply
      cases reply <;> rfl

inductive Shape (values : Values) : Request → Server Response → Prop
  | done (request : Request) (answer : Response) : Shape values request (.done answer)
  | reading (id : Bytes) : Shape values (.protect id true) (.call (.get id) (found true))
  | saving (id : Bytes) (backup : BackupRecord) (known : backup.id = id) (guarded : backup.isProtected = true) :
      Shape values (.protect id true) (.call (.save backup) (saved backup))
  | listing (request : ApplyRequest) (clock : Time) :
      Shape values (.apply (some request) clock) (.call .list (planned values request clock))
  | deleting (body : Option ApplyRequest) (clock : Time) (answer : Response) (id : Bytes) (rest : List Bytes) :
      Shape values (.apply body clock) (.call (.delete id) (fun _ => deleteAll answer rest))

theorem deleteAll_shape (body : Option ApplyRequest) (clock : Time) (answer : Response) (ids : List Bytes) :
    Shape values (.apply body clock) (deleteAll answer ids) := by
  cases ids with
  | nil => exact .done _ _
  | cons id rest =>
    unfold deleteAll
    split
    · exact .done _ _
    · exact .deleting body clock answer id rest

theorem deleteAll_members {id : Bytes} (ids : List Bytes) (deleting : Deleting id (deleteAll answer ids)) :
    id ∈ ids := by
  induction ids with
  | nil => cases deleting
  | cons _ _ ih =>
    unfold deleteAll at deleting
    split at deleting
    · cases deleting
    · cases deleting with
      | now => exact List.mem_cons_self
      | later others => exact List.mem_cons_of_mem _ (ih others)

def Protected (table : BackupTable) (id : Bytes) : Prop := ∃ backup, table.get id = some backup ∧ backup.isProtected = true

def Completed (s : BackupSystem) (place : Nat) (id : Bytes) : Prop :=
  ∃ backup, s.tasks place = some (.protect id true,.done (.backup backup))

section
variable {values : Values}

theorem handler_shape (request : Request) (guards : ∀ id, request ≠ .protect id false) :
    Shape values request (handler values request) := by
  cases request with
  | protect id isProtected =>
    cases isProtected with
    | false => exact absurd rfl (guards id)
    | true =>
      change Shape values _ (handleProtectBackup id true)
      rw [handleProtectBackup_found]
      split
      · exact .done _ _
      · exact .reading id
  | apply body clock =>
    cases body with
    | none => exact .done _ _
    | some request => exact .listing request clock

theorem planned_shape (request : ApplyRequest) (clock : Time) (backups : List BackupRecord) :
    Shape values (.apply (some request) clock) (planned values request clock backups) := by
  unfold planned
  split
  · exact .done _ _
  · split
    · exact .done _ _
    · exact deleteAll_shape _ _ _ _

theorem planned_spares {request : ApplyRequest} {id : Bytes}
    (deleting : Deleting id (planned values request clock (exec .list table).1)) : ¬ Protected table id := by
  intro guarded
  obtain ⟨backup,stored,isProtected⟩ := guarded
  obtain ⟨present,known⟩ := table.get_exact.1 stored
  have names : ((exec .list table).1.map BackupRecord.toBackup).map Backup.id = (table.rows.mergeSort backupOrder).map (·.id) :=
    List.map_map
  have distinct : (((exec .list table).1.map BackupRecord.toBackup).map Backup.id).Nodup := by
    rw [names]
    exact ((List.mergeSort_perm table.rows backupOrder).map (·.id)).nodup_iff.2 table.rows_nodup
  have listed : backup.toBackup ∈ (exec .list table).1.map BackupRecord.toBackup :=
    List.mem_map_of_mem (List.mem_mergeSort.2 present)
  unfold planned at deleting
  split at deleting
  · cases deleting
  · rename_i plan resolved
    split at deleting
    · cases deleting
    · have dropped := deleteAll_members _ deleting
      have settled := resolve_exact distinct resolved
      obtain ⟨item,there,same,_,isDropped⟩ := settled.keep_iff distinct listed
      have kept := settled.isProtected item there (by rw [same]; exact isProtected)
      rw [isDropped.1 (known ▸ dropped)] at kept
      cases kept

end

-- The task saves the backup or has answered with it.
def Counts (id : Bytes) (task : Request × Server Response) : Prop :=
  Saving id task.2 ∨ ∃ backup, task = (.protect id true,.done (.backup backup))

structure Invariant (values : Values) (s : BackupSystem) : Prop where
  shapes : ∀ place task, s.tasks place = some task → Shape values task.1 task.2
  apart : ∀ place other one task, s.tasks place = some one → s.tasks other = some task →
    ∀ id, Deleting id one.2 → ¬ Counts id task
  safe : ∀ place id, Completed s place id → Protected s.state id

section
variable {values : Values} {first : BackupTable} {s next : BackupSystem} {move : Move Request Op} {id : Bytes}

theorem start_invariant (first : BackupTable) : Invariant values ⟨first,fun _ => none,[]⟩ := by
  refine ⟨nofun,nofun,?_⟩
  rintro place id ⟨_,there⟩
  cases there

theorem counts_keeps (counts : Counts id task) : ¬ Deleting id task.2 := by
  intro deleting
  rcases counts with ⟨_,_,same,_⟩ | ⟨_,same⟩
  · rw [same] at deleting
    cases deleting
  · rw [same] at deleting
    cases deleting

-- A task that is replaced by another one: what it is going to delete, save or has answered
-- does not clash with the other tasks.
theorem replaced_preserves (invariant : Invariant values s) (shape : Shape values request program)
    (kept : ∀ other id, Completed s other id → Protected table id)
    (deletes : ∀ id, Deleting id program → ∀ other task, s.tasks other = some task → ¬ Counts id task)
    (counted : ∀ id, Counts id (request,program) → ∀ other task, s.tasks other = some task → ¬ Deleting id task.2)
    (answers : ∀ id backup, (request,program) = (.protect id true,.done (.backup backup)) → Protected table id) :
    Invariant values ⟨table,Function.update s.tasks place (some (request,program)),log⟩ := by
  refine ⟨?_,?_,?_⟩
  · intro other task there
    rcases updated_task there with ⟨_,rfl⟩ | ⟨_,before⟩
    · exact shape
    · exact invariant.shapes other task before
  · intro spot other one task there stands id deleting counts
    rcases updated_task there with ⟨_,rfl⟩ | ⟨_,before⟩
    · rcases updated_task stands with ⟨_,rfl⟩ | ⟨_,standing⟩
      · exact counts_keeps counts deleting
      · exact deletes id deleting other task standing counts
    · rcases updated_task stands with ⟨_,rfl⟩ | ⟨_,standing⟩
      · exact counted id counts spot one before deleting
      · exact invariant.apart spot other one task before standing id deleting counts
  · rintro other id ⟨backup,there⟩
    rcases updated_task there with ⟨_,same⟩ | ⟨_,before⟩
    · exact answers id backup same.symm
    · exact kept other id ⟨backup,before⟩

theorem idle_preserves (invariant : Invariant values s) (shape : Shape values request program)
    (idle : ∀ id, ¬ Deleting id program ∧ ¬ Counts id (request,program)) :
    Invariant values ⟨s.state,Function.update s.tasks place (some (request,program)),log⟩ :=
  replaced_preserves invariant shape invariant.safe (fun id deleting => absurd deleting (idle id).1)
    (fun id counts => absurd counts (idle id).2) fun id backup same => absurd (.inr ⟨backup,same⟩) (idle id).2

theorem refused_idle : ¬ Deleting id (.done (.refused refusal)) ∧ ¬ Counts id (request,.done (.refused refusal)) := by
  refine ⟨nofun,?_⟩
  rintro (⟨_,_,same,_⟩ | ⟨_,same⟩) <;> cases same

theorem apply_idle (shape : Shape values (.apply body clock) program) : ¬ Counts id (.apply body clock,program) := by
  rintro (⟨_,_,rfl,_⟩ | ⟨_,same⟩)
  · cases shape
  · cases same

theorem accept_preserves (invariant : Invariant values s) (guards : ∀ id, request ≠ .protect id false) :
    Invariant values {s with tasks := Function.update s.tasks place (some (request,handler values request))} := by
  have shape := @handler_shape values request guards
  refine idle_preserves invariant shape fun id => ?_
  cases request with
  | protect name isProtected =>
    change ¬ Deleting id (handleProtectBackup name isProtected) ∧ ¬ Counts id (_,handleProtectBackup name isProtected)
    rw [handleProtectBackup_found]
    split
    · exact refused_idle
    · refine ⟨nofun,?_⟩
      rintro (⟨_,_,same,_⟩ | ⟨_,same⟩) <;> cases same
  | apply body =>
    refine ⟨?_,apply_idle shape⟩
    cases body <;> exact nofun

theorem step_preserves (step : Step exec (handler values) s move next) (may : Careful s move) (invariant : Invariant values s) :
    Invariant values next := by
  cases step with
  | accept =>
    refine accept_preserves invariant ?_
    intro id same
    subst same
    cases may
  | perform place request _ _ turn =>
    have shape := invariant.shapes place _ turn
    cases shape with
    | reading id =>
      change Invariant values ⟨s.state,Function.update s.tasks place (some (_,found true (s.state.get id))),_⟩
      cases stored : s.state.get id with
      | none => exact idle_preserves invariant (.done _ _) fun _ => refused_idle
      | some backup =>
        have known : ({backup with isProtected := true} : BackupRecord).id = id := (s.state.get_exact.1 stored).2
        refine replaced_preserves invariant (.saving id {backup with isProtected := true} known rfl) invariant.safe
          nofun ?_ nofun
        rintro other (⟨_,_,same,names⟩ | ⟨_,same⟩) spot task there
        · cases same
          rw [← names,known]
          exact may spot _ _ there
        · cases same
    | saving id backup known guarded =>
      cases checked : validateBackup backup with
      | error cause =>
        have refused : exec (.save backup) s.state = (.error cause,s.state) := by
          simp only [exec,checked]
        rw [refused]
        exact idle_preserves invariant (.done _ _) fun _ => refused_idle
      | ok =>
        have stores : exec (.save backup) s.state = (.ok (),s.state.put backup) := by
          simp only [exec,checked]
        rw [stores]
        refine replaced_preserves invariant (.done _ _) ?_ nofun ?_ ?_
        · intro other name completed
          obtain ⟨stored,found,isProtected⟩ := invariant.safe other name completed
          unfold Protected
          rw [Table.get_put]
          split
          · exact ⟨backup,rfl,guarded⟩
          · exact ⟨stored,found,isProtected⟩
        · rintro name (⟨_,_,same,_⟩ | ⟨_,same⟩) other task there deleting
          · cases same
          · cases same
            exact invariant.apart other place task _ there turn id deleting (.inl ⟨backup,_,rfl,known⟩)
        · intro name answer same
          cases same
          exact ⟨backup,by rw [Table.get_put,if_pos known.symm],guarded⟩
    | listing request clock =>
      have later := @planned_shape values request clock (exec .list s.state).1
      refine replaced_preserves invariant later invariant.safe ?_ (fun _ counts => absurd counts (apply_idle later)) nofun
      rintro id deleting other task there (saving | ⟨backup,rfl⟩)
      · exact may _ _ turn id deleting other _ _ there saving
      · exact planned_spares deleting (invariant.safe other id ⟨backup,there⟩)
    | deleting body clock answer id rest =>
      have later := @deleteAll_shape values body clock answer rest
      refine replaced_preserves invariant later ?_ ?_ (fun _ counts => absurd counts (apply_idle later)) nofun
      · intro other name completed
        obtain ⟨stored,found,isProtected⟩ := invariant.safe other name completed
        obtain ⟨_,there⟩ := completed
        refine ⟨stored,?_,isProtected⟩
        change (s.state.delete id).get name = some stored
        rw [Table.get_delete,if_neg,found]
        rintro rfl
        exact invariant.apart place other _ _ turn there name .now (.inr ⟨_,rfl⟩)
      · intro name deleting other task there
        exact invariant.apart place other _ task turn there name (.later deleting)

-- In every run in which protecting and deleting a backup do not overlap, a backup that was
-- protected is in the store and protected.
theorem protected_backup_kept (reached : Reached exec (handler values) Careful first s) {place : Nat} {id : Bytes}
    (completed : Completed s place id) : Protected s.state id :=
  (reached.invariant (start_invariant first) (fun _ _ _ => step_preserves)).safe place id completed

end

def oldBackup : BackupRecord where
  id := ascii "b1"
  targetID := ascii "db"
  storageID := ascii "s3"
  type := ascii "full"
  parentID := []
  manifestID := ascii "m1"
  startedAt := ⟨1,0⟩
  endedAt := ⟨2,0⟩
  sizeBytes := 1
  isProtected := false
  jobID := ascii "j1"
  chunkCount := 1

def oneBackup : BackupTable := .single oldBackup

def keepNone : ApplyRequest := ⟨[⟨ascii "count",[(ascii "n",.int 0)]⟩],⟨9,0⟩,false⟩

def guard : Request := .protect (ascii "b1") true

def prune : Request := .apply (some keepNone) ⟨9,0⟩

def OneReached (allowed : BackupSystem → Move Request Op → Prop) (s : BackupSystem) : Prop :=
  Reached exec (handler noValues) allowed oneBackup s

def dropped : Plan := ⟨[⟨oldBackup.toBackup,false,[]⟩]⟩

theorem old_planned : planned noValues keepNone ⟨9,0⟩ (exec .list oneBackup).1 =
    .call (.delete (ascii "b1")) (fun _ => .done (.applied dropped [ascii "b1"] false)) := by
  have listed : (exec .list oneBackup).1 = [oldBackup] := List.mergeSort_singleton _
  have resolved : resolve noValues ⟨9,0⟩ [oldBackup.toBackup] keepNone.policy keepNone.now = .ok dropped := by
    rw [resolve,List.map_singleton,List.mergeSort_singleton]
    rfl
  rw [listed]
  unfold planned
  rw [List.map_singleton,resolved]
  rfl

def ProtectOnly (_ : BackupSystem) (move : Move Request Op) : Prop := ∀ place id, move ≠ .accept place (.protect id false)

theorem both_asked {allowed : BackupSystem → Move Request Op → Prop} (prunes : ∀ s place, allowed s (.accept place prune))
    (guards : ∀ s place, allowed s (.accept place guard)) :
    OneReached allowed ⟨oneBackup,row [(prune,.call .list (planned noValues keepNone ⟨9,0⟩)),
      (guard,handleProtectBackup (ascii "b1") true)],[]⟩ :=
  (Reached.none.accepts prune (prunes _ _)).accepts guard (guards _ _)

-- The plan is made, the backup is protected, and then it is deleted.
theorem protected_backup_deleted : ∃ s, OneReached ProtectOnly s ∧ Completed s 1 (ascii "b1") ∧
    s.tasks 0 = some (prune,.done (.applied dropped [ascii "b1"] false)) ∧ s.state.get (ascii "b1") = none := by
  have asked := @both_asked ProtectOnly (fun _ _ _ _ same => nomatch same) (fun _ _ _ _ same => nomatch same)
  have listed := asked.performs 0 rfl (fun _ _ same => nomatch same)
  rw [old_planned] at listed
  have isProtected := (listed.performs 1 rfl (fun _ _ same => nomatch same)).performs 1 rfl (fun _ _ same => nomatch same)
  exact ⟨_,isProtected.performs 0 rfl (fun _ _ same => nomatch same),⟨_,rfl⟩,rfl,rfl⟩

theorem protected_backup_stays : ∃ s, OneReached Careful s ∧ Completed s 1 (ascii "b1") ∧ Protected s.state (ascii "b1") := by
  have asked : OneReached Careful ⟨oneBackup,row [(prune,.call .list (planned noValues keepNone ⟨9,0⟩)),
      (guard,handleProtectBackup (ascii "b1") true)],[]⟩ := both_asked (fun _ _ => trivial) (fun _ _ => rfl)
  have read := asked.performs 1 rfl (by
    intro place request program there deleting
    rcases List.mem_pair.1 (List.mem_of_getElem? there) with same | same
    · cases same
      cases deleting
    · cases same
      cases deleting)
  have isProtected := read.performs 1 rfl trivial
  have planned := isProtected.performs 0 rfl (by
    intro request next _ id _ other served program there saving
    obtain ⟨_,_,saves,_⟩ := saving
    rcases List.mem_pair.1 (List.mem_of_getElem? there) with same | same
    · cases same
      cases saves
    · cases same
      cases saves)
  exact ⟨_,planned,⟨_,rfl⟩,@protected_backup_kept _ _ _ planned 1 (ascii "b1") ⟨_,rfl⟩⟩

end Kronos.BackupProtection
