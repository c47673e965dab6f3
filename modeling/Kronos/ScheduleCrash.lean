import Mathlib.Data.List.Induction
import Kronos.ScheduleIsolation

namespace Kronos.ScheduleCrash
open ByteRange Utf8 Rfc3339 CronExpression CronNext WindowExpression Scheduler JobRecords SchedulerRunner
open ScheduleIsolation Recurrence RecordTable

-- The store operations of SchedulerRunner.Tick in their order. A cursor that is
-- saved carries the state it was computed from, a job the due job it is for.
inductive Op
  | listSchedules | getState (id : Bytes) | saveState (before after : ScheduleState) | listBackups | newID
  | saveJob (job : JobRecord) (origin : DueJob)

-- The stores, the cursors saved so far with the time of their tick, and the
-- due jobs the stored jobs were made from.
structure World where
  stores : Stores
  moved : List (ScheduleState × Time)
  origins : List (Bytes × DueJob)

def saveOps (before after : List ScheduleState) : List Op :=
  (before.zip after).map (fun pair => .saveState pair.1 pair.2)

def jobOps (now : Time) (fresh : Nat → Bytes) (due : List DueJob) : List Op :=
  (due.mapIdx (fun i item => [.newID,.saveJob (jobOf now (fresh i) item) item])).flatten

def listOps (backups : Option (List Retention.Backup)) : List Op := if backups.isSome then [.listBackups] else []

def tickOps (zones : Bytes → Option Zone) (wall : Time) (stores : Stores) (now : Time) (fresh : Nat → Bytes) :
    List Op :=
  .listSchedules :: (listSchedules stores).map (fun schedule => .getState schedule.id) ++
    match evaluate zones wall stores now with
    | .error _ => []
    | .ok (due,updated) =>
      saveOps ((listSchedules stores).map (stateOf stores)) updated ++
        if due = [] then []
        else listOps stores.backups ++ jobOps now fresh (attachParentBackups stores.backups due)

def apply (tick : Time) (world : World) : Op → World
  | .saveState before after =>
    {world with
      stores := {world.stores with states := world.stores.states.put after},moved := (before,tick) :: world.moved}
  | .saveJob job origin =>
    {world with
      stores := {world.stores with jobs := world.stores.jobs.put job},origins := (job.id,origin) :: world.origins}
  | .listSchedules | .getState _ | .listBackups | .newID => world

def execute (tick : Time) (world : World) (ops : List Op) : World := ops.foldl (apply tick) world

-- A tick that stops after so many operations: the next one returned an error,
-- or the process was gone.
structure Attempt where
  wall : Time
  now : Time
  fresh : Nat → Bytes
  done : Nat

def Attempt.ops (zones : Bytes → Option Zone) (stores : Stores) (attempt : Attempt) : List Op :=
  tickOps zones attempt.wall stores attempt.now attempt.fresh

def Attempt.tick (attempt : Attempt) : Time := tickTime attempt.wall attempt.now

def Attempt.run (zones : Bytes → Option Zone) (world : World) (attempt : Attempt) : World :=
  execute attempt.tick world ((attempt.ops zones world.stores).take attempt.done)

-- A time of the schedule that a tick moves its cursor past.
def PassedBy (zones : Bytes → Option Zone) (state : ScheduleState) (tick t : Time) : Prop :=
  state.schedule.paused = false ∧ ∃ nextFn start n, nextFunc zones state.schedule = .ok nextFn ∧
    pending nextFn state tick = .ok start ∧ Reaches Time.instant nextFn tick.instant start n t

-- The job that stands for it: its own when every time is queued, and else the
-- one its tick makes of all times due.
def Stands (state : ScheduleState) (tick t : Time) (origin : DueJob) : Prop :=
  origin.scheduleID = state.schedule.id ∧ origin.queuedAt = tick ∧
    (state.catchUpPolicy = .queue → origin.dueAt = t)

def Covered (world : World) (state : ScheduleState) (tick t : Time) : Prop :=
  ∃ job ∈ world.stores.jobs.rows, ∃ origin, (job.id,origin) ∈ world.origins ∧ Stands state tick t origin

def NoneLost (zones : Bytes → Option Zone) (world : World) : Prop :=
  ∀ passage ∈ world.moved, ∀ t, PassedBy zones passage.1 passage.2 t → Covered world passage.1 passage.2 t

def FreshIDs (world : World) (fresh : Nat → Bytes) : Prop :=
  (∀ i j, fresh i = fresh j → i = j) ∧ ∀ i, ∀ job ∈ world.stores.jobs.rows, job.id ≠ fresh i

-- The tick goes through, or it stops before it saves the first cursor that
-- moves past a time.
def Safe (zones : Bytes → Option Zone) (world : World) (attempt : Attempt) : Prop :=
  (attempt.ops zones world.stores).length ≤ attempt.done ∨
    ∀ before after, .saveState before after ∈ (attempt.ops zones world.stores).take attempt.done →
      ∀ t, ¬ PassedBy zones before attempt.tick t

inductive Reached (zones : Bytes → Option Zone) : World → Prop
  | start (stores : Stores) : Reached zones ⟨stores,[],[]⟩
  | attempt {world : World} (attempt : Attempt) : Reached zones world → FreshIDs world attempt.fresh →
      Safe zones world attempt → Reached zones (attempt.run zones world)
  | edit {world : World} (schedules : Table Schedule.id) (backups : Option (List Retention.Backup)) :
      Reached zones world →
        Reached zones {world with stores := {world.stores with schedules := schedules,backups := backups}}

section
variable {tick : Time} {world : World} {ops : List Op}

@[elab_as_elim] theorem execute_keeps {P : World → Prop} (base : P world)
    (step : ∀ w, P w → ∀ op ∈ ops, P (apply tick w op)) : P (execute tick world ops) :=
  List.foldlRecOn ops (apply tick) base step

theorem execute_moved : ∀ passage ∈ (execute tick world ops).moved,
    passage ∈ world.moved ∨ ∃ before after, .saveState before after ∈ ops ∧ passage = (before,tick) := by
  refine execute_keeps (fun _ old => .inl old) ?_
  intro w known op member passage moved
  cases op with
  | saveState before after =>
    rcases List.mem_cons.mp moved with rfl | old
    · exact .inr ⟨before,after,member,rfl⟩
    · exact known passage old
  | _ => exact known passage moved

def jobIDs (ops : List Op) : List Bytes := ops.filterMap (fun op => match op with
  | .saveJob job _ => some job.id
  | _ => none)

theorem execute_jobs (distinct : (jobIDs ops).Nodup)
    (absent : ∀ id ∈ jobIDs ops, ∀ job ∈ world.stores.jobs.rows, job.id ≠ id)
    (made : job ∈ world.stores.jobs.rows ∧ (job.id,origin) ∈ world.origins ∨ .saveJob job origin ∈ ops) :
    job ∈ (execute tick world ops).stores.jobs.rows ∧ (job.id,origin) ∈ (execute tick world ops).origins := by
  induction ops generalizing world with
  | nil => exact made.resolve_right (List.not_mem_nil)
  | cons op rest ih =>
    have kept := @ih (apply tick world op)
    rw [List.mem_cons] at made
    cases op with
    | saveJob new from_ =>
      obtain ⟨unused,distinct⟩ := List.nodup_cons.mp distinct
      obtain ⟨here,later⟩ := List.forall_mem_cons.mp absent
      have placed : ∀ job, job ∈ (apply tick world (.saveJob new from_)).stores.jobs.rows ↔
          job = new ∨ job ∈ world.stores.jobs.rows ∧ job.id ≠ new.id :=
        fun job => world.stores.jobs.mem_put
      refine kept distinct ?_ ?_
      · intro id inside job member
        rcases (placed job).mp member with rfl | ⟨old,_⟩
        · intro same
          exact unused (same ▸ inside)
        · exact later id inside job old
      · rcases made with ⟨old,linked⟩ | same | new
        · exact .inl ⟨(placed job).mpr (.inr ⟨old,here job old⟩),List.mem_cons_of_mem _ linked⟩
        · cases same
          exact .inl ⟨(placed job).mpr (.inl rfl),List.mem_cons_self⟩
        · exact .inr new
    | _ => exact kept distinct absent (made.imp_right (·.resolve_left (fun same => nomatch same)))

end

theorem jobOps_snoc (now : Time) (fresh : Nat → Bytes) (due : List DueJob) (item : DueJob) :
    jobOps now fresh (due ++ [item]) =
      jobOps now fresh due ++ [.newID,.saveJob (jobOf now (fresh due.length) item) item] := by
  simp [jobOps,List.mapIdx_append]

theorem jobIDs_append (left right : List Op) : jobIDs (left ++ right) = jobIDs left ++ jobIDs right :=
  List.filterMap_append

theorem jobIDs_jobOps (now : Time) (fresh : Nat → Bytes) (due : List DueJob) :
    jobIDs (jobOps now fresh due) = (List.range due.length).map fresh := by
  induction due using List.reverseRecOn with
  | nil => rfl
  | append_singleton _ _ ih =>
    rw [jobOps_snoc,jobIDs_append,ih,List.length_append,List.length_singleton,List.range_succ,List.map_append]
    rfl

theorem jobIDs_saveOps (before after : List ScheduleState) : jobIDs (saveOps before after) = [] := by
  apply List.filterMap_eq_nil_iff.mpr
  intro op member
  obtain ⟨_,_,rfl⟩ := List.mem_map.mp member
  rfl

section
variable {zones : Bytes → Option Zone} {wall now : Time} {stores : Stores} {fresh : Nat → Bytes}

theorem jobIDs_tickOps : ∃ n, jobIDs (tickOps zones wall stores now fresh) = (List.range n).map fresh := by
  have reads : jobIDs (.listSchedules :: (listSchedules stores).map (fun schedule => .getState schedule.id)) = [] := by
    apply List.filterMap_eq_nil_iff.mpr
    intro op member
    rcases List.mem_cons.mp member with rfl | member
    · rfl
    · obtain ⟨_,_,rfl⟩ := List.mem_map.mp member
      rfl
  unfold tickOps
  rw [jobIDs_append,reads,List.nil_append]
  split
  · exact ⟨0,rfl⟩
  · rw [jobIDs_append,jobIDs_saveOps,List.nil_append]
    split
    · exact ⟨0,rfl⟩
    · have listing : jobIDs (listOps stores.backups) = [] := by
        unfold listOps
        split <;> rfl
      rw [jobIDs_append,listing,List.nil_append,jobIDs_jobOps]
      exact ⟨_,rfl⟩

theorem mem_jobOps {due : List DueJob} {item : DueJob} (member : item ∈ due) :
    ∃ job, job.id ∈ (List.range due.length).map fresh ∧ .saveJob job item ∈ jobOps now fresh due := by
  obtain ⟨i,inside,rfl⟩ := List.mem_iff_getElem.mp member
  refine ⟨jobOf now (fresh i) due[i],List.mem_map.mpr ⟨i,List.mem_range.mpr inside,rfl⟩,?_⟩
  apply List.mem_flatten.mpr
  refine ⟨_,List.mem_mapIdx.mpr ⟨i,inside,rfl⟩,?_⟩
  exact List.mem_cons_of_mem _ List.mem_cons_self

theorem mem_zip_map {α β : Type} {items : List α} {f : α → β} {pair : α × β} (member : pair ∈ items.zip (items.map f)) :
    pair.1 ∈ items ∧ pair.2 = f pair.1 := by
  have zipped : items.zip (items.map f) = items.map (fun item => (item,f item)) := by
    simpa using List.zip_map' (f := id)
  rw [zipped] at member
  obtain ⟨_,inside,rfl⟩ := List.mem_map.mp member
  exact ⟨inside,rfl⟩

-- The operations that write: cursors of the evaluated states, and jobs of the due times.
inductive Written (due : List DueJob) (before after : List ScheduleState) : Op → Prop
  | cursor {pair : ScheduleState × ScheduleState} : pair ∈ before.zip after →
      Written due before after (.saveState pair.1 pair.2)
  | job {job : JobRecord} {item : DueJob} : item ∈ due → Written due before after (.saveJob job item)
  | backups : Written due before after .listBackups | newID : Written due before after .newID

theorem mem_tickOps (member : op ∈ tickOps zones wall stores now fresh) :
    op = .listSchedules ∨ (∃ id, op = .getState id) ∨
      ∃ due updated, evaluate zones wall stores now = .ok (due,updated) ∧
        Written (attachParentBackups stores.backups due) (loaded stores) updated op := by
  rcases List.mem_append.mp member with reads | writes
  · rcases List.mem_cons.mp reads with same | reads
    · exact .inl same
    · obtain ⟨schedule,_,same⟩ := List.mem_map.mp reads
      exact .inr (.inl ⟨schedule.id,same.symm⟩)
  · split at writes
    · cases writes
    · rename_i due updated evaluated
      refine .inr (.inr ⟨due,updated,evaluated,?_⟩)
      rcases List.mem_append.mp writes with saves | jobs
      · obtain ⟨_,inside,rfl⟩ := List.mem_map.mp saves
        exact .cursor inside
      · split at jobs
        · cases jobs
        · rcases List.mem_append.mp jobs with listing | jobs
          · unfold listOps at listing
            split at listing
            · cases List.mem_singleton.mp listing
              exact .backups
            · cases listing
          · obtain ⟨_,inside,member⟩ := List.mem_flatten.mp jobs
            obtain ⟨_,bound,rfl⟩ := List.mem_mapIdx.mp inside
            rcases List.mem_cons.mp member with rfl | member
            · exact .newID
            · rw [List.mem_singleton.mp member]
              exact .job (List.getElem_mem bound)

theorem saved_cursor {before : ScheduleState} (member : .saveState before after ∈ tickOps zones wall stores now fresh) :
    ∃ due updated, evaluate zones wall stores now = .ok (due,updated) ∧
      before ∈ loaded stores ∧
        ∃ jobs, tickOne zones before (tickTime wall now) = .ok (after,jobs) := by
  rcases mem_tickOps member with same | ⟨_,same⟩ | ⟨due,_,evaluated,written⟩
  · cases same
  · cases same
  · obtain ⟨works,_,rfl⟩ := evaluate_ok evaluated
    refine ⟨due,_,evaluated,?_⟩
    cases written with
    | @cursor pair inside =>
      obtain ⟨listed,same⟩ := mem_zip_map inside
      refine ⟨listed,dueOf zones (tickTime wall now) pair.1,?_⟩
      rw [same]
      exact works_ticks (works _ listed)

theorem saved_origin (member : .saveJob job origin ∈ tickOps zones wall stores now fresh) :
    ∃ state ∈ loaded stores, ∃ state' jobs,
      tickOne zones state (tickTime wall now) = .ok (state',jobs) ∧
        ∃ item ∈ jobs, origin.queuedAt = item.queuedAt := by
  rcases mem_tickOps member with same | ⟨_,same⟩ | ⟨due,_,evaluated,written⟩
  · cases same
  · cases same
  · obtain ⟨works,all_due,_⟩ := evaluate_ok evaluated
    cases written with
    | job inside =>
      have item : ∃ item ∈ due, origin.queuedAt = item.queuedAt := by
        cases kept : stores.backups with
        | none =>
          rw [kept] at inside
          exact ⟨origin,inside,rfl⟩
        | some =>
          rw [kept] at inside
          obtain ⟨item,listed,rfl⟩ := List.mem_map.mp inside
          refine ⟨item,listed,?_⟩
          unfold attachParent
          split
          · split <;> rfl
          · rfl
      obtain ⟨item,listed,same⟩ := item
      rw [all_due] at listed
      obtain ⟨state,inStates,mine⟩ := List.mem_flatMap.mp listed
      exact ⟨state,inStates,_,_,works_ticks (works state inStates),item,mine,same⟩

theorem passed_stands {tick : Time} (ran : tickOne zones state tick = .ok (state',jobs))
    (passed : PassedBy zones state tick t) : ∃ job ∈ jobs, Stands state tick t job := by
  obtain ⟨active,_,_,_,parsed,started,reached⟩ := passed
  obtain ⟨_,_,due,next,parsed',done⟩ := tickOne_exact active ran
  rw [parsed] at parsed'
  cases parsed'
  have same := done.started
  rw [started] at same
  cases same
  have listed := reached.collected done.collected
  have emitted := done.emitted
  rw [done.settled] at emitted
  have policy : (settle state due next).catchUpPolicy = state.catchUpPolicy := rfl
  have schedule : (settle state due next).schedule = state.schedule := rfl
  unfold dueJobsForPolicy at emitted
  rw [policy,schedule] at emitted
  cases ends : due.getLast? with
  | none =>
    rw [List.getLast?_eq_none_iff.mp ends] at listed
    cases listed
  | some =>
    rw [ends] at emitted
    rw [emitted]
    cases kind : state.catchUpPolicy with
    | queue => exact ⟨_,List.mem_map.mpr ⟨t,listed,rfl⟩,rfl,rfl,fun _ => rfl⟩
    | _ => exact ⟨_,List.mem_cons_self,rfl,rfl,fun queued => by rw [kind] at queued; cases queued⟩

theorem attached_stands {tick : Time} (backups : Option (List Retention.Backup)) (member : job ∈ due)
    (stands : Stands state tick t job) : ∃ job' ∈ attachParentBackups backups due, Stands state tick t job' := by
  cases backups with
  | none => exact ⟨job,member,stands⟩
  | some backups =>
    refine ⟨attachParent backups job,List.mem_map.mpr ⟨job,member,rfl⟩,?_⟩
    unfold attachParent
    split
    · split <;> exact stands
    · exact stands

theorem tickOps_covers (member : .saveState before after ∈ tickOps zones wall stores now fresh)
    (passed : PassedBy zones before (tickTime wall now) t) :
    ∃ job origin, .saveJob job origin ∈ tickOps zones wall stores now fresh ∧
      Stands before (tickTime wall now) t origin := by
  obtain ⟨due,_,evaluated,listed,_⟩ := saved_cursor member
  obtain ⟨works,all_due,_⟩ := evaluate_ok evaluated
  obtain ⟨job,inside,stands⟩ := passed_stands (works_ticks (works before listed)) passed
  have some_due : job ∈ due := by
    rw [all_due]
    exact List.mem_flatMap.mpr ⟨before,listed,inside⟩
  obtain ⟨origin,attached,stands⟩ := attached_stands stores.backups some_due stands
  obtain ⟨saved,_,op⟩ := @mem_jobOps now fresh _ _ attached
  refine ⟨saved,origin,?_,stands⟩
  have busy : due ≠ [] := List.ne_nil_of_mem some_due
  simp only [tickOps,evaluated,if_neg busy]
  exact List.mem_append_right _ (List.mem_append_right _ (List.mem_append_right _ op))

end

section
variable {zones : Bytes → Option Zone} {world : World} {attempt : Attempt}

theorem attempt_preserves (none_lost : NoneLost zones world) (freshIDs : FreshIDs world attempt.fresh)
    (safe : Safe zones world attempt) : NoneLost zones (attempt.run zones world) := by
  obtain ⟨n,ids⟩ := @jobIDs_tickOps zones attempt.wall attempt.now world.stores attempt.fresh
  have used : (jobIDs ((attempt.ops zones world.stores).take attempt.done)).Sublist
      ((List.range n).map attempt.fresh) := by
    rw [← ids]
    exact (List.take_sublist _ _).filterMap _
  have distinct : ((List.range n).map attempt.fresh).Nodup :=
    List.pairwise_map.mpr (List.nodup_range.imp (fun differ same => differ (freshIDs.1 _ _ same)))
  have absent : ∀ id ∈ jobIDs ((attempt.ops zones world.stores).take attempt.done),
      ∀ job ∈ world.stores.jobs.rows, job.id ≠ id := by
    intro id inside
    obtain ⟨i,_,rfl⟩ := List.mem_map.mp (used.subset inside)
    exact freshIDs.2 i
  have kept {job origin} := @execute_jobs attempt.tick world _ job origin (distinct.sublist used) absent
  intro passage moved t passed
  rcases execute_moved passage moved with before | ⟨before,after,saved,rfl⟩
  · obtain ⟨job,inside,origin,linked,stands⟩ := none_lost passage before t passed
    obtain ⟨inside,linked⟩ := kept (.inl ⟨inside,linked⟩)
    exact ⟨job,inside,origin,linked,stands⟩
  · rcases safe with complete | unmoved
    · rw [List.take_of_length_le complete] at saved
      obtain ⟨job,origin,op,stands⟩ := tickOps_covers saved passed
      obtain ⟨inside,linked⟩ := kept (.inr (by rwa [List.take_of_length_le complete]))
      exact ⟨job,inside,origin,linked,stands⟩
    · exact absurd passed (unmoved before after saved t)

-- In every run whose ticks go through, or stop before the first cursor that
-- moves, every time a saved cursor has passed has its job.
theorem no_run_lost (reached : Reached zones world) : NoneLost zones world := by
  induction reached with
  | start =>
    intro passage moved
    cases moved
  | attempt _ _ freshIDs safe ih => exact attempt_preserves ih freshIDs safe
  | edit _ _ _ ih => exact ih

end

def hourlyStores : Stores :=
  ⟨Table.single hourlySchedule,Table.empty,Table.empty,none⟩

def names (i : Nat) : Bytes := List.replicate (i+1) 65

theorem names_fresh : FreshIDs ⟨hourlyStores,[],[]⟩ names := by
  constructor
  · intro i j same
    have lengths := congrArg List.length same
    simp only [names,List.length_replicate] at lengths
    omega
  · intro i job member
    cases member

def wholeTick : Attempt :=
  ⟨Time.zero,eleven,names,(tickOps (fun _ => none) Time.zero hourlyStores eleven names).length⟩

theorem whole_tick_loses_none : NoneLost (fun _ => none) (wholeTick.run (fun _ => none) ⟨hourlyStores,[],[]⟩) :=
  no_run_lost (.attempt wholeTick (.start hourlyStores) names_fresh (.inl (Nat.le_refl _)))

-- The cursor is past eleven, and no job was made at eleven.
structure Advanced (world : World) : Prop where
  schedules : world.stores.schedules = Table.single hourlySchedule
  cursor : ∃ state, world.stores.states.get hourlySchedule.id = some state ∧
    eleven.instant < state.nextRun.instant
  origins : ∀ entry ∈ world.origins, entry.2.queuedAt ≠ eleven

theorem late_ticks {zones : Bytes → Option Zone} {tick : Time} (active : state.schedule.paused = false)
    (late : eleven.instant < state.nextRun.instant) (ran : tickOne zones state tick = .ok (state',jobs)) :
    eleven.instant < state'.nextRun.instant ∧ ∀ job ∈ jobs, job.queuedAt ≠ eleven := by
  obtain ⟨_,start,_,_,_,done⟩ := tickOne_exact active ran
  have recorded : state.nextRun.isZero = false := by
    have positive : 0 < eleven.instant := by decide +kernel
    simp only [Time.isZero,decide_eq_false_iff_not]
    omega
  have cursor : start = state.nextRun := by
    have started := done.started
    rw [pending,if_neg (by simp [recorded])] at started
    cases started
    rfl
  rw [← cursor] at late
  constructor
  · rw [done.settled]
    rcases done.collected.head with ⟨_,rfl,_⟩ | ⟨past,_⟩
    · exact late
    · exact Int.lt_trans (Int.lt_of_lt_of_le late past) done.collected.ends
  · intro job member same
    obtain ⟨_,rfl⟩ := (tickOne_schedule ran).2 job member
    change tick = eleven at same
    rw [same] at done
    rcases done.collected.head with ⟨rfl,_,_⟩ | ⟨_,_⟩
    · rw [done.emitted,dueJobs_nil.mpr rfl] at member
      cases member
    · omega

theorem attempt_advances {zones : Bytes → Option Zone} (attempt : Attempt) (advanced : Advanced world) :
    Advanced (attempt.run zones world) := by
  obtain ⟨state,found,late⟩ := advanced.cursor
  have states : loaded world.stores = [{state with schedule := hourlySchedule}] := by
    have rows : world.stores.schedules.rows = [hourlySchedule] := by rw [advanced.schedules]; rfl
    rw [loaded,listSchedules,rows,List.mergeSort_singleton,List.map_singleton,stateOf,found]
  have ticked := fun {after jobs} => @late_ticks {state with schedule := hourlySchedule} after jobs zones attempt.tick
    rfl late
  unfold Attempt.run
  refine execute_keeps advanced ?_
  intro w ahead op member
  cases op with
  | saveState before after =>
    obtain ⟨_,_,_,listed,_,ran⟩ := saved_cursor (List.mem_of_mem_take member)
    rw [states] at listed
    rw [List.mem_singleton.mp listed] at ran
    refine ⟨ahead.schedules,?_,ahead.origins⟩
    change ∃ state, (w.stores.states.put after).get _ = _ ∧ _
    rw [Table.get_put]
    split
    · exact ⟨after,rfl,(ticked ran).1⟩
    · exact ahead.cursor
  | saveJob job origin =>
    obtain ⟨_,listed,_,_,ran,item,mine,same⟩ := saved_origin (List.mem_of_mem_take member)
    rw [states] at listed
    rw [List.mem_singleton.mp listed] at ran
    refine ⟨ahead.schedules,ahead.cursor,List.forall_mem_cons.mpr ⟨?_,ahead.origins⟩⟩
    exact same ▸ (ticked ran).2 item mine
  | _ => exact ahead

-- A tick that reads the schedule and its state, saves the cursor and is gone.
def crashedTick : Attempt := ⟨Time.zero,eleven,names,3⟩

def hourlyState : ScheduleState := ⟨hourlySchedule,Time.zero,Time.zero,.unset,0⟩

def afterCrash : World := crashedTick.run (fun _ => none) ⟨hourlyStores,[],[]⟩

theorem afterCrash_exact : afterCrash = ⟨⟨Table.single hourlySchedule,
    Table.single (settle hourlyState [eleven] (april25 12 0)),Table.empty,none⟩,[(hourlyState,eleven)],[]⟩ := by
  have listing : listSchedules hourlyStores = [hourlySchedule] := List.mergeSort_singleton _
  have evaluated : evaluate (fun _ => none) Time.zero hourlyStores eleven =
      .ok ([dueJob hourlySchedule eleven eleven],[settle hourlyState [eleven] (april25 12 0)]) := by
    rw [evaluate_tickAll,loaded,listing]
    decide +kernel
  simp only [afterCrash,Attempt.run,Attempt.ops,tickOps,crashedTick,listing,evaluated]
  rfl

theorem afterCrash_advanced : Advanced afterCrash := by
  rw [afterCrash_exact]
  refine ⟨rfl,⟨settle hourlyState [eleven] (april25 12 0),?_,?_⟩,?_⟩
  · decide +kernel
  · decide +kernel
  · intro entry member
    cases member

theorem eleven_passed : PassedBy (fun _ => none) hourlyState eleven eleven := by
  refine ⟨rfl,hourly.next,april25 10 0,1,hourly_parsed _,?_,?_⟩
  · decide +kernel
  · have onward : hourly.next (april25 10 0) = .ok eleven := by decide +kernel
    exact .next (by decide +kernel) onward (.here (Int.le_refl _))

-- The cursor saved before the crash is past eleven, and no later tick makes a
-- job for that time.
theorem crash_after_cursor_loses_the_run :
    (hourlyState,eleven) ∈ afterCrash.moved ∧ PassedBy (fun _ => none) hourlyState eleven eleven ∧
      ∀ later : List Attempt,
        ¬ Covered (later.foldl (Attempt.run (fun _ => none)) afterCrash) hourlyState eleven eleven := by
  have advances (later : List Attempt) : Advanced (later.foldl (Attempt.run (fun _ => none)) afterCrash) :=
    List.foldlRecOn later _ afterCrash_advanced (fun _ advanced first _ => attempt_advances first advanced)
  refine ⟨?_,eleven_passed,?_⟩
  · rw [afterCrash_exact]
    exact List.mem_cons_self
  · intro later ⟨job,_,origin,linked,stands⟩
    exact (advances later).origins _ linked stands.2.1

end Kronos.ScheduleCrash
