import Kronos.SchedulerRunner

namespace Kronos.ScheduleIsolation
open ByteRange Utf8 Rfc3339 CronExpression WindowExpression Scheduler JobRecords SchedulerRunner
open RecordTable

-- What a tick of the server does for one schedule: the jobs it queues, up to
-- their random identifiers, and the cursor it leaves.
def emitted (result : Except Fault (List JobRecord)) (id : Bytes) : List JobRecord :=
  ((result.toOption.getD []).filter (fun job => decide (job.scheduleID = id))).map (fun job => {job with id := []})

def cursorOf (stores : Stores) (id : Bytes) : Time × Time :=
  match stores.states.get id with
  | some state => (state.lastRun,state.nextRun)
  | none => (Time.zero,Time.zero)

def outcome (zones : Bytes → Option Zone) (wall : Time) (stores : Stores) (now : Time) (fresh : Nat → Bytes)
    (id : Bytes) : List JobRecord × (Time × Time) :=
  let result := runTick zones wall stores now fresh
  (emitted result.2 id,cursorOf result.1 id)

def only (stores : Stores) (schedule : Schedule) : Stores := {stores with schedules := Table.single schedule}

def tickTime (wall now : Time) : Time := if now.utc.isZero then wall.utc else now.utc

-- A schedule that has nothing to do: it is paused, or the time it waits for is
-- recorded and still to come.
def Idle (zones : Bytes → Option Zone) (state : ScheduleState) (now : Time) : Prop :=
  state.schedule.paused = true ∨ ∃ nextFn, nextFunc zones state.schedule = .ok nextFn ∧
    pending nextFn state now = .ok state.nextRun ∧ now.instant < state.nextRun.instant

variable {zones : Bytes → Option Zone} {wall now : Time}

theorem filter_flatMap_key {α β κ : Type} [DecidableEq κ] {f : α → List β} {key : α → κ} {tag : β → κ}
    (tagged : ∀ a, ∀ b ∈ f a, tag b = key a) {items : List α} (distinct : (items.map key).Nodup) {a : α}
    (member : a ∈ items) : (items.flatMap f).filter (fun b => decide (tag b = key a)) = f a := by
  obtain ⟨before,after,rfl⟩ := List.append_of_mem member
  rw [List.map_append,List.map_cons,List.perm_middle.nodup_iff,List.nodup_cons,← List.map_append,List.mem_map] at distinct
  have own : (f a).filter (fun b => decide (tag b = key a)) = f a := by
    apply List.filter_eq_self.mpr
    intro b inside
    exact decide_eq_true (tagged a b inside)
  have foreign : ∀ x ∈ before ++ after, (f x).filter (fun b => decide (tag b = key a)) = [] := by
    intro x there
    apply List.filter_eq_nil_iff.mpr
    intro b inside
    have different : key x ≠ key a := fun same => distinct.1 ⟨x,there,same⟩
    simp [tagged x b inside,different]
  obtain ⟨left,right⟩ := List.forall_mem_append.mp foreign
  rw [List.filter_flatMap,List.flatMap_append,List.flatMap_cons,own,List.flatMap_eq_nil_iff.mpr left,
    List.flatMap_eq_nil_iff.mpr right,List.nil_append,List.append_nil]

def dueOf (zones : Bytes → Option Zone) (now : Time) (state : ScheduleState) : List DueJob :=
  match tickOne zones state now with
  | .ok (_,due) => due
  | .error _ => []

def nextOf (zones : Bytes → Option Zone) (now : Time) (state : ScheduleState) : ScheduleState :=
  match tickOne zones state now with
  | .ok (next,_) => next
  | .error _ => state

theorem tickAll_ok (works : ∀ state ∈ states, ¬ Fails zones state now) :
    tickAll zones now states = .ok (states.flatMap (dueOf zones now),states.map (nextOf zones now)) := by
  induction states with
  | nil => rfl
  | cons first _ ih =>
    obtain ⟨here,later⟩ := List.forall_mem_cons.mp works
    rw [tickAll,ih later]
    cases ran : tickOne zones first now with
    | error e => exact absurd (tickOne_fails_iff.mp ⟨e,ran⟩) here
    | ok => simp only [bind,Except.bind,pure,Except.pure,List.flatMap_cons,List.map_cons,dueOf,nextOf,ran]

theorem tickAll_error {states : List ScheduleState} (broken : ∃ state ∈ states, Fails zones state now) :
    ∃ e, tickAll zones now states = .error e := by
  induction states with
  | nil =>
    obtain ⟨_,member,_⟩ := broken
    cases member
  | cons first rest ih =>
    rw [tickAll]
    cases ran : tickOne zones first now with
    | error e => exact ⟨e,rfl⟩
    | ok =>
      have later : ∃ state ∈ rest, Fails zones state now := by
        obtain ⟨state,member,fails⟩ := broken
        rcases List.mem_cons.mp member with rfl | member
        · obtain ⟨e,failed⟩ := tickOne_fails_iff.mpr fails
          rw [ran] at failed
          cases failed
        · exact ⟨state,member,fails⟩
      obtain ⟨e,failed⟩ := ih later
      exact ⟨e,by simp only [bind,Except.bind,failed]⟩

theorem mem_dueJobs (member : job ∈ dueJobsForPolicy state due now) :
    ∃ dueAt, job = dueJob state.schedule dueAt now := by
  unfold dueJobsForPolicy at member
  split at member
  · cases member
  · split at member
    · obtain ⟨dueAt,_,rfl⟩ := List.mem_map.mp member
      exact ⟨dueAt,rfl⟩
    all_goals exact ⟨_,List.mem_singleton.mp member⟩

theorem dueJobs_nil : dueJobsForPolicy state due now = [] ↔ due = [] := by
  unfold dueJobsForPolicy
  cases ends : due.getLast? with
  | none => simp [List.getLast?_eq_none_iff.mp ends]
  | some =>
    have some_due : due ≠ [] := by
      intro empty
      rw [empty] at ends
      cases ends
    cases state.catchUpPolicy <;> simp [some_due]

theorem tickOne_schedule (ran : tickOne zones state now = .ok (state',due)) :
    state'.schedule = state.schedule ∧ ∀ job ∈ due, ∃ dueAt, job = dueJob state.schedule dueAt now := by
  cases paused : state.schedule.paused with
  | true =>
    obtain ⟨rfl,rfl⟩ := tickOne_paused paused ran
    exact ⟨rfl,by simp⟩
  | false =>
    obtain ⟨_,_,_,_,_,done⟩ := tickOne_exact paused ran
    refine ⟨by rw [done.settled]; rfl,?_⟩
    intro job member
    rw [done.emitted,done.settled] at member
    exact mem_dueJobs member

theorem nextOf_paused (paused : state.schedule.paused = true) : nextOf zones now state = state := by
  have ran : tickOne zones state now = .ok (state,[]) := by rw [tickOne,if_pos paused]
  simp only [nextOf,ran]

theorem nextOf_schedule (state : ScheduleState) : (nextOf zones now state).schedule = state.schedule := by
  unfold nextOf
  split
  · rename_i ran
    exact (tickOne_schedule ran).1
  · rfl

theorem dueOf_scheduleID (state : ScheduleState) : ∀ job ∈ dueOf zones now state, job.scheduleID = state.schedule.id := by
  intro job member
  unfold dueOf at member
  split at member
  · rename_i ran
    obtain ⟨_,rfl⟩ := (tickOne_schedule ran).2 job member
    rfl
  · cases member

-- A tick leaves the cursor of an idle schedule alone and queues nothing for it;
-- any other schedule it moves or runs.
theorem idle_iff (ran : tickOne zones state now = .ok (state',due)) :
    due = [] ∧ (state'.lastRun,state'.nextRun) = (state.lastRun,state.nextRun) ↔ Idle zones state now := by
  cases paused : state.schedule.paused with
  | true =>
    obtain ⟨rfl,rfl⟩ := tickOne_paused paused ran
    exact ⟨fun _ => .inl paused,fun _ => ⟨rfl,rfl⟩⟩
  | false =>
    obtain ⟨nextFn,start,_,_,parsed,done⟩ := tickOne_exact paused ran
    rw [done.emitted,dueJobs_nil,done.settled]
    constructor
    · intro ⟨none_due,same⟩
      subst none_due
      cases done.collected with
      | stop future =>
        have cursor : start = state.nextRun := (Prod.mk.inj same).2
        have started := done.started
        rw [cursor] at started future
        exact .inr ⟨nextFn,parsed,started,future⟩
    · intro idle
      rcases idle with stopped | ⟨_,parsed',started,_⟩
      · rw [stopped] at paused
        cases paused
      · rw [parsed] at parsed'
        cases parsed'
        rw [done.started] at started
        cases started
        rcases done.collected.head with ⟨rfl,rfl,_⟩ | ⟨_,_⟩
        · exact ⟨rfl,rfl⟩
        · omega

theorem attachParent_scheduleID (backups : List Retention.Backup) (due : DueJob) :
    (attachParent backups due).scheduleID = due.scheduleID := by
  unfold attachParent
  split
  · split <;> rfl
  · rfl

theorem attach_filter (backups : Option (List Retention.Backup)) (due : List DueJob) (id : Bytes) :
    (attachParentBackups backups due).filter (fun job => decide (job.scheduleID = id)) =
      attachParentBackups backups (due.filter (fun job => decide (job.scheduleID = id))) := by
  cases backups with
  | none => rfl
  | some =>
    simp only [attachParentBackups,List.filter_map,Function.comp_def,attachParent_scheduleID]

theorem emitted_enqueue (fresh : Nat → Bytes) (due : List DueJob) (id : Bytes) :
    emitted (.ok (enqueueDue now fresh due)) id =
      (due.filter (fun job => decide (job.scheduleID = id))).map (jobOf now []) := by
  have nameless : (enqueueDue now fresh due).map (fun job => {job with id := []}) = due.map (jobOf now []) := by
    apply List.ext_getElem?
    intro i
    simp only [enqueueDue,List.getElem?_map,List.getElem?_mapIdx,Option.map_map]
    rfl
  have kept : (fun job : JobRecord => decide (job.scheduleID = id)) ∘ (fun job : JobRecord => {job with id := []}) =
      fun job => decide (job.scheduleID = id) := rfl
  change ((enqueueDue now fresh due).filter _).map _ = _
  rw [← kept,← List.filter_map,nameless,List.filter_map]
  rfl

theorem stateOf_schedule (stores : Stores) (schedule : Schedule) : (stateOf stores schedule).schedule = schedule := by
  unfold stateOf
  split <;> rfl

theorem stateOf_stored {stores : Stores} (found : stores.states.get schedule.id = some state)
    (same : state.schedule = schedule) : stateOf stores schedule = state := by
  rw [stateOf,found]
  subst same
  rfl

theorem cursorOf_state (stores : Stores) (schedule : Schedule) : cursorOf stores schedule.id =
    ((stateOf stores schedule).lastRun,(stateOf stores schedule).nextRun) := by
  unfold cursorOf stateOf
  cases stores.states.get schedule.id <;> rfl

-- The states a tick goes through.
def loaded (stores : Stores) : List ScheduleState := (listSchedules stores).map (stateOf stores)

theorem evaluate_tickAll (stores : Stores) : evaluate zones wall stores now =
    tickAll zones (tickTime wall now) (loaded stores) := rfl

theorem mem_listSchedules :
    schedule ∈ listSchedules stores ↔ schedule ∈ stores.schedules.rows := (List.mergeSort_perm _ _).mem_iff

theorem mem_loaded : state ∈ loaded stores ↔ ∃ schedule ∈ stores.schedules.rows, stateOf stores schedule = state := by
  rw [loaded,List.mem_map]
  simp only [mem_listSchedules]

theorem states_distinct (stores : Stores) :
    ((loaded stores).map (fun state => state.schedule.id)).Nodup := by
  have same : (fun state : ScheduleState => state.schedule.id) ∘ stateOf stores = Schedule.id := by
    funext schedule
    exact congrArg Schedule.id (stateOf_schedule stores schedule)
  rw [loaded,List.map_map,same]
  exact ((List.mergeSort_perm _ _).map _).nodup_iff.mpr stores.schedules.rows_nodup

section
variable {stores : Stores} {schedule : Schedule}

theorem evaluate_ok (evaluated : evaluate zones wall stores now = .ok (due,updated)) :
    (∀ state ∈ loaded stores, ¬ Fails zones state (tickTime wall now)) ∧
      due = (loaded stores).flatMap (dueOf zones (tickTime wall now)) ∧
        updated = (loaded stores).map (nextOf zones (tickTime wall now)) := by
  rw [evaluate_tickAll] at evaluated
  have works : ∀ state ∈ loaded stores,
      ¬ Fails zones state (tickTime wall now) := by
    intro state inside fails
    obtain ⟨_,failed⟩ := tickAll_error ⟨state,inside,fails⟩
    rw [failed] at evaluated
    cases evaluated
  rw [tickAll_ok works] at evaluated
  cases evaluated
  exact ⟨works,rfl,rfl⟩

theorem works_ticks (works : ¬ Fails zones state now) :
    tickOne zones state now = .ok (nextOf zones now state,dueOf zones now state) := by
  cases ran : tickOne zones state now with
  | error e => exact absurd (tickOne_fails_iff.mp ⟨e,ran⟩) works
  | ok => simp only [nextOf,dueOf,ran]

theorem saved_state (member : schedule ∈ stores.schedules.rows) : (stores.states.putAll
    ((loaded stores).map (nextOf zones now))).get schedule.id =
      some (nextOf zones now (stateOf stores schedule)) := by
  have inside : stateOf stores schedule ∈ loaded stores := mem_loaded.mpr ⟨schedule,member,rfl⟩
  have ids : ((loaded stores).map (nextOf zones now)).map
      (fun state => state.schedule.id) =
        (loaded stores).map (fun state => state.schedule.id) := by
    rw [List.map_map]
    apply List.map_congr_left
    intro state _
    exact congrArg Schedule.id (nextOf_schedule state)
  have saved := stores.states.get_putAll (by rw [ids]; exact states_distinct stores)
    (List.mem_map.mpr ⟨_,inside,rfl⟩ : nextOf zones now (stateOf stores schedule) ∈
      (loaded stores).map (nextOf zones now))
  rwa [nextOf_schedule,stateOf_schedule] at saved

theorem outcome_works (member : schedule ∈ stores.schedules.rows) (fresh : Nat → Bytes)
    (works : ∀ other ∈ stores.schedules.rows, ¬ Fails zones (stateOf stores other) (tickTime wall now)) :
    outcome zones wall stores now fresh schedule.id =
      ((attachParentBackups stores.backups (dueOf zones (tickTime wall now) (stateOf stores schedule))).map
          (jobOf now []),
        ((nextOf zones (tickTime wall now) (stateOf stores schedule)).lastRun,
          (nextOf zones (tickTime wall now) (stateOf stores schedule)).nextRun)) := by
  have all_work : ∀ state ∈ loaded stores,
      ¬ Fails zones state (tickTime wall now) := by
    intro state inside
    obtain ⟨other,listed,rfl⟩ := mem_loaded.mp inside
    exact works other listed
  have inside : stateOf stores schedule ∈ loaded stores := mem_loaded.mpr ⟨schedule,member,rfl⟩
  have own := filter_flatMap_key (@dueOf_scheduleID zones (tickTime wall now)) (states_distinct stores) inside
  rw [stateOf_schedule] at own
  have saved := @saved_state zones (tickTime wall now) stores schedule member
  simp only [outcome,runTick,evaluate_tickAll,tickAll_ok all_work,emitted_enqueue,attach_filter,own,cursorOf,saved]

theorem outcome_broken (fresh : Nat → Bytes) (id : Bytes)
    (broken : ∃ other ∈ stores.schedules.rows, Fails zones (stateOf stores other) (tickTime wall now)) :
    outcome zones wall stores now fresh id = ([],cursorOf stores id) := by
  obtain ⟨other,member,fails⟩ := broken
  obtain ⟨_,failed⟩ := tickAll_error ⟨stateOf stores other,mem_loaded.mpr ⟨other,member,rfl⟩,fails⟩
  simp only [outcome,runTick,evaluate_tickAll,failed]
  rfl

-- The other schedules of the server leave what a schedule does as it is exactly
-- when none of them fails, or the schedule fails itself or has nothing to do.
theorem schedule_isolated_iff (member : schedule ∈ stores.schedules.rows) (fresh fresh' : Nat → Bytes) :
    outcome zones wall stores now fresh schedule.id =
        outcome zones wall (only stores schedule) now fresh' schedule.id ↔
      (∀ other ∈ stores.schedules.rows, ¬ Fails zones (stateOf stores other) (tickTime wall now)) ∨
        Fails zones (stateOf stores schedule) (tickTime wall now) ∨
          Idle zones (stateOf stores schedule) (tickTime wall now) := by
  have alone_member : schedule ∈ (only stores schedule).schedules.rows := List.mem_singleton.mpr rfl
  by_cases fails : Fails zones (stateOf stores schedule) (tickTime wall now)
  · have alone := @outcome_broken zones wall now (only stores schedule) fresh' schedule.id
      ⟨schedule,alone_member,fails⟩
    rw [outcome_broken fresh schedule.id ⟨schedule,member,fails⟩,alone]
    exact ⟨fun _ => .inr (.inl fails),fun _ => rfl⟩
  have alone := @outcome_works zones wall now (only stores schedule) schedule alone_member fresh' (by
    intro other single
    rw [List.mem_singleton.mp single]
    exact fails)
  rw [alone]
  by_cases works : ∀ other ∈ stores.schedules.rows, ¬ Fails zones (stateOf stores other) (tickTime wall now)
  · rw [outcome_works member fresh works]
    exact ⟨fun _ => .inl works,fun _ => rfl⟩
  have broken : ∃ other ∈ stores.schedules.rows, Fails zones (stateOf stores other) (tickTime wall now) := by
    apply Classical.byContradiction
    intro none_broken
    exact works (fun other inside broken => none_broken ⟨other,inside,broken⟩)
  rw [outcome_broken fresh schedule.id broken,cursorOf_state]
  cases ran : tickOne zones (stateOf stores schedule) (tickTime wall now) with
  | error e => exact absurd (tickOne_fails_iff.mp ⟨e,ran⟩) fails
  | ok result =>
    obtain ⟨state',due⟩ := result
    have idle := idle_iff ran
    have none_queued : (attachParentBackups stores.backups due).map (jobOf now []) = [] ↔ due = [] := by
      cases backups : stores.backups <;> simp [attachParentBackups]
    have halves : dueOf zones (tickTime wall now) (stateOf stores schedule) = due ∧
        nextOf zones (tickTime wall now) (stateOf stores schedule) = state' := by
      simp only [dueOf,nextOf,ran,and_self]
    change _ = ((attachParentBackups stores.backups (dueOf zones _ (stateOf stores schedule))).map _,
      ((nextOf zones _ (stateOf stores schedule)).lastRun,(nextOf zones _ (stateOf stores schedule)).nextRun)) ↔ _
    rw [halves.1,halves.2]
    constructor
    · intro same
      obtain ⟨jobs,cursor⟩ := Prod.mk.inj same
      exact .inr (.inr (idle.mp ⟨none_queued.mp jobs.symm,cursor.symm⟩))
    · intro cond
      rcases cond with all_work | failed | quiet
      · exact absurd all_work works
      · exact absurd failed fails
      · obtain ⟨jobs,cursor⟩ := idle.mpr quiet
        rw [none_queued.mpr jobs,cursor]

end

theorem runs_not_fails (runs : (tickOne zones state now).isOk = true) : ¬ Fails zones state now := by
  intro fails
  obtain ⟨_,failed⟩ := tickOne_fails_iff.mpr fails
  rw [failed] at runs
  cases runs

def eleven : Time := april25 11 0

def twoSchedules (other : String) : Stores :=
  ⟨⟨[fullBackup "february" other,hourlySchedule],by
      refine .cons ?_ (List.pairwise_singleton _ _)
      intro b later
      rw [List.mem_singleton.mp later]
      change ascii "february" < ascii "hourly"
      decide⟩,Table.empty,Table.empty,none⟩

theorem two_schedules_isolated :
    outcome (fun _ => none) Time.zero (twoSchedules "0 0 28 2 *") eleven (fun i => [UInt8.ofNat i])
        hourlySchedule.id =
      outcome (fun _ => none) Time.zero
        (only (twoSchedules "0 0 28 2 *") hourlySchedule) eleven (fun i => [UInt8.ofNat i])
        hourlySchedule.id := by
  apply (schedule_isolated_iff (List.mem_cons_of_mem _ List.mem_cons_self) _ _).mpr
  refine .inl ?_
  intro other member
  apply runs_not_fails
  rcases List.mem_cons.mp member with rfl | member
  · decide +kernel
  · rw [List.mem_singleton.mp member]
    decide +kernel

-- A thirtieth of February is accepted and never comes; the hourly schedule
-- beside it does not run.
theorem missing_date_stops_the_other :
    outcome (fun _ => none) Time.zero (twoSchedules "0 0 30 2 *") eleven (fun i => [UInt8.ofNat i])
        hourlySchedule.id ≠
      outcome (fun _ => none) Time.zero
        (only (twoSchedules "0 0 30 2 *") hourlySchedule) eleven (fun i => [UInt8.ofNat i])
        hourlySchedule.id := by
  have stuck : tickOne (fun _ => none) (stateOf (twoSchedules "0 0 30 2 *") (fullBackup "february" "0 0 30 2 *"))
      (tickTime Time.zero eleven) = .error .noMatch := by decide +kernel
  have whole := @outcome_broken (fun _ => none) Time.zero eleven (twoSchedules "0 0 30 2 *")
    (fun i => [UInt8.ofNat i]) hourlySchedule.id
    ⟨_,List.mem_cons_self,tickOne_fails_iff.mp ⟨_,stuck⟩⟩
  have alone := @outcome_works (fun _ => none) Time.zero eleven
    (only (twoSchedules "0 0 30 2 *") hourlySchedule) hourlySchedule
    List.mem_cons_self (fun i => [UInt8.ofNat i]) (by
      intro other single
      rw [List.mem_singleton.mp single]
      apply runs_not_fails
      decide +kernel)
  rw [whole,alone]
  intro same
  have jobs := (Prod.mk.inj same).1
  revert jobs
  decide +kernel

end Kronos.ScheduleIsolation
