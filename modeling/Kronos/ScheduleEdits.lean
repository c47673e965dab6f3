import Kronos.ScheduleStore
import Kronos.ScheduleIsolation

namespace Kronos.ScheduleEdits
open ByteRange Utf8 Rfc3339 CronExpression CronNext WindowExpression Scheduler JobRecords SchedulerRunner
open ScheduleIsolation ScheduleStore Effect Recurrence RecordTable

def stableKey (schedule : Schedule) : Bytes := if schedule.id = [] then schedule.name else schedule.id

-- The times of a schedule's expression: those of its window, or of its cron
-- expression in UTC.
def Occurs (zones : Bytes → Option Zone) (schedule : Schedule) (t : Time) : Prop :=
  if isWindow schedule.expression then
    ∃ window, parseWindow zones schedule.expression = .ok window ∧ window.Occurs (stableKey schedule) t
  else ∃ cron, parseCron schedule.expression = .ok cron ∧ CronNext.Occurs cron t

-- Cron expressions are evaluated in the zone of the time they go on from.
def Zoned (schedule : Schedule) (t : Time) : Prop := isWindow schedule.expression = true ∨ t.offset = 0

def Regular (zones : Bytes → Option Zone) (schedule : Schedule) : Prop :=
  isWindow schedule.expression = true → ∀ window, parseWindow zones schedule.expression = .ok window →
    window.Orderly (stableKey schedule)

theorem schedule_follows {zones : Bytes → Option Zone} {schedule : Schedule} {nextFn : Time → Except Fault Time}
    (regular : Regular zones schedule) (parsed : nextFunc zones schedule = .ok nextFn) :
    Follows Time.instant nextFn (Zoned schedule) (Occurs zones schedule) := by
  unfold nextFunc at parsed
  cases kind : isWindow schedule.expression with
  | true =>
    rw [if_pos kind] at parsed
    obtain ⟨window,read,same⟩ := bind_ok_iff.mp parsed
    cases same
    have told : Occurs zones schedule = window.Occurs (stableKey schedule) := by
      funext t
      simp only [Occurs,kind,if_true,read,Except.ok.injEq,exists_eq_left']
    have zoned : Zoned schedule = fun _ => True := by
      funext t
      simp only [Zoned,kind,true_or]
    rw [told,zoned]
    exact Window.window_follows (regular kind window read)
  | false =>
    rw [if_neg (by simp [kind])] at parsed
    obtain ⟨cron,read,same⟩ := bind_ok_iff.mp parsed
    cases same
    have told : Occurs zones schedule = CronNext.Occurs cron := by
      funext t
      simp only [Occurs,kind,Bool.false_eq_true,if_false,read,Except.ok.injEq,exists_eq_left']
    have zoned : Zoned schedule = fun t => t.offset = 0 := by
      funext t
      simp only [Zoned,kind,Bool.false_eq_true,false_or]
    rw [told,zoned]
    exact cron_follows cron

theorem occurs_unique {zones : Bytes → Option Zone} (left : Occurs zones schedule a) (right : Occurs zones schedule b)
    (same : a.instant = b.instant) : a = b := by
  unfold Occurs at left right
  split at left
  · rename_i kind
    rw [if_pos kind] at right
    obtain ⟨window,read,day,rfl⟩ := left
    obtain ⟨other,read',later,rfl⟩ := right
    rw [read] at read'
    cases read'
    change window.candidate (stableKey schedule) day = window.candidate (stableKey schedule) later at same
    rw [same]
  · rename_i kind
    rw [if_neg kind] at right
    obtain ⟨_,_,left⟩ := left
    obtain ⟨_,_,right⟩ := right
    obtain ⟨_,_⟩ := a
    obtain ⟨_,_⟩ := b
    cases left.1
    cases right.1
    cases same
    rfl

def dueTimes (zones : Bytes → Option Zone) (state : ScheduleState) (now : Time) : List Time :=
  if state.schedule.paused then []
  else match nextFunc zones state.schedule with
  | .error _ => []
  | .ok nextFn => match pending nextFn state now with
    | .error _ => []
    | .ok start => match collect Time.instant nextFn (.catchUpLimit state.schedule.id (limit state)) now.instant
        (limit state).toNat start with
      | .error _ => []
      | .ok (due,_) => due

-- The server with the due times its ticks have found for each schedule since it
-- was last written.
structure Machine where
  stores : Stores
  handled : Bytes → List Time
  clock : Int

inductive Command
  | create (request : Schedule) (freshID : Bytes) | update (id : Bytes) (request : Schedule) | delete (id : Bytes)
  | pause (id : Bytes) (paused : Bool) | tick (wall : Time) (fresh : Nat → Bytes)

def rewritten (m : Machine) (id : Bytes) (now : Time) : Except Refusal Stores → Machine
  | .ok stores => ⟨stores,fun other => if other = id then [] else m.handled other,now.instant⟩
  | .error _ => {m with clock := now.instant}

def kept (m : Machine) (now : Time) : Except Refusal Stores → Machine
  | .ok stores => {m with stores := stores,clock := now.instant}
  | .error _ => {m with clock := now.instant}

def step (zones : Bytes → Option Zone) (m : Machine) (now : Time) : Command → Machine
  | .create request freshID =>
    rewritten m (created request freshID now).id now (handleCreateSchedule zones m.stores request freshID now)
  | .update id request => rewritten m id now (handleUpdateSchedule zones m.stores id request now)
  | .delete id => kept m now (handleDeleteSchedule m.stores id)
  | .pause id paused => kept m now (handlePauseSchedule zones m.stores id paused now)
  | .tick wall fresh =>
    match evaluate zones wall m.stores now with
    | .error _ => {m with clock := now.instant}
    | .ok _ =>
      ⟨(runTick zones wall m.stores now fresh).1,
        fun id => match m.stores.schedules.get id with
          | some schedule => m.handled id ++ dueTimes zones (stateOf m.stores schedule) now.utc
          | none => m.handled id,
        now.instant⟩

-- A cursor a schedule may have been left with before it was written: none, if
-- the schedule starts no later than it is written, or else one of its own
-- times, with none of them between.
def Fits (zones : Bytes → Option Zone) (m : Machine) (schedule : Schedule) (now : Time) : Prop :=
  let cursor := (stateOf m.stores schedule).nextRun
  Regular zones schedule ∧
    if cursor.isZero then schedule.createdAt.instant ≤ now.instant
    else Zoned schedule cursor ∧ Occurs zones schedule cursor ∧
      ∀ t, Occurs zones schedule t → now.instant < t.instant → cursor.instant ≤ t.instant

def Condition (zones : Bytes → Option Zone) (m : Machine) (now : Time) : Command → Prop
  | .create request freshID => Fits zones m (created request freshID now) now
  | .update id request => ∀ existing, m.stores.schedules.get id = some existing →
      Fits zones m (updated existing request id now) now
  | .delete _ | .pause _ _ | .tick _ _ => True

inductive Reached (zones : Bytes → Option Zone) : Machine → Prop
  | start (jobs : JobTable) (backups : Option (List Retention.Backup)) (clock : Int) :
      Reached zones ⟨⟨Table.empty,Table.empty,jobs,backups⟩,fun _ => [],clock⟩
  | step {m : Machine} {now : Time} (command : Command) : Reached zones m → m.clock ≤ now.instant →
      0 < now.instant → Condition zones m now command → Reached zones (step zones m now command)

-- A tick makes jobs only at times of the expression that is stored, and misses
-- none of them since it was stored. One job stands for the times that a tick has
-- found, at the last of them.
def FollowsExpression (zones : Bytes → Option Zone) (m : Machine) : Prop :=
  ∀ wall now fresh due updated, m.clock ≤ now.instant → 0 < now.instant →
    evaluate zones wall m.stores now = .ok (due,updated) →
      ∀ schedule ∈ m.stores.schedules.rows, schedule.paused = false → ∃ found,
        (step zones m now (.tick wall fresh)).handled schedule.id = m.handled schedule.id ++ found ∧
        (∀ t ∈ found, Occurs zones schedule t) ∧
        (due.filter fun job => job.scheduleID = schedule.id).map DueJob.dueAt = found.getLast?.toList ∧
        (∀ job ∈ due, job.scheduleID = schedule.id → Occurs zones schedule job.dueAt) ∧
          ∀ t, Occurs zones schedule t → schedule.updatedAt.instant < t.instant → t.instant ≤ now.instant →
            t ∈ (step zones m now (.tick wall fresh)).handled schedule.id

def Cursor (zones : Bytes → Option Zone) (state : ScheduleState) (handled : List Time) : Prop :=
  if state.nextRun.isZero then
    ∀ t, Occurs zones state.schedule t → state.schedule.updatedAt.instant < t.instant →
      state.schedule.createdAt.instant < t.instant
  else Zoned state.schedule state.nextRun ∧ Occurs zones state.schedule state.nextRun ∧
    ∀ t, Occurs zones state.schedule t → state.schedule.updatedAt.instant < t.instant →
      t.instant < state.nextRun.instant → t ∈ handled

-- What the scheduler stores leaves the policy unset, and a last run only with a
-- next one.
def Plain (state : ScheduleState) : Prop :=
  state.catchUpPolicy = .unset ∧ (state.nextRun.isZero = true → state.lastRun.isZero = true)

-- What is kept about a stored schedule at a time of the server.
structure Standing (zones : Bytes → Option Zone) (clock : Int) (state : ScheduleState) (handled : List Time) : Prop where
  written : state.schedule.updatedAt.instant ≤ clock
  born : state.schedule.createdAt.isZero = false
  home : state.schedule.createdAt.offset = 0
  regular : Regular zones state.schedule
  cursor : Cursor zones state handled

structure Sound (zones : Bytes → Option Zone) (m : Machine) : Prop where
  plain : ∀ state ∈ m.stores.states.rows, Plain state
  standing : ∀ schedule ∈ m.stores.schedules.rows,
    Standing zones m.clock (stateOf m.stores schedule) (m.handled schedule.id)

-- What a tick makes of a schedule: the times it found, its jobs and its cursor.
structure Handled (zones : Bytes → Option Zone) (schedule : Schedule) (now : Time) (before found : List Time)
    (jobs : List DueJob) (state : ScheduleState) : Prop where
  named : ∀ t ∈ found, Occurs zones schedule t
  last : jobs.map DueJob.dueAt = found.getLast?.toList
  covered : ∀ t, Occurs zones schedule t → schedule.updatedAt.instant < t.instant → t.instant ≤ now.instant →
    t ∈ before ++ found
  cursor : Cursor zones state (before ++ found)
  plain : Plain state

section
variable {zones : Bytes → Option Zone} {state state' : ScheduleState} {now : Time} {jobs : List DueJob}

theorem dueTimes_exact {nextFn : Time → Except Fault Time} (active : state.schedule.paused = false)
    (parsed : nextFunc zones state.schedule = .ok nextFn) (done : Ticked nextFn state now state' jobs start due next) :
    dueTimes zones state now = due := by
  simp only [dueTimes,active,Bool.false_eq_true,if_false,parsed,done.started,done.round]

-- The time a sound schedule goes on from is one of its own, and every earlier
-- one since it was written has been handled.
theorem start_sound {nextFn : Time → Except Fault Time}
    (follows : Follows Time.instant nextFn (Zoned state.schedule) (Occurs zones state.schedule)) (plain : Plain state)
    (standing : Standing zones clock state handled) (started : pending nextFn state now = .ok start) :
    Zoned state.schedule start ∧ Occurs zones state.schedule start ∧
      ∀ t, Occurs zones state.schedule t → state.schedule.updatedAt.instant < t.instant →
        t.instant < start.instant → t ∈ handled := by
  have cursor := standing.cursor
  unfold Cursor at cursor
  unfold pending at started
  cases empty : state.nextRun.isZero with
  | true =>
    rw [if_pos empty] at cursor started
    have seeded : seed state now = state.schedule.createdAt := by
      simp only [seed,plain.2 empty,standing.born,Bool.true_eq_false,if_false,if_true]
    rw [seeded] at started
    have zoned : Zoned state.schedule state.schedule.createdAt := .inr standing.home
    refine ⟨follows.valid _ _ zoned started,follows.occurs _ _ zoned started,?_⟩
    intro t occurs later before
    have first := follows.first _ _ t zoned started occurs (cursor t occurs later)
    omega
  | false =>
    rw [if_neg (by simp [empty])] at cursor started
    cases started
    exact cursor

theorem tick_sound (active : state.schedule.paused = false) (plain : Plain state)
    (standing : Standing zones clock state handled) (positive : 0 < now.instant)
    (ran : tickOne zones state now = .ok (state',jobs)) :
    Handled zones state.schedule now handled (dueTimes zones state now) jobs state' := by
  obtain ⟨nextFn,start,due,next,parsed,done⟩ := tickOne_exact active ran
  have follows := schedule_follows standing.regular parsed
  obtain ⟨zoned,occurs,earlier⟩ := start_sound follows plain standing done.started
  have path := done.collected
  have named : ∀ v ∈ due, Occurs zones state.schedule v := by
    intro v member
    rcases (path.occurs follows zoned).1 v member with rfl | found
    · exact occurs
    · exact found
  have nextOccurs : Occurs zones state.schedule next := by
    rcases (path.occurs follows zoned).2 with rfl | found
    · exact occurs
    · exact found
  have covered : ∀ t, Occurs zones state.schedule t → state.schedule.updatedAt.instant < t.instant →
      t.instant ≤ now.instant → t ∈ handled ++ due := by
    intro t found later past
    by_cases before : t.instant < start.instant
    · exact List.mem_append_left _ (earlier t found later before)
    · obtain ⟨v,member,same⟩ := path.complete follows zoned found (Int.not_lt.mp before) past
      rw [← occurs_unique (named v member) found same]
      exact List.mem_append_right _ member
  have future := path.ends
  have shown : next.isZero = false := by
    simp only [Time.isZero,decide_eq_false_iff_not]
    omega
  rw [dueTimes_exact active parsed done]
  refine ⟨named,?_,covered,?_,?_⟩
  · have policy : (settle state due next).catchUpPolicy = .unset := plain.1
    rw [done.emitted,done.settled,dueJobsForPolicy,policy]
    cases due.getLast? <;> rfl
  · rw [done.settled]
    unfold Cursor
    rw [if_neg (by simp [settle,shown])]
    refine ⟨(path.valid_all follows zoned).2,nextOccurs,?_⟩
    intro t found later before
    by_cases past : t.instant ≤ now.instant
    · exact covered t found later past
    · by_cases early : t.instant < start.instant
      · exact List.mem_append_left _ (earlier t found later early)
      · have first := path.next_first follows zoned found (Int.not_lt.mp early) (Int.not_le.mp past)
        change t.instant < next.instant at before
        omega
  · rw [done.settled]
    refine ⟨plain.1,?_⟩
    intro empty
    change next.isZero = true at empty
    rw [shown] at empty
    cases empty

end

section
variable {zones : Bytes → Option Zone} {m : Machine} {now : Time}

theorem save_ok (saved : save zones stores schedule = .ok stores') :
    stores' = {stores with schedules := stores.schedules.put schedule} := by
  obtain ⟨_,_,same⟩ := bind_ok_iff.mp saved
  cases same
  rfl

theorem Standing.onward (standing : Standing zones clock state handled) (order : clock ≤ clock') :
    Standing zones clock' state handled := {standing with written := Int.le_trans standing.written order}

theorem clock_preserves (sound : Sound zones m) (onward : m.clock ≤ now.instant) :
    Sound zones {m with clock := now.instant} :=
  ⟨sound.plain,fun schedule member => (sound.standing schedule member).onward onward⟩

theorem save_preserves {schedule : Schedule} {handled : Bytes → List Time} (sound : Sound zones m)
    (onward : m.clock ≤ now.instant) (saved : save zones m.stores schedule = .ok stores)
    (others : ∀ id, id ≠ schedule.id → handled id = m.handled id)
    (standing : Standing zones now.instant (stateOf m.stores schedule) (handled schedule.id)) :
    Sound zones ⟨stores,handled,now.instant⟩ := by
  rw [save_ok saved]
  refine ⟨sound.plain,?_⟩
  intro other member
  rcases m.stores.schedules.mem_put.mp member with rfl | ⟨old,different⟩
  · exact standing
  · have before := (sound.standing other old).onward onward
    rwa [← others other.id different] at before

theorem rewritten_preserves (sound : Sound zones m) (onward : m.clock ≤ now.instant) {schedule : Schedule}
    (stamp : schedule.updatedAt.instant = now.instant) (born : schedule.createdAt.isZero = false)
    (home : schedule.createdAt.offset = 0) (fits : Fits zones m schedule now) :
    Sound zones (rewritten m schedule.id now (save zones m.stores schedule)) := by
  cases saved : save zones m.stores schedule with
  | error => exact clock_preserves sound onward
  | ok stores =>
    obtain ⟨regular,cursor⟩ := fits
    refine save_preserves sound onward saved (fun id different => if_neg different) ?_
    rw [if_pos rfl]
    have same := stateOf_schedule m.stores schedule
    constructor
    · rw [same]
      exact Int.le_of_eq stamp
    · rwa [same]
    · rwa [same]
    · rwa [same]
    · unfold Cursor
      rw [same]
      split
      · rename_i empty
        rw [if_pos empty] at cursor
        intro t occurs later
        omega
      · rename_i recorded
        rw [if_neg recorded] at cursor
        obtain ⟨zoned,occurs,none_between⟩ := cursor
        refine ⟨zoned,occurs,?_⟩
        intro t found later before
        have bound := none_between t found (by omega)
        omega

theorem stampTimes_sound {createdAt : Time} (positive : 0 < now.instant) :
    (stampTimes createdAt now).1.isZero = false ∧ (stampTimes createdAt now).1.offset = 0 ∧
      (stampTimes createdAt now).2.instant = now.instant := by
  refine ⟨?_,rfl,rfl⟩
  unfold stampTimes
  cases empty : createdAt.isZero with
  | true =>
    simp only [if_true,Time.utc,Time.isZero,decide_eq_false_iff_not]
    omega
  | false =>
    exact empty

theorem delete_preserves (sound : Sound zones m) (onward : m.clock ≤ now.instant) (id : Bytes) :
    Sound zones (kept m now (handleDeleteSchedule m.stores id)) := by
  unfold handleDeleteSchedule
  split
  · exact clock_preserves sound onward
  · refine ⟨sound.plain,?_⟩
    intro other member
    exact (sound.standing other (List.mem_filter.mp member).1).onward onward

theorem pause_preserves (sound : Sound zones m) (onward : m.clock ≤ now.instant) (id : Bytes) (paused : Bool) :
    Sound zones (kept m now (handlePauseSchedule zones m.stores id paused now)) := by
  unfold handlePauseSchedule
  cases found : m.stores.schedules.get id with
  | none => exact clock_preserves sound onward
  | some existing =>
    dsimp only
    cases saved : save zones m.stores (resumed existing paused now) with
    | error => exact clock_preserves sound onward
    | ok stores =>
      have before := sound.standing existing (m.stores.schedules.get_exact.mp found).1
      have elder := before.written
      have cursor := before.cursor
      have same : stateOf m.stores (resumed existing paused now) =
          {stateOf m.stores existing with schedule := resumed existing paused now} := by
        have id : (resumed existing paused now).id = existing.id := rfl
        unfold stateOf
        rw [id]
        cases m.stores.states.get existing.id <;> rfl
      refine save_preserves sound onward saved (fun _ _ => rfl) ?_
      rw [same]
      rw [stateOf_schedule] at elder
      unfold Cursor at cursor
      obtain ⟨_,born,home,regular,_⟩ := before
      rw [stateOf_schedule] at cursor born home regular
      refine ⟨Int.le_refl _,born,home,regular,?_⟩
      unfold Cursor
      split
      · rename_i empty
        rw [if_pos empty] at cursor
        intro t occurs later
        change now.instant < t.instant at later
        exact cursor t occurs (by omega)
      · rename_i recorded
        rw [if_neg recorded] at cursor
        refine ⟨cursor.1,cursor.2.1,?_⟩
        intro t occurs later
        change now.instant < t.instant at later
        exact cursor.2.2 t occurs (by omega)

theorem tickTime_real (wall : Time) (positive : 0 < now.instant) : tickTime wall now = now.utc := by
  have real : now.utc.isZero = false := by
    change decide (now.instant = 0) = false
    exact decide_eq_false (by omega)
  rw [tickTime,if_neg (by simp [real])]

theorem stateOf_plain (sound : Sound zones m) (schedule : Schedule) : Plain (stateOf m.stores schedule) := by
  unfold stateOf
  split
  · rename_i state found
    exact sound.plain state (m.stores.states.get_exact.mp found).1
  · exact ⟨rfl,fun _ => rfl⟩

theorem handled_tick {fresh : Nat → Bytes} (evaluated : evaluate zones wall m.stores now = .ok (due,saved))
    (member : schedule ∈ m.stores.schedules.rows) : (step zones m now (.tick wall fresh)).handled schedule.id =
      m.handled schedule.id ++ dueTimes zones (stateOf m.stores schedule) now.utc := by
  have found := m.stores.schedules.get_exact.mpr ⟨member,rfl⟩
  simp only [step,evaluated,found]

theorem sound_ticks (sound : Sound zones m) (positive : 0 < now.instant)
    (evaluated : evaluate zones wall m.stores now = .ok (due,saved)) (member : schedule ∈ m.stores.schedules.rows)
    (active : schedule.paused = false) :
    Handled zones schedule now.utc (m.handled schedule.id) (dueTimes zones (stateOf m.stores schedule) now.utc)
      (dueOf zones now.utc (stateOf m.stores schedule)) (nextOf zones now.utc (stateOf m.stores schedule)) := by
  have works := (evaluate_ok evaluated).1 (stateOf m.stores schedule) (mem_loaded.mpr ⟨schedule,member,rfl⟩)
  rw [tickTime_real wall positive] at works
  have same := stateOf_schedule m.stores schedule
  have real : 0 < now.utc.instant := positive
  have ticked := tick_sound (by rwa [same]) (stateOf_plain sound schedule) (sound.standing schedule member) real
    (works_ticks works)
  rwa [same] at ticked

theorem sound_follows (sound : Sound zones m) : FollowsExpression zones m := by
  intro wall now fresh due saved _ positive evaluated schedule member active
  obtain ⟨named,last,covered,_,_⟩ := sound_ticks sound positive evaluated member active
  have all_due := (evaluate_ok evaluated).2.1
  rw [tickTime_real wall positive] at all_due
  have inside : stateOf m.stores schedule ∈ loaded m.stores := mem_loaded.mpr ⟨schedule,member,rfl⟩
  have own := filter_flatMap_key (@dueOf_scheduleID zones now.utc) (states_distinct m.stores) inside
  rw [stateOf_schedule,← all_due] at own
  rw [← own] at last
  refine ⟨_,handled_tick evaluated member,named,last,?_,?_⟩
  · intro job emitted mine
    have kept : job ∈ due.filter fun job => job.scheduleID = schedule.id :=
      List.mem_filter.mpr ⟨emitted,decide_eq_true mine⟩
    have listed : job.dueAt ∈ _ := List.mem_map_of_mem kept
    rw [last,Option.mem_toList] at listed
    exact named _ (List.mem_of_getLast? listed)
  · intro t occurs later past
    rw [handled_tick evaluated member]
    exact covered t occurs later past

theorem tick_preserves (sound : Sound zones m) (onward : m.clock ≤ now.instant) (positive : 0 < now.instant)
    (wall : Time) (fresh : Nat → Bytes) : Sound zones (step zones m now (.tick wall fresh)) := by
  cases evaluated : evaluate zones wall m.stores now with
  | error =>
    simp only [step,evaluated]
    exact clock_preserves sound onward
  | ok result =>
    obtain ⟨due,saved⟩ := result
    have all_saved := (evaluate_ok evaluated).2.2
    rw [tickTime_real wall positive] at all_saved
    have after : (step zones m now (.tick wall fresh)).stores = {m.stores with
        states := m.stores.states.putAll saved
        jobs := m.stores.jobs.putAll (enqueueDue now fresh (attachParentBackups m.stores.backups due))} := by
      simp only [step,evaluated,runTick]
    have clock : (step zones m now (.tick wall fresh)).clock = now.instant := by simp only [step,evaluated]
    refine ⟨?_,?_⟩
    · rw [after]
      intro state member
      rcases m.stores.states.mem_putAll member with old | new
      · exact sound.plain state old
      · rw [all_saved] at new
        obtain ⟨_,listed,rfl⟩ := List.mem_map.mp new
        obtain ⟨schedule,stored,rfl⟩ := mem_loaded.mp listed
        cases inactive : schedule.paused with
        | true =>
          rw [nextOf_paused (by rwa [stateOf_schedule])]
          exact stateOf_plain sound schedule
        | false => exact (sound_ticks sound positive evaluated stored inactive).plain
    · intro schedule member
      rw [after] at member ⊢
      rw [handled_tick evaluated member,clock]
      have here := @saved_state zones now.utc m.stores schedule member
      have same := stateOf_schedule m.stores schedule
      have schedule_kept : (nextOf zones now.utc (stateOf m.stores schedule)).schedule = schedule :=
        (nextOf_schedule _).trans same
      rw [← all_saved] at here
      rw [stateOf_stored here schedule_kept]
      obtain ⟨written,born,home,regular,cursor⟩ := (sound.standing schedule member).onward onward
      rw [same] at written born home regular
      refine ⟨by rwa [schedule_kept],by rwa [schedule_kept],by rwa [schedule_kept],by rwa [schedule_kept],?_⟩
      cases inactive : schedule.paused with
      | true =>
        have quiet : dueTimes zones (stateOf m.stores schedule) now.utc = [] := by
          rw [dueTimes,same,if_pos inactive]
        rw [quiet,List.append_nil,nextOf_paused (by rwa [same])]
        exact cursor
      | false => exact (sound_ticks sound positive evaluated member inactive).cursor

theorem step_preserves (sound : Sound zones m) (command : Command) (onward : m.clock ≤ now.instant)
    (positive : 0 < now.instant) (condition : Condition zones m now command) :
    Sound zones (step zones m now command) := by
  cases command with
  | create request =>
    obtain ⟨born,home,stamp⟩ := @stampTimes_sound now request.createdAt positive
    exact rewritten_preserves sound onward stamp born home condition
  | update id request =>
    change Sound zones (rewritten m id now (handleUpdateSchedule zones m.stores id request now))
    unfold handleUpdateSchedule
    cases found : m.stores.schedules.get id with
    | none => exact clock_preserves sound onward
    | some existing =>
      obtain ⟨born,home,stamp⟩ := @stampTimes_sound now existing.createdAt positive
      exact @rewritten_preserves zones m now sound onward (updated existing request id now) stamp born home
        (condition existing found)
  | delete id => exact delete_preserves sound onward id
  | pause id paused => exact pause_preserves sound onward id paused
  | tick wall fresh => exact tick_preserves sound onward positive wall fresh

-- In every run whose edits leave no cursor that their expression would not have
-- left, every tick follows the expressions that are stored.
theorem edited_schedules_follow (reached : Reached zones m) : FollowsExpression zones m := by
  have sound : Sound zones m := by
    induction reached with
    | start =>
      constructor
      all_goals
        intro _ member
        cases member
    | step command _ onward positive condition ih => exact step_preserves ih command onward positive condition
  exact sound_follows sound

end

def clockTime (hour minute : Int) : Time := ⟨date 2026 4 25 hour minute 0 0,0⟩

def request (expression : String) : Schedule :=
  ⟨ascii "report",ascii "report",ascii "orders",ascii "vault",ascii "full",ascii expression,⟨[],[]⟩,false,
    Time.zero,Time.zero⟩

def emptyServer : Machine := ⟨⟨Table.empty,Table.empty,Table.empty,none⟩,fun _ => [],0⟩

-- A daily schedule that has waited for noon since ten is edited at twenty past.
def daily : Schedule := created (request "0 12 * * *") [] (clockTime 9 15)

def edited (expression : String) : Schedule := updated daily (request expression) (ascii "report") (clockTime 10 20)

def waiting : ScheduleState := ⟨daily,Time.zero,clockTime 12 0,.unset,0⟩

def dailyServer : Machine := step (fun _ => none) emptyServer (clockTime 9 15) (.create (request "0 12 * * *") [])

def tickedServer : Machine := step (fun _ => none) dailyServer (clockTime 10 0) (.tick Time.zero (fun _ => []))

def editedServer (expression : String) : Machine :=
  step (fun _ => none) tickedServer (clockTime 10 20) (.update (ascii "report") (request expression))

theorem rewritten_valid {zones : Bytes → Option Zone} {m : Machine} {schedule : Schedule} {now : Time} {id : Bytes}
    (valid : validateSchedule zones schedule = .ok ()) :
    rewritten m id now (save zones m.stores schedule) =
      ⟨{m.stores with schedules := m.stores.schedules.put schedule},
        fun other => if other = id then [] else m.handled other,now.instant⟩ := by
  rw [save,valid]
  rfl

theorem dailyServer_stores : dailyServer.stores = ⟨Table.single daily,Table.empty,Table.empty,none⟩ := by
  change (rewritten emptyServer daily.id (clockTime 9 15) (save (fun _ => none) emptyServer.stores daily)).stores = _
  rw [rewritten_valid (by decide +kernel)]
  rfl

theorem single_evaluated {zones : Bytes → Option Zone} {stores : Stores} (rows : stores.schedules.rows = [schedule]) :
    evaluate zones wall stores now = tickAll zones (tickTime wall now) [stateOf stores schedule] := by
  rw [evaluate_tickAll,loaded,listSchedules,rows,List.mergeSort_singleton]
  rfl

theorem tickedServer_stores : tickedServer.stores = ⟨Table.single daily,Table.single waiting,Table.empty,none⟩ := by
  have evaluated : evaluate (fun _ => none) Time.zero dailyServer.stores (clockTime 10 0) = .ok ([],[waiting]) := by
    rw [dailyServer_stores,single_evaluated rfl]
    decide +kernel
  simp only [tickedServer,step,evaluated,runTick]
  rw [dailyServer_stores]
  rfl

theorem editedServer_exact (valid : validateSchedule (fun _ => none) (edited expression) = .ok ()) :
    (editedServer expression).stores = ⟨Table.single (edited expression),Table.single waiting,Table.empty,none⟩ ∧
      (editedServer expression).handled (ascii "report") = [] ∧
      (editedServer expression).clock = (clockTime 10 20).instant := by
  have found : tickedServer.stores.schedules.get (ascii "report") = some daily := by
    rw [tickedServer_stores]
    decide +kernel
  have written := @rewritten_valid _ tickedServer _ (clockTime 10 20) (ascii "report") valid
  simp only [editedServer,step,handleUpdateSchedule,found]
  rw [← edited,written]
  refine ⟨?_,by simp only [if_true],rfl⟩
  have replaced : (Table.single daily : Table Schedule.id).put (edited expression) = Table.single (edited expression) :=
    Table.ext rfl
  rw [tickedServer_stores]
  dsimp only
  rw [replaced]

theorem edited_next (cron : isWindow (edited expression).expression = false)
    (ahead : (nextFunc (fun _ => none) (edited expression)).bind (· (clockTime 10 20)) = .ok next) :
    Regular (fun _ => none) (edited expression) ∧ Occurs (fun _ => none) (edited expression) next ∧
      ∀ t, Occurs (fun _ => none) (edited expression) t → (clockTime 10 20).instant < t.instant →
        next.instant ≤ t.instant := by
  obtain ⟨nextFn,parsed,ahead⟩ := bind_ok_iff.mp ahead
  have regular : Regular (fun _ => none) (edited expression) := fun window => nomatch cron.symm.trans window
  have follows := schedule_follows regular parsed
  exact ⟨regular,follows.occurs _ _ (.inr rfl) ahead,fun t => follows.first _ _ t (.inr rfl) ahead⟩

-- The new expression goes on with the same noon.
theorem edited_schedule_follows : FollowsExpression (fun _ => none) (editedServer "0 */12 * * *") ∧
    (evaluate (fun _ => none) Time.zero (editedServer "0 */12 * * *").stores (clockTime 12 0)).map
      (fun ticked => ticked.1.map DueJob.dueAt) = .ok [clockTime 12 0] := by
  obtain ⟨regular,occurs,first⟩ := @edited_next "0 */12 * * *" (clockTime 12 0) (by decide +kernel) (by decide +kernel)
  constructor
  · have ready : Reached (fun _ => none) dailyServer := by
      refine .step _ (.start Table.empty none 0) (by decide +kernel) (by decide +kernel) ⟨?_,?_⟩
      · have cron : isWindow daily.expression = false := by decide +kernel
        exact fun window => nomatch cron.symm.trans window
      · exact (if_pos (by decide +kernel)).mpr (Int.le_refl _)
    have ticked : Reached (fun _ => none) tickedServer := .step _ ready (by decide +kernel) (by decide +kernel) trivial
    refine edited_schedules_follow (.step _ ticked (by decide +kernel) (by decide +kernel) ?_)
    intro existing found
    rw [tickedServer_stores] at found
    cases found
    refine ⟨regular,?_⟩
    rw [tickedServer_stores]
    exact (if_neg (by decide +kernel)).mpr ⟨.inr rfl,occurs,first⟩
  · obtain ⟨stores,_⟩ := @editedServer_exact "0 */12 * * *" (by decide +kernel)
    rw [stores,single_evaluated rfl]
    decide +kernel

-- The tick at eleven waits for noon still: half past ten is missed.
theorem edited_schedule_misses : ¬ FollowsExpression (fun _ => none) (editedServer "30 * * * *") := by
  intro follows
  obtain ⟨stores,handled,clock⟩ := @editedServer_exact "30 * * * *" (by decide +kernel)
  have evaluated : evaluate (fun _ => none) Time.zero (editedServer "30 * * * *").stores (clockTime 11 0) =
      .ok ([],[{waiting with schedule := edited "30 * * * *"}]) := by
    rw [stores,single_evaluated rfl]
    decide +kernel
  have member : edited "30 * * * *" ∈ (editedServer "30 * * * *").stores.schedules.rows := by
    rw [stores]
    exact List.mem_singleton.mpr rfl
  obtain ⟨_,occurs,_⟩ := @edited_next "30 * * * *" (clockTime 10 30) (by decide +kernel) (by decide +kernel)
  obtain ⟨found,ticked,_,last,_,covered⟩ := follows Time.zero (clockTime 11 0) (fun _ => []) [] _
    (by rw [clock]; decide +kernel) (by decide +kernel) evaluated _ member rfl
  have missed := covered (clockTime 10 30) occurs (by decide +kernel) (by decide +kernel)
  have none_found : found = [] := List.getLast?_eq_none_iff.mp (Option.toList_eq_nil_iff.mp last.symm)
  rw [ticked,none_found,List.append_nil] at missed
  change _ ∈ (editedServer "30 * * * *").handled (ascii "report") at missed
  rw [handled] at missed
  cases missed

end Kronos.ScheduleEdits
