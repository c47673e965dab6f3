import Kronos.CronNext
import Kronos.WindowExpression

namespace Kronos.Scheduler
open ByteRange Utf8 Strings Rfc3339 CronExpression CronNext WindowExpression Effect Recurrence

structure JobHookAction where
  shell : Bytes
  webhookURL : Bytes
  deriving DecidableEq

structure JobHooks where
  preBackup : List JobHookAction
  onFailure : List JobHookAction
  deriving DecidableEq

structure Schedule where
  id : Bytes
  name : Bytes
  targetID : Bytes
  storageID : Bytes
  backupType : Bytes
  expression : Bytes
  hooks : JobHooks
  paused : Bool
  createdAt : Time
  updatedAt : Time
  deriving DecidableEq

inductive CatchUpPolicy
  | unset | skip | queue | runOnce | other (name : Bytes)
  deriving DecidableEq

structure ScheduleState where
  schedule : Schedule
  lastRun : Time
  nextRun : Time
  catchUpPolicy : CatchUpPolicy
  maxCatchUp : Int
  deriving DecidableEq

structure DueJob where
  scheduleID : Bytes
  targetID : Bytes
  storageID : Bytes
  type : Bytes
  parentBackupID : Bytes
  hooks : JobHooks
  dueAt : Time
  queuedAt : Time
  deriving DecidableEq

def dueJob (schedule : Schedule) (dueAt queuedAt : Time) : DueJob :=
  ⟨schedule.id,schedule.targetID,schedule.storageID,schedule.backupType,[],schedule.hooks,dueAt,queuedAt⟩

def dueJobsForPolicy (state : ScheduleState) (dueTimes : List Time) (now : Time) : List DueJob :=
  match dueTimes.getLast? with
  | none => []
  | some latest =>
    match state.catchUpPolicy with
    | .queue => dueTimes.map (fun dueAt => dueJob state.schedule dueAt now)
    | .runOnce => [dueJob state.schedule now now]
    | .unset | .skip | .other _ => [dueJob state.schedule latest now]

def isWindow (expression : Bytes) : Bool := (ascii "@between").isPrefixOf (trimSpace expression)

section
variable (zones : Bytes → Option Zone)

def nextFunc (schedule : Schedule) : Except Fault (Time → Except Fault Time) :=
  if isWindow schedule.expression then do
    let window ← parseWindow zones schedule.expression
    let stableKey := if schedule.id = [] then schedule.name else schedule.id
    return window.next stableKey
  else do
    let cron ← parseCron schedule.expression
    return cron.next

def seed (state : ScheduleState) (now : Time) : Time :=
  if state.lastRun.isZero = false then state.lastRun
  else if state.schedule.createdAt.isZero = false then state.schedule.createdAt
  else now

def pending (nextFn : Time → Except Fault Time) (state : ScheduleState) (now : Time) : Except Fault Time :=
  if state.nextRun.isZero then nextFn (seed state now) else .ok state.nextRun

def limit (state : ScheduleState) : Int := if state.maxCatchUp ≤ 0 then 1000 else state.maxCatchUp

def settle (state : ScheduleState) (due : List Time) (next : Time) : ScheduleState :=
  {state with lastRun := due.getLast?.getD state.lastRun,nextRun := next}

def catchUp (nextFn : Time → Except Fault Time) (state : ScheduleState) (now next : Time) :
    Except Fault (ScheduleState × List DueJob) :=
  if now.instant < next.instant then .ok ({state with nextRun := next},[])
  else do
    let (dueTimes,next) ← collect Time.instant nextFn (.catchUpLimit state.schedule.id (limit state))
      now.instant (limit state).toNat next
    return (settle state dueTimes next,dueJobsForPolicy (settle state dueTimes next) dueTimes now)

def tickOne (state : ScheduleState) (now : Time) : Except Fault (ScheduleState × List DueJob) :=
  if state.schedule.paused then .ok (state,[])
  else match nextFunc zones state.schedule with
  | .error e => .error (.inSchedule state.schedule.id e)
  | .ok nextFn => do
    let next ← pending nextFn state now
    catchUp nextFn state now next

def tickAll (now : Time) : List ScheduleState → Except Fault (List DueJob × List ScheduleState)
  | [] => .ok ([],[])
  | state :: rest => do
    let (nextState,due) ← tickOne zones state now
    let (jobs,updated) ← tickAll now rest
    return (due ++ jobs,nextState :: updated)

-- A tick without a time is a tick at the time of the clock.
def tick (clock : Time) (states : List ScheduleState) (now : Time) :
    Except Fault (List DueJob × List ScheduleState) :=
  tickAll zones (if now.isZero then clock.utc else now) states

end

variable {zones : Bytes → Option Zone} {state state' : ScheduleState} {now : Time} {jobs : List DueJob}

structure Ticked (nextFn : Time → Except Fault Time) (state : ScheduleState) (now : Time)
    (state' : ScheduleState) (jobs : List DueJob) (start : Time) (due : List Time) (next : Time) : Prop where
  started : pending nextFn state now = .ok start
  round : collect Time.instant nextFn (.catchUpLimit state.schedule.id (limit state)) now.instant
    (limit state).toNat start = .ok (due,next)
  settled : state' = settle state due next
  emitted : jobs = dueJobsForPolicy state' due now

theorem Ticked.collected {nextFn : Time → Except Fault Time}
    (done : Ticked nextFn state now state' jobs start due next) :
    Collects Time.instant nextFn now.instant start due next := collect_sound done.round

theorem tickOne_exact (active : state.schedule.paused = false) (ran : tickOne zones state now = .ok (state',jobs)) :
    ∃ nextFn start due next, nextFunc zones state.schedule = .ok nextFn ∧
      Ticked nextFn state now state' jobs start due next := by
  rw [tickOne,if_neg (by simp [active])] at ran
  cases parsed : nextFunc zones state.schedule with
  | error =>
    rw [parsed] at ran
    cases ran
  | ok nextFn =>
    rw [parsed] at ran
    obtain ⟨start,started,ran⟩ := bind_ok_iff.mp ran
    unfold catchUp at ran
    by_cases future : now.instant < start.instant
    · rw [if_pos future] at ran
      cases ran
      exact ⟨nextFn,start,[],start,rfl,started,collect_future future,rfl,rfl⟩
    · rw [if_neg future] at ran
      obtain ⟨⟨due,next⟩,collected,same⟩ := bind_ok_iff.mp ran
      cases same
      exact ⟨nextFn,start,due,next,rfl,started,collected,rfl,rfl⟩

theorem tickOne_paused (inactive : state.schedule.paused = true)
    (ran : tickOne zones state now = .ok (state',jobs)) : state' = state ∧ jobs = [] := by
  rw [tickOne,if_pos inactive] at ran
  cases ran
  exact ⟨rfl,rfl⟩

-- A schedule whose expression is refused, one that has no next time where it
-- needs one, and one with more due times than its limit.
def Invalid (zones : Bytes → Option Zone) (state : ScheduleState) : Prop :=
  ∃ e, nextFunc zones state.schedule = .error e

def NeverFires (nextFn : Time → Except Fault Time) (state : ScheduleState) (now : Time) : Prop :=
  (∃ e, pending nextFn state now = .error e) ∨
    ∃ start n u e, pending nextFn state now = .ok start ∧
      Reaches Time.instant nextFn now.instant start n u ∧ nextFn u = .error e

def OverLimit (nextFn : Time → Except Fault Time) (state : ScheduleState) (now : Time) : Prop :=
  ∃ start u, pending nextFn state now = .ok start ∧
    Reaches Time.instant nextFn now.instant start (limit state).toNat u

def Fails (zones : Bytes → Option Zone) (state : ScheduleState) (now : Time) : Prop :=
  state.schedule.paused = false ∧
    (Invalid zones state ∨ ∃ nextFn, nextFunc zones state.schedule = .ok nextFn ∧
      (NeverFires nextFn state now ∨ OverLimit nextFn state now))

theorem catchUp_fails_iff {nextFn : Time → Except Fault Time} : (∃ e, catchUp nextFn state now start = .error e) ↔
      (∃ u, Reaches Time.instant nextFn now.instant start (limit state).toNat u) ∨
        ∃ n u e, Reaches Time.instant nextFn now.instant start n u ∧ nextFn u = .error e := by
  rw [← @collect_fails_iff _ _ _ _ Time.instant nextFn (.catchUpLimit state.schedule.id (limit state))]
  unfold catchUp
  by_cases future : now.instant < start.instant
  · rw [if_pos future,collect_future future]
    constructor
    · intro ⟨e,failed⟩
      cases failed
    · intro ⟨e,failed⟩
      cases failed
  · rw [if_neg future]
    cases collect Time.instant nextFn (.catchUpLimit state.schedule.id (limit state)) now.instant
        (limit state).toNat start with
    | error e => exact ⟨fun _ => ⟨e,rfl⟩,fun _ => ⟨e,rfl⟩⟩
    | ok =>
      constructor
      · intro ⟨e,failed⟩
        cases failed
      · intro ⟨e,failed⟩
        cases failed

theorem tickOne_fails_iff : (∃ e, tickOne zones state now = .error e) ↔ Fails zones state now := by
  cases paused : state.schedule.paused with
  | true =>
    rw [tickOne,if_pos paused]
    constructor
    · intro ⟨e,failed⟩
      cases failed
    · intro failed
      rw [failed.1] at paused
      cases paused
  | false =>
    rw [tickOne,if_neg (by simp [paused])]
    cases parsed : nextFunc zones state.schedule with
    | error e => exact ⟨fun _ => ⟨paused,.inl ⟨e,parsed⟩⟩,fun _ => ⟨_,rfl⟩⟩
    | ok nextFn =>
      dsimp only
      have only : Fails zones state now ↔ NeverFires nextFn state now ∨ OverLimit nextFn state now := by
        constructor
        · intro ⟨_,failed⟩
          rcases failed with ⟨e,refused⟩ | ⟨_,same,failed⟩
          · rw [parsed] at refused
            cases refused
          · rw [parsed] at same
            cases same
            exact failed
        · intro failed
          exact ⟨paused,.inr ⟨nextFn,parsed,failed⟩⟩
      rw [only]
      cases started : pending nextFn state now with
      | error e => exact ⟨fun _ => .inl (.inl ⟨e,started⟩),fun _ => ⟨e,rfl⟩⟩
      | ok start =>
        change (∃ e, catchUp nextFn state now start = .error e) ↔ _
        rw [catchUp_fails_iff]
        constructor
        · intro paths
          rcases paths with ⟨u,path⟩ | ⟨n,u,e,path,stuck⟩
          · exact .inr ⟨start,u,started,path⟩
          · exact .inl (.inr ⟨start,n,u,e,started,path,stuck⟩)
        · intro failed
          rcases failed with (⟨e,refused⟩ | ⟨start',n,u,e,same,path,stuck⟩) | ⟨start',u,same,path⟩
          · rw [started] at refused
            cases refused
          · rw [started] at same
            cases same
            exact .inr ⟨n,u,e,path,stuck⟩
          · rw [started] at same
            cases same
            exact .inl ⟨u,path⟩

theorem dueJobs_queue (policy : state.catchUpPolicy = .queue) :
    (dueJobsForPolicy state due now).map DueJob.dueAt = due := by
  unfold dueJobsForPolicy
  rw [policy]
  cases ends : due.getLast? with
  | none =>
    rw [List.getLast?_eq_none_iff.mp ends]
    rfl
  | some => simp only [List.map_map,Function.comp_def,dueJob,List.map_id']

theorem settle_settle (state : ScheduleState) (one two : List Time) (middle last : Time) :
    settle (settle state one middle) two last = settle state (one ++ two) last := by
  simp only [settle,ScheduleState.mk.injEq,true_and,and_true,List.getLast?_append]
  cases two.getLast? <;> rfl

-- The schedule waits for the same time whenever it is asked.
def Awaits (nextFn : Time → Except Fault Time) (state : ScheduleState) (start : Time) : Prop :=
  ∀ now, pending nextFn state now = .ok start

def Recorded (state : ScheduleState) : Prop :=
  state.nextRun.isZero = false ∨ state.lastRun.isZero = false ∨ state.schedule.createdAt.isZero = false

instance (state : ScheduleState) : Decidable (Recorded state) := inferInstanceAs (Decidable (_ ∨ _ ∨ _))

section
variable {nextFn : Time → Except Fault Time} {start : Time}

theorem recorded_awaits (recorded : Recorded state) (started : pending nextFn state now = .ok start) :
    Awaits nextFn state start := by
  intro later
  rw [← started]
  unfold pending
  split
  · rename_i empty
    have same : seed state later = seed state now := by
      unfold seed
      rcases recorded with cursor | run | created
      · rw [empty] at cursor
        cases cursor
      · rw [if_pos run,if_pos run]
      · rw [if_pos created,if_pos created]
    rw [same]
  · rfl

theorem awaits_nextRun (awaits : Awaits nextFn state start) (cursor : state.nextRun.isZero = false) :
    start = state.nextRun := by
  have told := awaits start
  rw [pending,if_neg (by simp [cursor])] at told
  cases told
  rfl

-- The cursor a tick leaves is what the next tick starts with, also when it is
-- the zero time and so not recorded.
theorem settle_awaits {Valid Occurs : Time → Prop} (follows : Follows Time.instant nextFn Valid Occurs)
    (awaits : Awaits nextFn state start) (valid : Valid start)
    (path : Collects Time.instant nextFn now.instant start due next) : Awaits nextFn (settle state due next) next := by
  intro later
  by_cases shown : next.isZero = false
  · rw [pending,if_neg (by simp [settle,shown])]
    rfl
  have empty : next.isZero = true := by simpa using shown
  rw [pending,if_pos (by simpa [settle] using empty)]
  rcases List.eq_nil_or_concat due with none_due | ⟨_,_,some_due⟩
  · subst none_due
    cases path with
    | stop =>
      have started := awaits later
      rw [pending] at started
      by_cases cursor : state.nextRun.isZero
      · rw [if_pos cursor] at started
        exact started
      · rw [if_neg cursor] at started
        cases started
        exact absurd empty cursor
  · obtain ⟨latest,ends,named⟩ := path.cursor (by rw [some_due]; simp)
    have member : latest ∈ due := List.mem_of_getLast? ends
    have before := follows.later _ _ ((path.valid_all follows valid).1 latest member) named
    have run : latest.isZero = false := by
      simp only [Time.isZero,decide_eq_true_eq,decide_eq_false_iff_not] at empty ⊢
      omega
    have seeded : seed (settle state due next) later = latest := by
      simp only [seed,settle,ends,Option.getD_some,run,if_true]
    rw [seeded]
    exact named

end

def fullBackup (id expression : String) : Schedule :=
  ⟨ascii id,ascii id,ascii "orders",ascii "vault",ascii "full",ascii expression,⟨[],[]⟩,false,
    ⟨date 2026 4 25 9 15 0 0,0⟩,⟨date 2026 4 25 9 15 0 0,0⟩⟩

def hourlySchedule : Schedule := fullBackup "hourly" "0 * * * *"

theorem hourly_parsed (zones : Bytes → Option Zone) : nextFunc zones hourlySchedule = .ok hourly.next := by
  have cron : isWindow hourlySchedule.expression = false := by decide +kernel
  have parsed : parseCron hourlySchedule.expression = .ok hourly := by decide +kernel
  rw [nextFunc,if_neg (by simp [cron]),parsed]
  rfl

def april25 (hour minute : Int) : Time := ⟨date 2026 4 25 hour minute 0 0,0⟩

end Kronos.Scheduler
