import Kronos.Scheduler

namespace Kronos.CatchUp
open ByteRange Utf8 Rfc3339 CronExpression CronNext WindowExpression Scheduler Effect Recurrence

-- One schedule ticked at each of the times in turn, its state carried along.
def runTicks (zones : Bytes → Option Zone) (clock : Time) :
    List Time → ScheduleState → Except Fault (ScheduleState × List DueJob)
  | [],state => .ok (state,[])
  | now :: rest,state => do
    let (jobs,updated) ← tick zones clock [state] now
    let (final,more) ← runTicks zones clock rest (updated.headD state)
    return (final,jobs ++ more)

-- Where a schedule was left: at the cursor it waits for, or after its last run
-- or its creation.
def origin (state : ScheduleState) : Time := if state.lastRun.isZero then state.schedule.createdAt else state.lastRun

def Reached (state : ScheduleState) (t : Time) : Prop :=
  if state.nextRun.isZero then (origin state).instant < t.instant else state.nextRun.instant ≤ t.instant

-- The times of the expression from there up to a last one, each once and in order.
def Exact (c : Cron) (state : ScheduleState) (last : Time) (dues : List Time) : Prop :=
  dues.Pairwise (fun a b => a.instant < b.instant) ∧
    ∀ u, u ∈ dues ↔ Occurs c u ∧ Reached state u ∧ u.instant ≤ last.instant

variable {zones : Bytes → Option Zone} {clock : Time} {state : ScheduleState}

theorem tick_single (real : now.isZero = false) (ran : tick zones clock [state] now = .ok (jobs,updated)) :
    ∃ state', tickOne zones state now = .ok (state',jobs) ∧ updated = [state'] := by
  rw [tick,if_neg (by simp [real])] at ran
  simp only [tickAll,bind_ok_iff,Prod.exists] at ran
  obtain ⟨state',_,one,_,_,rest,same⟩ := ran
  cases rest
  cases same
  exact ⟨state',by rw [List.append_nil]; exact one,rfl⟩

-- What a queueing schedule does over ticks that never go back is what one
-- round up to the last of them does.
theorem runTicks_collects {nextFn : Time → Except Fault Time} {Valid Occurs : Time → Prop}
    (follows : Follows Time.instant nextFn Valid Occurs) (active : state.schedule.paused = false)
    (queued : state.catchUpPolicy = .queue) (parsed : nextFunc zones state.schedule = .ok nextFn)
    (awaits : Awaits nextFn state start) (valid : Valid start)
    (order : ticks.Pairwise (fun a b => a.instant ≤ b.instant)) (real : ∀ t ∈ ticks, t.isZero = false)
    (ends : ticks.getLast? = some last) (ran : runTicks zones clock ticks state = .ok (final,jobs)) :
    ∃ due next, Collects Time.instant nextFn last.instant start due next ∧ final = settle state due next ∧
      jobs.map DueJob.dueAt = due := by
  induction ticks generalizing state start jobs with
  | nil => cases ends
  | cons now rest ih =>
    rw [runTicks] at ran
    simp only [bind_ok_iff,Prod.exists] at ran
    obtain ⟨first,_,one,_,_,later,same⟩ := ran
    cases same
    obtain ⟨_,ticked,rfl⟩ := tick_single (real now List.mem_cons_self) one
    obtain ⟨_,_,due,next,parsed',done⟩ := tickOne_exact active ticked
    rw [parsed] at parsed'
    cases parsed'
    have started := done.started
    rw [awaits now] at started
    cases started
    have collected := done.collected
    have emitted : first.map DueJob.dueAt = due := by
      rw [done.emitted,done.settled]
      exact dueJobs_queue queued
    cases rest with
    | nil =>
      cases later
      cases ends
      exact ⟨due,next,collected,done.settled,by rw [List.append_nil]; exact emitted⟩
    | cons second rest =>
      rw [List.headD_cons,done.settled] at later
      have resumed := settle_awaits follows awaits valid collected
      have kept := (collected.valid_all follows valid).2
      have ends' : (second :: rest).getLast? = some last := by rwa [List.getLast?_cons_cons] at ends
      have onward : now.instant ≤ last.instant :=
        (List.pairwise_cons.mp order).1 last (List.mem_of_getLast? ends')
      have still : (settle state due next).schedule.paused = false := active
      obtain ⟨due',next',collected',settled',emitted'⟩ := ih still queued parsed resumed kept
        (List.pairwise_cons.mp order).2 (fun t member => real t (List.mem_cons_of_mem _ member)) ends' later
      refine ⟨due ++ due',next',collected.append onward collected',?_,?_⟩
      · rw [settled',settle_settle]
      · rw [List.map_append,emitted,emitted']

theorem utc_ext {b : Time} (left : a.offset = 0) (right : b.offset = 0) (same : a.instant = b.instant) : a = b := by
  obtain ⟨_,_⟩ := a
  obtain ⟨_,_⟩ := b
  cases left
  cases right
  cases same
  rfl

theorem seed_origin (recorded : Recorded state) (empty : state.nextRun.isZero = true) (now : Time) :
    seed state now = origin state := by
  unfold seed origin
  cases run : state.lastRun.isZero with
  | false => rw [if_pos rfl,if_neg (by simp)]
  | true =>
    rcases recorded with cursor | last | created
    · rw [empty] at cursor
      cases cursor
    · rw [run] at last
      cases last
    · rw [if_neg (by simp),if_pos created,if_pos rfl]

section
variable {c : Cron} {last start next : Time} {due : List Time}
  (path : Collects Time.instant c.next last.instant start due next) (zone : start.offset = 0)
include path zone

theorem collects_exact (named : start ∈ due → Occurs c start)
    (reached : ∀ u, Occurs c u → (Reached state u ↔ start.instant ≤ u.instant)) : Exact c state last due := by
  have follows := cron_follows c
  refine ⟨path.ascending follows zone,?_⟩
  intro u
  constructor
  · intro member
    obtain ⟨low,high⟩ := path.within follows zone u member
    have occurs : Occurs c u := by
      rcases (path.occurs follows zone).1 u member with rfl | occurs
      · exact named member
      · exact occurs
    exact ⟨occurs,(reached u occurs).mpr low,high⟩
  · intro ⟨occurs,later,past⟩
    obtain ⟨v,member,same⟩ := path.complete follows zone occurs ((reached u occurs).mp later) past
    have found := utc_ext ((path.valid_all follows zone).1 v member) occurs.1 same
    rw [← found]
    exact member

theorem round_exact_iff (recorded : Recorded state) (awaits : Awaits c.next state start)
    (home : (origin state).offset = 0) : Exact c state last due ↔
      state.nextRun.isZero = true ∨ Occurs c state.nextRun ∨ last.instant < state.nextRun.instant := by
  have follows := cron_follows c
  cases empty : state.nextRun.isZero with
  | true =>
    have told := awaits last
    rw [pending,if_pos empty,seed_origin recorded empty] at told
    have reached : ∀ u, Occurs c u → (Reached state u ↔ start.instant ≤ u.instant) := by
      intro u occurs
      rw [Reached,if_pos empty]
      constructor
      · intro after
        exact follows.first _ _ _ home told occurs after
      · intro after
        exact Int.lt_of_lt_of_le (follows.later _ _ home told) after
    have exactly := collects_exact path zone (fun _ => follows.occurs _ _ home told) reached
    exact ⟨fun _ => .inl rfl,fun _ => exactly⟩
  | false =>
    have cursor := awaits_nextRun awaits empty
    have reached : ∀ u, Occurs c u → (Reached state u ↔ start.instant ≤ u.instant) := by
      intro u _
      rw [Reached,if_neg (by simp [empty]),cursor]
    rw [← cursor]
    constructor
    · intro exactly
      rcases path.head with ⟨_,_,future⟩ | ⟨_,first⟩
      · exact .inr (.inr future)
      · exact .inr (.inl ((exactly.2 start).mp (List.mem_of_head? first)).1)
    · intro cond
      apply collects_exact path zone _ reached
      intro member
      have past := (path.within follows zone start member).2
      rcases cond with zero | occurs | _
      · cases zero
      · exact occurs
      · omega

end

-- Ticks at any spacing queue the times of a UTC cron schedule up to the last
-- tick, and leave the state one tick would, exactly when the cursor they start
-- from is such a time, or is not reached.
theorem catch_up_exact_iff {c : Cron} {ticks : List Time} {last : Time} {final single : ScheduleState}
    {jobs singleJobs : List DueJob} (cron : isWindow state.schedule.expression = false)
    (parsed : parseCron state.schedule.expression = .ok c) (active : state.schedule.paused = false)
    (queued : state.catchUpPolicy = .queue) (recorded : Recorded state)
    (cursorZone : state.nextRun.offset = 0) (runZone : state.lastRun.offset = 0)
    (createdZone : state.schedule.createdAt.offset = 0)
    (order : ticks.Pairwise (fun a b => a.instant ≤ b.instant)) (real : ∀ t ∈ ticks, t.isZero = false)
    (ends : ticks.getLast? = some last) (ran : runTicks zones clock ticks state = .ok (final,jobs))
    (once : tick zones clock [state] last = .ok (singleJobs,[single])) :
    Exact c state last (jobs.map DueJob.dueAt) ∧ final = single ↔
      state.nextRun.isZero = true ∨ Occurs c state.nextRun ∨ last.instant < state.nextRun.instant := by
  have function : nextFunc zones state.schedule = .ok c.next := by
    rw [nextFunc,if_neg (by simp [cron]),parsed]
    rfl
  obtain ⟨_,ticked,same⟩ := tick_single (real last (List.mem_of_getLast? ends)) once
  cases same
  obtain ⟨_,start,due,next,function',done⟩ := tickOne_exact active ticked
  rw [function] at function'
  cases function'
  have awaits := recorded_awaits recorded done.started
  have home : (origin state).offset = 0 := by
    unfold origin
    split
    · exact createdZone
    · exact runZone
  have zone : start.offset = 0 := by
    have told := awaits last
    unfold pending at told
    split at told
    · rename_i empty
      rw [seed_origin recorded empty] at told
      exact (cron_follows c).valid _ _ home told
    · cases told
      exact cursorZone
  obtain ⟨_,_,path,settled,emitted⟩ := runTicks_collects (cron_follows c) active queued function awaits zone
    order real ends ran
  obtain ⟨sameDue,sameNext⟩ := path.unique done.collected
  rw [emitted,settled,done.settled,sameDue,sameNext,round_exact_iff done.collected zone recorded awaits home]
  exact ⟨fun both => both.1,fun cond => ⟨cond,rfl⟩⟩

def freshState : ScheduleState := ⟨hourlySchedule,Time.zero,Time.zero,.queue,0⟩

theorem fresh_schedule_catches_up :
    Exact hourly freshState (april25 12 0) [april25 10 0,april25 11 0,april25 12 0] := by
  have exactly := @catch_up_exact_iff (fun _ => none) Time.zero freshState hourly [april25 10 0,april25 12 0]
    (april25 12 0) (settle freshState [april25 12 0] (april25 13 0))
    (settle freshState [april25 12 0] (april25 13 0))
    [dueJob hourlySchedule (april25 10 0) (april25 10 0),dueJob hourlySchedule (april25 11 0) (april25 12 0),
      dueJob hourlySchedule (april25 12 0) (april25 12 0)]
    [dueJob hourlySchedule (april25 10 0) (april25 12 0),dueJob hourlySchedule (april25 11 0) (april25 12 0),
      dueJob hourlySchedule (april25 12 0) (april25 12 0)]
    (by decide +kernel) (by decide +kernel) rfl rfl (by decide +kernel) rfl rfl rfl (by decide +kernel)
    (by decide +kernel) rfl (by decide +kernel) (by decide +kernel)
  exact (exactly.mpr (.inl rfl)).1

def movedState : ScheduleState :=
  ⟨hourlySchedule,april25 9 30,april25 10 30,.queue,0⟩

theorem stale_cursor_is_queued : parseCron hourlySchedule.expression = .ok hourly ∧ Recorded movedState ∧
      (runTicks (fun _ => none) Time.zero [april25 11 0] movedState).map
        (fun result => result.2.map DueJob.dueAt) =
          .ok [april25 10 30,april25 11 0] ∧
        ¬ Exact hourly movedState (april25 11 0)
          [april25 10 30,april25 11 0] := by
  refine ⟨by decide +kernel,by decide +kernel,by decide +kernel,?_⟩
  intro exactly
  have listed := (exactly.2 (april25 10 30)).mp List.mem_cons_self
  have absent : ¬ Occurs hourly (april25 10 30) := by decide +kernel
  exact absent listed.1

end Kronos.CatchUp
