import Kronos.CronClock
import Kronos.Scheduler

namespace Kronos.ScheduleOutage
open ByteRange Utf8 Calendar Rfc3339 CronExpression CronNext CronClock WindowExpression Recurrence Scheduler Effect

section
variable {zones : Bytes → Option Zone} {nextFn : Time → Except Fault Time} {state : ScheduleState} {now : Time}

-- The time whose zone the next times are looked for in.
def origin (state : ScheduleState) (now : Time) : Time := if state.nextRun.isZero then seed state now else state.nextRun

end

-- Half an hour off UTC a full hour is not found again, with one run due.
theorem half_hour_cursor_fails : ∃ e, tickOne (fun _ => none)
    ⟨hourlySchedule,Time.zero,⟨63839595599000000000,19800⟩,.skip,0⟩ ⟨63839595599000000000,0⟩ = .error e := by
  refine tickOne_fails_iff.mpr ⟨rfl,.inr ⟨_,hourly_parsed _,.inl (.inr ⟨_,0,_,.noMatch,rfl,.here (Int.le_refl _),?_⟩)⟩⟩
  exact hourly_next_misses (by decide) (by decide) rfl

end Kronos.ScheduleOutage
