import Kronos.WindowExpression

namespace Kronos.WindowClock
open ByteRange Utf8 Rfc3339 CronExpression WindowExpression Effect

def runs (w : Window) (stableKey : Bytes) : Nat → Time → Except Fault (List Time)
  | 0,_ => .ok []
  | n+1,after => do
    let t ← w.next stableKey after
    let rest ← runs w stableKey n t
    return t :: rest

-- The time from midnight on at which the window has its run.
def planned (w : Window) (stableKey : Bytes) (day : Int) : Int :=
  if w.random then w.start + w.offsetFor (w.zone.tell (w.zone.midnight day)) stableKey else w.start

-- How far the clock is ahead at the run of the time since midnight: by what the
-- day begins late, and by the offset changes in between.
def drift (w : Window) (stableKey : Bytes) (day : Int) : Int :=
  (w.zone.tell (w.zone.midnight day)).localNanos - day * 86400000000000 +
    (w.zone.offset (w.candidate stableKey day) - w.zone.offset (w.zone.midnight day)) * 1000000000

-- The clock shows every time of the window on that day.
def Exists (w : Window) (day : Int) : Prop :=
  ∀ clock, w.start ≤ clock → clock < w.stop → ∃ x, (w.zone.tell x).localNanos = day * 86400000000000 + clock

-- The drift leaves the run on its day, and in the window where there is one.
structure Fits (w : Window) (stableKey : Bytes) (day : Int) : Prop where
  date : 0 ≤ planned w stableKey day + drift w stableKey day ∧
    planned w stableKey day + drift w stableKey day < 86400000000000
  inside : Exists w day → w.start - planned w stableKey day ≤ drift w stableKey day ∧
    drift w stableKey day < w.stop - planned w stableKey day

section
variable {w : Window} {stableKey : Bytes} {day : Int} {after t : Time}

end

-- The first day whose run is ahead.
def firstDay (w : Window) (stableKey : Bytes) (after : Time) : Int :=
  w.zone.date after.instant + (if after.instant < w.candidate stableKey (w.zone.date after.instant) then 0 else 1)

section
variable {w : Window} {stableKey : Bytes} {day : Int} {after : Time}

theorem next_first (due : after.instant < w.candidate stableKey (firstDay w stableKey after)) :
    w.next stableKey after = .ok (w.zone.tell (w.candidate stableKey (firstDay w stableKey after))) := by
  unfold firstDay at due ⊢
  by_cases today : after.instant < w.candidate stableKey (w.zone.date after.instant)
  · rw [if_pos today,Int.add_zero,Window.next,Window.search,if_pos today]
  · rw [if_neg today] at due ⊢
    rw [Window.next,Window.search,if_neg today,Window.search,if_pos due]

end

end Kronos.WindowClock
