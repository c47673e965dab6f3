import Kronos.CronExpression
import Kronos.Recurrence

namespace Kronos.WindowExpression
open ByteRange Utf8 Strings Decimal Calendar Rfc3339 CronExpression Effect Recurrence

-- A zone of the time zone database: its offset at an instant, and the instant
-- the date functions give for the start of a day.
structure Zone where
  offset : Int → Int
  midnight : Int → Int

namespace Zone

def utc : Zone := ⟨fun _ => 0,fun day => day * 86400000000000⟩

def tell (zone : Zone) (instant : Int) : Time := ⟨instant,zone.offset instant⟩

def date (zone : Zone) (instant : Int) : Int := (zone.tell instant).day

end Zone

structure Window where
  start : Int
  stop : Int
  zone : Zone
  random : Bool

def parseClock (text : Bytes) : Except Fault Int :=
  match text.splitOn 58 with
  | [first,second] => match atoi first with
    | none => .error (.clockNumber first)
    | some hour => match atoi second with
      | none => .error (.clockNumber second)
      | some minute =>
        if hour < 0 ∨ 23 < hour ∨ minute < 0 ∨ 59 < minute then .error (.clockOutside text)
        else .ok (hour * 3600000000000 + minute * 60000000000)
  | _ => .error (.invalidClock text)

def parseWindowRange (text : Bytes) : Except Fault (Int × Int) :=
  match text.splitOn 45 with
  | [first,second] => do
    let start ← (parseClock first).mapError (.windowEdge "start")
    let stop ← (parseClock second).mapError (.windowEdge "end")
    return (start,stop)
  | _ => .error (.windowRange text)

section
variable (zones : Bytes → Option Zone)

def loadLocation (name : Bytes) : Option Zone := if name = ascii "UTC" then some Zone.utc else zones name

def readOptions : List Bytes → Window → Except Fault Window
  | [],w => .ok w
  | field :: rest,w =>
    if field = ascii "random" then readOptions rest {w with random := true}
    else match loadLocation zones field with
    | none => .error (.timezone field)
    | some zone => readOptions rest {w with zone := zone}

def parseWindow (expr : Bytes) : Except Fault Window :=
  match fields expr with
  | name :: range :: options =>
    if name ≠ ascii "@between" then .error .windowStart
    else do
      let (start,stop) ← parseWindowRange range
      let w ← readOptions zones options ⟨start,stop,Zone.utc,false⟩
      if w.stop ≤ w.start then .error .windowOrder else .ok w
  | _ => .error .windowStart

end

-- FNV-1a with 64 bits.
def fnv64a (text : Bytes) : UInt64 :=
  text.foldl (fun hash b => (hash ^^^ b.toUInt64) * 1099511628211) 14695981039346656037

def dayText (t : Time) : Bytes :=
  (if yearOf t.day < 0 then [45] else []) ++ atLeast 4 (yearOf t.day).natAbs ++
    45 :: (padded 2 (monthOf t.day) ++ 45 :: padded 2 (dayOf t.day).toNat)

namespace Window

def offsetFor (w : Window) (day : Time) (stableKey : Bytes) : Int :=
  let width := w.stop - w.start
  if width ≤ 0 then 0 else (fnv64a (stableKey ++ 58 :: dayText day)).toNat % width

def candidate (w : Window) (stableKey : Bytes) (day : Int) : Int :=
  let midnight := w.zone.midnight day
  if w.random then midnight + (w.start + w.offsetFor (w.zone.tell midnight) stableKey) else midnight + w.start

def search (w : Window) (stableKey : Bytes) (after : Int) : Nat → Int → Except Fault Time
  | 0,_ => .error .noWindow
  | days+1,day =>
    if after < w.candidate stableKey day then .ok (w.zone.tell (w.candidate stableKey day))
    else search w stableKey after days (day+1)

def next (w : Window) (stableKey : Bytes) (after : Time) : Except Fault Time :=
  w.search stableKey after.instant 370 (w.zone.date after.instant)

def Occurs (w : Window) (stableKey : Bytes) (t : Time) : Prop :=
  ∃ day, t = w.zone.tell (w.candidate stableKey day)

-- The dates of the zone do not go back, and the run of a day falls on that day.
structure Orderly (w : Window) (stableKey : Bytes) : Prop where
  dates : ∀ x y, x ≤ y → w.zone.date x ≤ w.zone.date y
  own : ∀ day, w.zone.date (w.candidate stableKey day) = day

section
variable {w : Window} {stableKey : Bytes}

theorem Orderly.later (orderly : w.Orderly stableKey) {x day : Int} (after : w.zone.date x < day) :
    x < w.candidate stableKey day := by
  by_cases early : x < w.candidate stableKey day
  · exact early
  · have order := orderly.dates _ _ (Int.not_lt.mp early)
    rw [orderly.own] at order
    omega

theorem Orderly.earlier (orderly : w.Orderly stableKey) (before : day < w.zone.date x) :
    w.candidate stableKey day < x := by
  by_cases early : w.candidate stableKey day < x
  · exact early
  · have order := orderly.dates _ _ (Int.not_lt.mp early)
    rw [orderly.own] at order
    omega

theorem Orderly.ascending (orderly : w.Orderly stableKey) (before : a < b) :
    w.candidate stableKey a < w.candidate stableKey b := by
  apply orderly.later
  rw [orderly.own]
  exact before

theorem next_exact (orderly : w.Orderly stableKey) (after : Time) :
    ∃ day, w.next stableKey after = .ok (w.zone.tell (w.candidate stableKey day)) ∧
      after.instant < w.candidate stableKey day ∧
        ∀ other, after.instant < w.candidate stableKey other → day ≤ other := by
  have bound : ∀ other, after.instant < w.candidate stableKey other → w.zone.date after.instant ≤ other := by
    intro other found
    by_cases early : other < w.zone.date after.instant
    · have passed := orderly.earlier early
      omega
    · exact Int.not_lt.mp early
  have tomorrow := orderly.later (show w.zone.date after.instant < w.zone.date after.instant + 1 by omega)
  by_cases today : after.instant < w.candidate stableKey (w.zone.date after.instant)
  · refine ⟨w.zone.date after.instant,?_,today,bound⟩
    rw [next,search,if_pos today]
  · refine ⟨w.zone.date after.instant + 1,?_,tomorrow,?_⟩
    · rw [next,search,if_neg today,search,if_pos tomorrow]
    · intro other found
      have reached := bound other found
      rcases Int.lt_or_eq_of_le reached with more | same
      · exact more
      · rw [same] at today
        exact absurd found today

theorem window_follows (orderly : w.Orderly stableKey) :
    Follows Time.instant (w.next stableKey) (fun _ => True) (w.Occurs stableKey) := by
  have found : ∀ a t, w.next stableKey a = .ok t → ∃ day, t = w.zone.tell (w.candidate stableKey day) ∧
      a.instant < w.candidate stableKey day ∧
        ∀ other, a.instant < w.candidate stableKey other → day ≤ other := by
    intro a t named
    obtain ⟨day,same,later,first⟩ := next_exact orderly a
    rw [same] at named
    cases named
    exact ⟨day,rfl,later,first⟩
  constructor
  · intro a t _ named
    exact trivial
  · intro a t _ named
    obtain ⟨day,rfl,later,_⟩ := found a t named
    exact later
  · intro a t _ named
    obtain ⟨day,rfl,_⟩ := found a t named
    exact ⟨day,rfl⟩
  · intro a t u _ named occurs later
    obtain ⟨_,rfl,_,first⟩ := found a t named
    obtain ⟨other,rfl⟩ := occurs
    rcases Int.lt_or_eq_of_le (first other later) with before | same
    · exact Int.le_of_lt (orderly.ascending before)
    · rw [same]

end

end Window

end Kronos.WindowExpression
