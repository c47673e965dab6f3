import Mathlib.Data.List.Basic

namespace Kronos.Calendar

-- Days are counted from January 1 of year 1, years and days in both directions.
def yearStart (year : Int) : Int :=
  365 * (year-1) + (year-1) / 4 - (year-1) / 100 + (year-1) / 400

def leap (year : Int) : Bool := year % 4 = 0 && (year % 100 ≠ 0 || year % 400 = 0)

def leapDay (year : Int) : Int := if leap year then 1 else 0

-- The days of the year before a month; the thirteenth month starts the next year.
def monthOffset (extra : Int) : Nat → Int
  | 0 | 1 => 0
  | 2 => 31
  | 3 => 59 + extra
  | 4 => 90 + extra
  | 5 => 120 + extra
  | 6 => 151 + extra
  | 7 => 181 + extra
  | 8 => 212 + extra
  | 9 => 243 + extra
  | 10 => 273 + extra
  | 11 => 304 + extra
  | 12 => 334 + extra
  | _ => 365 + extra

def monthStart (year : Int) (month : Nat) : Int := yearStart year + monthOffset (leapDay year) month

def daysIn (year : Int) (month : Nat) : Int := monthStart year (month+1) - monthStart year month

-- Years have 146097 / 400 days on average; the estimate is off by at most one.
def yearOf (day : Int) : Int :=
  let guess := 400 * day / 146097 + 1
  if yearStart (guess+1) ≤ day then guess + 1 else if day < yearStart guess then guess - 1 else guess

def monthFrom (year day : Int) : Nat → Nat
  | 0 => 1
  | month+1 => if monthStart year (month+1) ≤ day then month + 1 else monthFrom year day month

def monthOf (day : Int) : Nat := monthFrom (yearOf day) day 12

def dayOf (day : Int) : Int := day - monthStart (yearOf day) (monthOf day) + 1

-- Sunday is 0; the first day was a Monday.
def weekdayOf (day : Int) : Nat := ((day + 1) % 7).toNat

theorem leap_iff (year : Int) : leap year = true ↔ year % 4 = 0 ∧ (year % 100 ≠ 0 ∨ year % 400 = 0) := by
  simp [leap]

theorem yearStart_next (year : Int) : yearStart (year+1) = yearStart year + 365 + leapDay year := by
  unfold leapDay yearStart
  by_cases cond : leap year = true
  · have rule := (leap_iff year).mp cond
    rw [if_pos cond]
    omega
  · have rule := (leap_iff year).not.mp cond
    rw [if_neg cond]
    omega

theorem yearStart_mono (before : a ≤ b) : yearStart a ≤ yearStart b := by
  unfold yearStart
  omega

theorem leapDay_bounds (year : Int) : 0 ≤ leapDay year ∧ leapDay year ≤ 1 := by
  unfold leapDay
  split <;> omega

theorem yearOf_bounds (day : Int) : yearStart (yearOf day) ≤ day ∧ day < yearStart (yearOf day + 1) := by
  unfold yearOf yearStart
  dsimp only
  split
  · omega
  · split <;> omega

theorem yearOf_exact (first : yearStart year ≤ day) (last : day < yearStart (year+1)) : yearOf day = year := by
  have bounds := yearOf_bounds day
  rcases Int.lt_trichotomy (yearOf day) year with _ | same | _
  · have order := yearStart_mono (show yearOf day + 1 ≤ year by omega)
    omega
  · exact same
  · have order := yearStart_mono (show year + 1 ≤ yearOf day by omega)
    omega

theorem monthStart_first (year : Int) : monthStart year 1 = yearStart year := by
  simp [monthStart,monthOffset]

theorem monthStart_end (year : Int) : monthStart year 13 = yearStart (year+1) := by
  rw [yearStart_next]
  simp only [monthStart,monthOffset]
  omega

theorem daysIn_bounds (year : Int) (first : 1 ≤ month) (last : month ≤ 12) :
    28 ≤ daysIn year month ∧ daysIn year month ≤ 31 := by
  have extra := leapDay_bounds year
  unfold daysIn monthStart
  rcases month with _ | _ | _ | _ | _ | _ | _ | _ | _ | _ | _ | _ | _ | _
  all_goals first | omega | (simp only [monthOffset]; omega)

theorem monthStart_mono (year : Int) (first : 1 ≤ a) (order : a ≤ b) (last : b ≤ 13) :
    monthStart year a ≤ monthStart year b := by
  induction order with
  | refl => exact Int.le_refl _
  | @step b order ih =>
    have some_month : 1 ≤ b := Nat.le_trans first order
    have size := daysIn_bounds year some_month (by omega)
    unfold daysIn at size
    change _ ≤ monthStart year (b+1)
    omega

theorem monthFrom_bounds (first : yearStart year ≤ day) (months : Nat) (last : day < monthStart year (months+1)) :
    1 ≤ monthFrom year day months ∧ monthFrom year day months ≤ months ∧
      monthStart year (monthFrom year day months) ≤ day ∧
        day < monthStart year (monthFrom year day months + 1) := by
  induction months with
  | zero =>
    rw [monthStart_first] at last
    omega
  | succ months ih =>
    rw [monthFrom]
    split
    · rename_i reached
      exact ⟨by omega,by omega,reached,last⟩
    · obtain ⟨low,_,start,stop⟩ := ih (by omega)
      exact ⟨low,by omega,start,stop⟩

theorem monthOf_bounds (day : Int) : 1 ≤ monthOf day ∧ monthOf day ≤ 12 ∧
    monthStart (yearOf day) (monthOf day) ≤ day ∧ day < monthStart (yearOf day) (monthOf day + 1) := by
  obtain ⟨first,last⟩ := yearOf_bounds day
  exact monthFrom_bounds first 12 (by rw [monthStart_end]; exact last)

theorem monthOf_exact (low : 1 ≤ month) (high : month ≤ 12) (first : monthStart year month ≤ day)
    (last : day < monthStart year (month+1)) : yearOf day = year ∧ monthOf day = month := by
  have start := monthStart_mono year (Nat.le_refl 1) low (by omega)
  have stop := monthStart_mono year (show 1 ≤ month + 1 by omega) (show month + 1 ≤ 13 by omega) (Nat.le_refl 13)
  rw [monthStart_first] at start
  rw [monthStart_end] at stop
  have same := yearOf_exact (show yearStart year ≤ day by omega) (show day < yearStart (year+1) by omega)
  refine ⟨same,?_⟩
  obtain ⟨_,_,monthFirst,monthLast⟩ := monthOf_bounds day
  rw [same] at monthFirst monthLast
  rcases Nat.lt_trichotomy (monthOf day) month with _ | equal | _
  · have order := monthStart_mono year (show 1 ≤ monthOf day + 1 by omega)
      (show monthOf day + 1 ≤ month by omega) (by omega)
    omega
  · exact equal
  · have order := monthStart_mono year (show 1 ≤ month + 1 by omega)
      (show month + 1 ≤ monthOf day by omega) (by omega)
    omega

theorem dayOf_bounds (day : Int) : 1 ≤ dayOf day ∧ dayOf day ≤ daysIn (yearOf day) (monthOf day) := by
  obtain ⟨_,_,_,_⟩ := monthOf_bounds day
  unfold dayOf daysIn
  omega

end Kronos.Calendar
