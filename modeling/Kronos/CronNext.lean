import Kronos.CronExpression
import Kronos.Recurrence

namespace Kronos.CronNext
open Utf8 Calendar Rfc3339 CronExpression Recurrence

def utcAt (s : Int) : Time := ⟨s * 1000000000,0⟩

def fieldsMatch (c : Cron) (t : Time) : Bool :=
  has c.months (monthOf t.day) && c.dayMatches t && has c.hours t.hour && has c.minutes t.minute &&
    has c.seconds t.second

def Occurs (c : Cron) (t : Time) : Prop := t.offset = 0 ∧ t.nanosecond = 0 ∧ fieldsMatch c t = true

instance (c : Cron) (t : Time) : Decidable (Occurs c t) := inferInstanceAs (Decidable (_ ∧ _ ∧ _))

@[simp] theorem utcAt_localSeconds (s : Int) : (utcAt s).localSeconds = s := by
  simp only [Time.localSeconds,Time.localNanos,utcAt]
  omega

@[simp] theorem utcAt_day (s : Int) : (utcAt s).day = s / 86400 := by simp [Time.day]

@[simp] theorem utcAt_hour (s : Int) : (utcAt s).hour = (s % 86400 / 3600).toNat := by simp [Time.hour]

@[simp] theorem utcAt_minute (s : Int) : (utcAt s).minute = (s % 3600 / 60).toNat := by simp [Time.minute]

@[simp] theorem utcAt_second (s : Int) : (utcAt s).second = (s % 60).toNat := by simp [Time.second]

theorem utc_whole (zone : t.offset = 0) (whole : t.nanosecond = 0) : t = utcAt (t.instant / 1000000000) := by
  obtain ⟨_,_⟩ := t
  subst zone
  simp only [Time.nanosecond,Time.localNanos] at whole
  simp only [utcAt,Time.mk.injEq,and_true]
  omega

theorem occurs_utcAt : Occurs c (utcAt s) ↔ fieldsMatch c (utcAt s) = true := by
  have whole : (utcAt s).nanosecond = 0 := by
    simp only [Time.nanosecond,Time.localNanos,utcAt]
    omega
  exact ⟨fun occurs => occurs.2.2,fun found => ⟨rfl,whole,found⟩⟩

theorem occurs_second (occurs : Occurs c t) : ∃ s, t = utcAt s :=
  ⟨_,utc_whole occurs.1 occurs.2.1⟩

theorem zoned_day (day j hour minute second : Int) :
    zoned 0 (yearOf day) (monthOf day) (dayOf day + j) hour minute second =
      utcAt ((day + j) * 86400 + hour * 3600 + minute * 60 + second) := by
  simp only [zoned,date,utcAt,dayOf,Time.mk.injEq,and_true]
  ring

theorem zoned_same_day (day hour minute second : Int) :
    zoned 0 (yearOf day) (monthOf day) (dayOf day) hour minute second =
      utcAt (day * 86400 + hour * 3600 + minute * 60 + second) := by
  have shifted := zoned_day day 0 hour minute second
  rwa [Int.add_zero,Int.add_zero] at shifted

theorem firstOfNextMonth_utc (s : Int) : firstOfNextMonth (utcAt s) =
      utcAt (monthStart (yearOf (s / 86400)) (monthOf (s / 86400) + 1) * 86400) := by
  unfold firstOfNextMonth
  rw [utcAt_day]
  split
  · rename_i december
    have turn := monthStart_end (yearOf (s / 86400))
    rw [december,turn]
    simp only [zoned,date,utcAt,Time.mk.injEq,and_true,monthStart_first]
    ring
  · simp only [zoned,date,utcAt,Time.mk.injEq,and_true]
    ring

theorem nextDay_utc (s : Int) : nextDay (utcAt s) = utcAt ((s / 86400 + 1) * 86400) := by
  have shifted := zoned_day (s / 86400) 1 0 0 0
  unfold nextDay
  rw [utcAt_day]
  change zoned 0 _ _ _ 0 0 0 = _
  rw [shifted]
  congr 1
  ring

theorem truncate_utc (s unit : Int) :
    truncate (add (utcAt s) (unit * 1000000000)) (unit * 1000000000) = utcAt ((s / unit + 1) * unit) := by
  have part : (s * 1000000000 + unit * 1000000000) % (unit * 1000000000) = s % unit * 1000000000 := by
    rw [Int.add_emod_right,Int.mul_comm s,Int.mul_comm unit,Int.mul_emod_mul_of_pos _ _ (by omega),Int.mul_comm]
  simp only [truncate,add,utcAt,Time.mk.injEq,and_true,part]
  calc s * 1000000000 + unit * 1000000000 - s % unit * 1000000000
      = (s - s % unit + unit) * 1000000000 := by ring
    _ = (unit * (s / unit) + unit) * 1000000000 := by rw [Int.sub_eq_iff_eq_add.mpr (Int.mul_ediv_add_emod s unit).symm]
    _ = (s / unit + 1) * unit * 1000000000 := by ring

theorem nextBit_some (absent : has bits n = false) (search : nextBit bits (n+1) high = some found) :
    n < found ∧ found ≤ high ∧ ∀ j, n ≤ j → j < found → has bits j = false := by
  obtain ⟨_,member,first⟩ := List.find?_range'_eq_some.mp search
  obtain ⟨low,_⟩ := List.mem_range'_1.mp member
  refine ⟨low,by omega,?_⟩
  intro j after before
  rcases Nat.eq_or_lt_of_le after with rfl | later
  · exact absent
  · simpa using first j later before

theorem nextBit_none (absent : has bits n = false) (search : nextBit bits (n+1) high = none) :
    ∀ j, n ≤ j → j < high + 1 → has bits j = false := by
  intro j after before
  rcases Nat.eq_or_lt_of_le after with rfl | later
  · exact absent
  · simpa using List.find?_range'_eq_none.mp search j later (by omega)

def Skips (c : Cron) (s s' : Int) : Prop := s < s' ∧ ∀ k, s ≤ k → k < s' → fieldsMatch c (utcAt k) = false

section
variable {c : Cron} {s : Int}

theorem skips_month (absent : has c.months (monthOf (s / 86400)) = false) :
    Skips c s (monthStart (yearOf (s / 86400)) (monthOf (s / 86400) + 1) * 86400) := by
  obtain ⟨low,high,_,_⟩ := monthOf_bounds (s / 86400)
  refine ⟨by omega,?_⟩
  intro k after before
  have start : monthStart (yearOf (s / 86400)) (monthOf (s / 86400)) ≤ k / 86400 := by omega
  have stop : k / 86400 < monthStart (yearOf (s / 86400)) (monthOf (s / 86400) + 1) := by omega
  have same := (monthOf_exact low high start stop).2
  simp only [fieldsMatch,utcAt_day,same,absent,Bool.false_and]

theorem dayMatches_day (same : k / 86400 = s / 86400) : c.dayMatches (utcAt k) = c.dayMatches (utcAt s) := by
  simp only [Cron.dayMatches,utcAt_day,same]

theorem skips_day (absent : c.dayMatches (utcAt s) = false) : Skips c s ((s / 86400 + 1) * 86400) := by
  refine ⟨by omega,?_⟩
  intro k after before
  have same : k / 86400 = s / 86400 := by omega
  simp only [fieldsMatch,dayMatches_day same,absent,Bool.and_false,Bool.false_and]

theorem skips_hours {hour : Nat} (small : hour ≤ 24) (later : (s % 86400 / 3600).toNat < hour)
    (absent : ∀ j, (s % 86400 / 3600).toNat ≤ j → j < hour → has c.hours j = false) :
    Skips c s (s / 86400 * 86400 + hour * 3600) := by
  refine ⟨by omega,?_⟩
  intro k after before
  have missing := absent (k % 86400 / 3600).toNat (by omega) (by omega)
  simp only [fieldsMatch,utcAt_hour,missing,Bool.and_false,Bool.false_and]

theorem skips_minutes {minute : Nat} (small : minute ≤ 60) (later : (s % 3600 / 60).toNat < minute)
    (absent : ∀ j, (s % 3600 / 60).toNat ≤ j → j < minute → has c.minutes j = false) :
    Skips c s (s / 3600 * 3600 + minute * 60) := by
  refine ⟨by omega,?_⟩
  intro k after before
  have missing := absent (k % 3600 / 60).toNat (by omega) (by omega)
  simp only [fieldsMatch,utcAt_minute,missing,Bool.and_false,Bool.false_and]

theorem skips_seconds {second : Nat} (small : second ≤ 60) (later : (s % 60).toNat < second)
    (absent : ∀ j, (s % 60).toNat ≤ j → j < second → has c.seconds j = false) : Skips c s (s / 60 * 60 + second) := by
  refine ⟨by omega,?_⟩
  intro k after before
  have missing := absent (k % 60).toNat (by omega) (by omega)
  simp only [fieldsMatch,utcAt_second,missing,Bool.and_false]

theorem advance_skips (moved : c.advance (utcAt s) = some t) : ∃ s', t = utcAt s' ∧ Skips c s s' := by
  unfold Cron.advance at moved
  simp only [utcAt_day,utcAt_hour,utcAt_minute,utcAt_second] at moved
  split at moved
  · rename_i absent
    cases moved
    exact ⟨_,firstOfNextMonth_utc s,skips_month absent⟩
  split at moved
  · rename_i absent
    cases moved
    exact ⟨_,nextDay_utc s,skips_day absent⟩
  split at moved
  · rename_i absent
    cases found : nextBit c.hours ((s % 86400 / 3600).toNat + 1) 23 with
    | some =>
      rw [found] at moved
      cases moved
      obtain ⟨later,high,between⟩ := nextBit_some absent found
      refine ⟨_,zoned_same_day _ _ _ _,?_⟩
      simpa using skips_hours (by omega) later between
    | none =>
      rw [found] at moved
      cases moved
      have skipped := @skips_hours c s 24 (by omega) (by omega) (nextBit_none absent found)
      refine ⟨_,nextDay_utc s,?_⟩
      rwa [Int.add_mul]
  split at moved
  · rename_i absent
    cases found : nextBit c.minutes ((s % 3600 / 60).toNat + 1) 59 with
    | some minute =>
      rw [found] at moved
      cases moved
      obtain ⟨later,high,between⟩ := nextBit_some absent found
      refine ⟨_,zoned_same_day _ _ _ _,?_⟩
      have skipped := skips_minutes (by omega) later between
      have same : s / 86400 * 86400 + ((s % 86400 / 3600).toNat : Int) * 3600 + (minute : Int) * 60 + 0 =
          s / 3600 * 3600 + minute * 60 := by omega
      rwa [same]
    | none =>
      rw [found] at moved
      cases moved
      have skipped := @skips_minutes c s 60 (by omega) (by omega) (nextBit_none absent found)
      refine ⟨_,truncate_utc s 3600,?_⟩
      rwa [Int.add_mul]
  split at moved
  · rename_i absent
    cases found : nextBit c.seconds ((s % 60).toNat + 1) 59 with
    | some second =>
      rw [found] at moved
      cases moved
      obtain ⟨later,_,between⟩ := nextBit_some absent found
      refine ⟨_,zoned_same_day _ _ _ _,?_⟩
      have skipped := skips_seconds (by omega) later between
      have same : s / 86400 * 86400 + ((s % 86400 / 3600).toNat : Int) * 3600 +
          ((s % 3600 / 60).toNat : Int) * 60 + (second : Int) = s / 60 * 60 + second := by omega
      rwa [same]
    | none =>
      rw [found] at moved
      cases moved
      have skipped := @skips_seconds c s 60 (by omega) (by omega) (nextBit_none absent found)
      refine ⟨_,truncate_utc s 60,?_⟩
      rwa [Int.add_mul]
  · cases moved

theorem advance_match (stays : c.advance (utcAt s) = none) : fieldsMatch c (utcAt s) = true := by
  unfold Cron.advance at stays
  split at stays
  · cases stays
  split at stays
  · cases stays
  split at stays
  · split at stays <;> cases stays
  split at stays
  · split at stays <;> cases stays
  split at stays
  · split at stays <;> cases stays
  · rename_i month day hour minute second
    simp only [fieldsMatch,month,day,hour,minute,second,Bool.and_self]

-- The search returns the first match, or there is none up to the deadline; the
-- turns it is given last that long.
theorem search_exact (deadline : Int) (turns : Nat) (s : Int) (enough : deadline / 1000000000 - s < turns) :
    match c.search deadline turns (utcAt s) with
    | .ok t => ∃ s', t = utcAt s' ∧ s ≤ s' ∧ fieldsMatch c (utcAt s') = true ∧
        ∀ k, s ≤ k → k < s' → fieldsMatch c (utcAt k) = false
    | .error _ => ∀ k, s ≤ k → k ≤ deadline / 1000000000 → fieldsMatch c (utcAt k) = false := by
  induction turns generalizing s with
  | zero =>
    rw [Cron.search]
    intro k after before
    omega
  | succ turns ih =>
    rw [Cron.search]
    by_cases late : deadline < (utcAt s).instant
    · rw [if_pos late]
      intro k after before
      change deadline < s * 1000000000 at late
      omega
    rw [if_neg late]
    cases turn : c.advance (utcAt s) with
    | none => exact ⟨s,rfl,Int.le_refl s,advance_match turn,fun k after before => by omega⟩
    | some =>
      obtain ⟨middle,rfl,_,none_before⟩ := advance_skips turn
      have rest := ih middle (by omega)
      dsimp only
      cases found : c.search deadline turns (utcAt middle) with
      | ok =>
        rw [found] at rest
        obtain ⟨s',same,_,matched,between⟩ := rest
        refine ⟨s',same,by omega,matched,?_⟩
        intro k after before
        by_cases early : k < middle
        · exact none_before k after early
        · exact between k (by omega) before
      | error =>
        rw [found] at rest
        intro k after before
        by_cases early : k < middle
        · exact none_before k after early
        · exact rest k (by omega) before

theorem next_start (zone : after.offset = 0) :
    truncate (add after 1000000000) 1000000000 = utcAt (after.instant / 1000000000 + 1) := by
  obtain ⟨_,_⟩ := after
  subst zone
  simp only [truncate,add,utcAt,Time.mk.injEq,and_true]
  omega

theorem next_exact (zone : after.offset = 0) (ready : c.initialized = true) : match c.next after with
    | .ok t => ∃ s', t = utcAt s' ∧ after.instant / 1000000000 < s' ∧ fieldsMatch c (utcAt s') = true ∧
        ∀ k, after.instant / 1000000000 < k → k < s' → fieldsMatch c (utcAt k) = false
    | .error _ => ∀ k, after.instant / 1000000000 < k → k ≤ (addYears after 5).instant / 1000000000 →
        fieldsMatch c (utcAt k) = false := by
  have searched := @search_exact c (addYears after 5).instant
    ((((addYears after 5).instant - (utcAt (after.instant / 1000000000 + 1)).instant) / 1000000000).toNat + 2)
    (after.instant / 1000000000 + 1) (by simp only [utcAt]; omega)
  rw [Cron.next,if_neg (by simp [ready]),next_start zone]
  exact searched

end

theorem cron_follows (c : Cron) : Follows Time.instant c.next (fun t => t.offset = 0) (Occurs c) := by
  have found : ∀ a t, a.offset = 0 → c.next a = .ok t → ∃ s', t = utcAt s' ∧ a.instant / 1000000000 < s' ∧
      fieldsMatch c (utcAt s') = true ∧
        ∀ k, a.instant / 1000000000 < k → k < s' → fieldsMatch c (utcAt k) = false := by
    intro a t zone named
    cases ready : c.initialized with
    | false =>
      rw [Cron.next,if_pos ready] at named
      cases named
    | true =>
      have exactly := next_exact zone ready
      rwa [named] at exactly
  constructor
  · intro a t zone named
    obtain ⟨s',rfl,_⟩ := found a t zone named
    rfl
  · intro a t zone named
    obtain ⟨s',rfl,later,_⟩ := found a t zone named
    simp only [utcAt]
    omega
  · intro a t zone named
    obtain ⟨s',rfl,_,matched,_⟩ := found a t zone named
    exact occurs_utcAt.mpr matched
  · intro a t u zone named occurs later
    obtain ⟨s',rfl,_,_,between⟩ := found a t zone named
    obtain ⟨k,rfl⟩ := occurs_second occurs
    by_cases early : k < s'
    · have missed := between k (by simp only [utcAt] at later; omega) early
      rw [occurs_utcAt.mp occurs] at missed
      cases missed
    · simp only [utcAt]
      omega

theorem next_finds {c : Cron} {after u : Time} (zone : after.offset = 0) (ready : c.initialized = true)
    (occurs : Occurs c u) (later : after.instant < u.instant) (soon : u.instant ≤ (addYears after 5).instant) :
    ∃ t, c.next after = .ok t := by
  have exactly := next_exact zone ready
  cases named : c.next after with
  | ok t => exact ⟨t,rfl⟩
  | error =>
    rw [named] at exactly
    obtain ⟨k,rfl⟩ := occurs_second occurs
    simp only [utcAt] at later soon
    have missed := exactly k (by omega) (by omega)
    rw [occurs_utcAt.mp occurs] at missed
    cases missed

-- What "0 * * * *" is parsed to.
def hourly : Cron := ⟨ascii "0 * * * *",1,1,16777215,4294967294,8190,127,true,true⟩

end Kronos.CronNext
