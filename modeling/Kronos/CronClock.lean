import Kronos.CronDays

namespace Kronos.CronClock
open Effect ByteRange Utf8 Calendar Rfc3339 CronExpression CronNext CronDays

theorem foldSunday_some (some_day : dow ≠ 0) : foldSunday dow ≠ 0 := by
  cases sunday : dow.testBit 7 with
  | false =>
    unfold foldSunday
    rw [if_neg (by rw [sunday]; decide)]
    exact some_day
  | true =>
    intro empty
    have first := (foldSunday_testBit dow 0 (by decide)).mpr (Or.inr ⟨rfl,sunday⟩)
    rw [empty,Nat.zero_testBit] at first
    cases first

-- A set of numbers of a field: not empty, and between its bounds.
structure Within (low high : Int) (bits : Nat) : Prop where
  some : bits ≠ 0
  inside : ∀ n : Nat, has bits n = true → low ≤ n ∧ (n : Int) ≤ high

structure InBounds (c : Cron) : Prop where
  seconds : Within 0 59 c.seconds
  minutes : Within 0 59 c.minutes
  hours : Within 0 23 c.hours
  dom : Within 1 31 c.dom
  months : Within 1 12 c.months
  dow : Within 0 6 c.dow

theorem parseField_within (nonneg : 0 ≤ low) (room : low ≤ high) (short : high < 64)
    (parsed : parseField field low high names = .ok bits) : Within low high bits := by
  refine ⟨parseField_some nonneg room short parsed,?_⟩
  intro n there
  obtain ⟨_,_,_,_,_,_,_,range,_,_,_⟩ := (parseField_exact nonneg room short parsed n).mp there
  have bounds := parseRange_bounds room range
  omega

theorem foldSunday_within (within : Within 0 7 dow) : Within 0 6 (foldSunday dow) := by
  refine ⟨foldSunday_some within.some,?_⟩
  intro n there
  refine ⟨by omega,?_⟩
  by_contra high
  have above : 7 ≤ n := by omega
  unfold has foldSunday at there
  split at there
  · rename_i sunday
    rw [Nat.testBit_xor,Nat.testBit_or,Nat.testBit_two_pow] at there
    rcases Nat.eq_or_lt_of_le above with rfl | past
    · simp [sunday] at there
    · have one : Nat.testBit 1 n = false := by
        rw [Bool.eq_false_iff,ne_eq,Nat.testBit_one_eq_true_iff_self_eq_zero]
        omega
      have none : dow.testBit n = false := by
        rw [Bool.eq_false_iff]
        intro set
        have last := (within.inside n set).2
        omega
      simp [one,none,Nat.ne_of_lt past] at there
  · rename_i weekdays
    have last := (within.inside n there).2
    have seven : n = 7 := by omega
    exact weekdays (seven ▸ there)

theorem parseFields_inBounds (parsed : parseFields expr texts = .ok c) : InBounds c := by
  unfold parseFields at parsed
  split at parsed
  · simp only [bind_ok_iff] at parsed
    obtain ⟨_,second,_,minute,_,hour,_,day,_,month,_,weekday,returned⟩ := parsed
    cases returned
    exact ⟨parseField_within (by decide) (by decide) (by decide) (mapError_ok second),
      parseField_within (by decide) (by decide) (by decide) (mapError_ok minute),
      parseField_within (by decide) (by decide) (by decide) (mapError_ok hour),
      parseField_within (by decide) (by decide) (by decide) (mapError_ok day),
      parseField_within (by decide) (by decide) (by decide) (mapError_ok month),
      foldSunday_within (parseField_within (by decide) (by decide) (by decide) (mapError_ok weekday))⟩
  · cases parsed

theorem parseCron_inBounds (parsed : parseCron text = .ok c) : InBounds c := by
  unfold parseCron at parsed
  dsimp only at parsed
  split at parsed
  · cases parsed
  split at parsed <;> exact parseFields_inBounds parsed

theorem parseCron_initialized (parsed : parseCron text = .ok c) : c.initialized = true := by
  have bounds := parseCron_inBounds parsed
  simp [Cron.initialized,bounds.seconds.some,bounds.minutes.some,bounds.hours.some,bounds.dom.some,bounds.months.some,
    bounds.dow.some]

-- The time in UTC that a clock in the zone shows.
def reading (t : Time) : Time := ⟨t.localNanos,0⟩

@[simp] theorem reading_localNanos (t : Time) : (reading t).localNanos = t.localNanos := by
  simp [Time.localNanos,reading]

@[simp] theorem reading_day (t : Time) : (reading t).day = t.day := by simp [Time.day,Time.localSeconds]

@[simp] theorem reading_hour (t : Time) : (reading t).hour = t.hour := by simp [Time.hour,Time.localSeconds]

@[simp] theorem reading_minute (t : Time) : (reading t).minute = t.minute := by simp [Time.minute,Time.localSeconds]

@[simp] theorem reading_second (t : Time) : (reading t).second = t.second := by simp [Time.second,Time.localSeconds]

@[simp] theorem reading_nanosecond (t : Time) : (reading t).nanosecond = t.nanosecond := by simp [Time.nanosecond]

theorem zoned_reading (offset year : Int) (month : Nat) (day hour minute second : Int) :
    reading (zoned offset year month day hour minute second) = zoned 0 year month day hour minute second := by
  simp only [reading,zoned,Time.localNanos,Time.mk.injEq,and_true]
  omega

theorem truncate_reading (whole : unit ∣ t.offset * 1000000000) (nanos : Int) :
    reading (truncate (add t nanos) unit) = truncate (add (reading t) nanos) unit := by
  obtain ⟨k,split⟩ := whole
  simp only [reading,truncate,add,Time.localNanos,split,Time.mk.injEq,and_true]
  have same : (t.instant + unit * k + nanos) % unit = (t.instant + nanos) % unit := by
    rw [Int.add_right_comm,Int.add_mul_emod_self_left]
  rw [same]
  ring

theorem addYears_reading (t : Time) (years : Int) :
    (addYears (reading t) years).instant = (addYears t years).instant + t.offset * 1000000000 := by
  have zone : (reading t).offset = 0 := rfl
  simp only [addYears,reading_day,reading_hour,reading_minute,reading_second,reading_nanosecond,add,zoned,zone]
  omega

section
variable {c : Cron} {t : Time}

theorem advance_offset (moved : c.advance t = some t') : t'.offset = t.offset := by
  unfold Cron.advance firstOfNextMonth at moved
  split at moved
  · split at moved <;> cases moved <;> rfl
  split at moved
  · cases moved; rfl
  split at moved
  · split at moved <;> cases moved <;> rfl
  split at moved
  · split at moved <;> cases moved <;> rfl
  split at moved
  · split at moved <;> cases moved <;> rfl
  · cases moved

-- A turn looks at the clock of the zone alone, except where it goes to the next
-- full hour or minute of UTC.
theorem advance_cases (c : Cron) (t : Time) : c.advance (reading t) = (c.advance t).map reading ∨
    ∃ unit, (unit = 3600000000000 ∨ unit = 60000000000) ∧ c.advance t = some (truncate (add t unit) unit) ∧
      c.advance (reading t) = some (truncate (add (reading t) unit) unit) := by
  have zone : (reading t).offset = 0 := rfl
  have day : nextDay (reading t) = reading (nextDay t) := by
    unfold nextDay
    rw [zoned_reading,reading_day,zone]
  have month : firstOfNextMonth (reading t) = reading (firstOfNextMonth t) := by
    unfold firstOfNextMonth
    rw [reading_day,zone]
    split
    · rw [zoned_reading]
    · rw [zoned_reading]
  have days : c.dayMatches (reading t) = c.dayMatches t := by simp only [Cron.dayMatches,reading_day]
  unfold Cron.advance
  simp only [reading_day,reading_hour,reading_minute,reading_second,day,days,month,zone]
  split
  · exact Or.inl rfl
  split
  · exact Or.inl rfl
  split
  · split
    · exact Or.inl (by rw [Option.map_some,zoned_reading])
    · exact Or.inl rfl
  split
  · split
    · exact Or.inl (by rw [Option.map_some,zoned_reading])
    · exact Or.inr ⟨_,Or.inl rfl,rfl,rfl⟩
  split
  · split
    · exact Or.inl (by rw [Option.map_some,zoned_reading])
    · exact Or.inr ⟨_,Or.inr rfl,rfl,rfl⟩
  · exact Or.inl rfl

theorem advance_reading (hours : 3600 ∣ t.offset) : c.advance (reading t) = (c.advance t).map reading := by
  rcases advance_cases c t with same | ⟨unit,size,here,there⟩
  · exact same
  · have whole : unit ∣ t.offset * 1000000000 := by
      rcases size with rfl | rfl <;> omega
    rw [here,there,Option.map_some,truncate_reading whole]

theorem advance_later (whole : t.instant % 1000000000 = 0) (moved : c.advance t = some t') :
    t.instant + 1000000000 ≤ t'.instant ∧ t'.instant % 1000000000 = 0 := by
  rcases advance_cases c t with same | ⟨unit,size,here,_⟩
  · have zone := advance_offset moved
    have shown : (reading t).nanosecond = 0 := by
      rw [reading_nanosecond]
      simp only [Time.nanosecond,Time.localNanos]
      omega
    rw [moved,Option.map_some,utc_whole rfl shown] at same
    obtain ⟨s',there,later,_⟩ := advance_skips same
    have instant : t'.localNanos = s' * 1000000000 := congrArg Time.instant there
    simp only [reading,Time.localNanos,zone] at instant later
    omega
  · obtain rfl := Option.some.inj (here.symm.trans moved)
    simp only [truncate,add]
    rcases size with rfl | rfl <;> omega

-- In every zone the search ends: it finds a time, or the deadline passes.
theorem search_finishes (deadline : Int) (turns : Nat) (whole : t.instant % 1000000000 = 0)
    (enough : deadline / 1000000000 - t.instant / 1000000000 < turns) :
    c.search deadline (turns + 1) t ≠ .error .endless := by
  induction turns generalizing t with
  | zero =>
    rw [Cron.search,if_pos (by omega)]
    intro same
    cases same
  | succ turns ih =>
    rw [Cron.search]
    split
    · intro same
      cases same
    · cases moved : c.advance t with
      | none =>
        intro same
        cases same
      | some t' =>
        obtain ⟨later,still⟩ := advance_later whole moved
        exact ih still (by omega)

theorem next_finishes (c : Cron) (after : Time) : c.next after ≠ .error .endless := by
  unfold Cron.next
  split
  · intro same
    cases same
  · dsimp only
    apply search_finishes
    · simp only [truncate,add]
      omega
    · simp only [truncate,add]
      omega

theorem search_error (failed : c.search deadline turns t = .error e) : e = .noMatch ∨ e = .endless := by
  induction turns generalizing t with
  | zero => exact Or.inr (Except.error.inj failed).symm
  | succ _ ih =>
    rw [Cron.search] at failed
    split at failed
    · exact Or.inl (Except.error.inj failed).symm
    · split at failed
      · exact ih failed
      · cases failed

theorem next_error (ready : c.initialized = true) (failed : c.next t = .error e) : e = .noMatch := by
  have finishes := next_finishes c t
  rw [failed] at finishes
  rw [Cron.next,if_neg (by simp [ready])] at failed
  rcases search_error failed with none_found | endless
  · exact none_found
  · exact absurd (congrArg _ endless) finishes

theorem search_reading (hours : 3600 ∣ t.offset) (deadline : Int) (turns : Nat) :
    c.search (deadline + t.offset * 1000000000) turns (reading t) = (c.search deadline turns t).map reading := by
  induction turns generalizing t with
  | zero => rfl
  | succ _ ih =>
    have same : deadline + t.offset * 1000000000 < (reading t).instant ↔ deadline < t.instant := by
      simp only [reading,Time.localNanos]
      omega
    rw [Cron.search,Cron.search,advance_reading hours]
    simp only [same]
    split
    · rfl
    · cases turn : c.advance t with
      | none => rfl
      | some t' =>
        have zone := advance_offset turn
        have rest := ih (t := t') (zone ▸ hours)
        rw [zone] at rest
        exact rest

theorem next_reading (hours : 3600 ∣ t.offset) : c.next (reading t) = (c.next t).map reading := by
  have bySecond : (1000000000 : Int) ∣ t.offset * 1000000000 := Int.dvd_mul_left _ _
  have deadline := addYears_reading t 5
  unfold Cron.next
  split
  · rfl
  · dsimp only
    rw [← truncate_reading bySecond,deadline]
    have start := search_reading (c := c) (t := truncate (add t 1000000000) 1000000000) hours (addYears t 5).instant
    have length : (addYears t 5).instant + t.offset * 1000000000 -
        (reading (truncate (add t 1000000000) 1000000000)).instant =
          (addYears t 5).instant - (truncate (add t 1000000000) 1000000000).instant := by
      simp only [reading,truncate,add,Time.localNanos]
      omega
    rw [length]
    exact start _

end

-- The full hour that @hourly names after half past ten.
theorem hourly_sample : parseCron (ascii "@hourly") = .ok hourly ∧
    hourly.next ⟨63839615399000000000,0⟩ = .ok ⟨63839617200000000000,0⟩ := by decide +kernel

theorem hourly_fields (t : Time) : has hourly.months (monthOf t.day) = true ∧ hourly.dayMatches t = true ∧
    has hourly.hours t.hour = true := by
  obtain ⟨low,high,_,_⟩ := monthOf_bounds t.day
  have months : ∀ m ≤ 12, 1 ≤ m → has hourly.months m = true := by decide
  have hours : ∀ h < 24, has hourly.hours h = true := by decide
  refine ⟨months _ high low,rfl,hours _ ?_⟩
  unfold Time.hour
  omega

-- Past the minute, the search goes to the next full hour of UTC; where the zone
-- shows no full hour then, it goes there again and again.
theorem hourly_turn (minutes : 60 ∣ t.offset) (part : ¬3600 ∣ t.offset) (whole : t.instant % 3600000000000 = 0) :
    hourly.advance t = some (add t 3600000000000) := by
  obtain ⟨month,day,hour⟩ := hourly_fields t
  have others : ∀ m < 60, m ≠ 0 → has hourly.minutes m = false ∧ nextBit hourly.minutes (m+1) 59 = none := by decide
  have shown : t.minute < 60 ∧ t.minute ≠ 0 := by
    simp only [Time.minute,Time.localSeconds,Time.localNanos]
    omega
  obtain ⟨missing,last⟩ := others _ shown.1 shown.2
  simp only [Cron.advance,month,day,hour,missing,last,Bool.true_eq_false,if_false,if_true,truncate,add]
  congr 2
  omega

theorem hourly_misses {t : Time} (minutes : 60 ∣ t.offset) (part : ¬3600 ∣ t.offset)
    (whole : t.instant % 3600000000000 = 0) (deadline : Int) (turns : Nat) (u : Time) :
    hourly.search deadline turns t ≠ .ok u := by
  induction turns generalizing t with
  | zero =>
    intro found
    cases found
  | succ _ ih =>
    rw [Cron.search,hourly_turn minutes part whole]
    split
    · intro found
      cases found
    · exact ih minutes part (by simp only [add]; omega)

theorem hourly_next_misses {t : Time} (minutes : 60 ∣ t.offset) (part : ¬3600 ∣ t.offset)
    (whole : (t.instant + 1000000000) % 3600000000000 = 0) : hourly.next t = .error .noMatch := by
  have start := hourly_misses (t := truncate (add t 1000000000) 1000000000) minutes part
    (by simp only [truncate,add]; omega)
  cases named : hourly.next t with
  | error => rw [next_error (by decide) named]
  | ok u =>
    rw [Cron.next,if_neg (by decide)] at named
    exact absurd named (start _ _ u)

theorem hourly_occurs (j : Int) : Occurs hourly (utcAt (j * 3600)) := by
  obtain ⟨month,day,hour⟩ := hourly_fields (utcAt (j * 3600))
  have minute : (j * 3600 % 3600 / 60).toNat = 0 := by omega
  have second : (j * 3600 % 60).toNat = 0 := by omega
  apply occurs_utcAt.mpr
  simp only [fieldsMatch,month,day,hour,utcAt_minute,utcAt_second,minute,second]
  decide

theorem addYears_later {t : Time} (zone : t.offset = 0) : t.instant + 86400000000000 ≤ (addYears t 5).instant := by
  obtain ⟨low,high,_,_⟩ := monthOf_bounds t.day
  have before := monthStart_mono (yearOf t.day) low (Nat.le_succ_of_le high) (Nat.le_refl 13)
  have after := monthStart_mono (yearOf t.day + 5) (Nat.le_refl 1) low (Nat.le_succ_of_le high)
  rw [monthStart_end] at before
  rw [monthStart_first] at after
  have later := yearStart_mono (show yearOf t.day + 1 + 1 ≤ yearOf t.day + 5 by omega)
  have year := yearStart_next (yearOf t.day + 1)
  have leap := leapDay_bounds (yearOf t.day + 1)
  have date : t.day = monthStart (yearOf t.day) (monthOf t.day) + (dayOf t.day - 1) := by
    unfold dayOf
    omega
  simp only [addYears,add,zoned,Rfc3339.date,zone]
  have clock : t.instant = (t.day * 86400 + t.hour * 3600 + t.minute * 60 + t.second) * 1000000000 + t.nanosecond := by
    simp only [Time.day,Time.hour,Time.minute,Time.second,Time.nanosecond,Time.localSeconds,Time.localNanos,zone]
    omega
  omega

theorem wall_clock_iff_whole_hours {offset : Int} (minutes : 60 ∣ offset) :
    (∀ text c, parseCron text = .ok c → ∀ t : Time, t.offset = offset →
      (c.next t).map Time.localNanos = (c.next (reading t)).map Time.localNanos) ↔ 3600 ∣ offset := by
  constructor
  · intro follows
    by_contra part
    have same := follows _ _ hourly_sample.1 ⟨3599000000000,offset⟩ rfl
    have missed := hourly_next_misses (t := ⟨3599000000000,offset⟩) minutes part rfl
    obtain ⟨t,found⟩ := @next_finds hourly (reading ⟨3599000000000,offset⟩) _ rfl
      (parseCron_initialized hourly_sample.1)
      (hourly_occurs ((reading ⟨3599000000000,offset⟩).instant / 3600000000000 + 1))
      (by simp only [utcAt]; omega)
      (by
        have late := addYears_later (t := reading ⟨3599000000000,offset⟩) rfl
        simp only [utcAt]
        omega)
    rw [missed,found] at same
    cases same
  · rintro hours _ c _ t rfl
    rw [next_reading hours]
    cases c.next t with
    | error => rfl
    | ok => simp only [Except.map,reading_localNanos]

theorem wall_clock_in_whole_hours : (hourly.next ⟨63839595599000000000,7200⟩).map Time.localNanos =
    (hourly.next ⟨63839602799000000000,0⟩).map Time.localNanos :=
  (wall_clock_iff_whole_hours (by decide)).mpr (by decide : (3600 : Int) ∣ 7200) _ _ hourly_sample.1 _ rfl

-- A second before 05:00 in UTC a clock at +05:30 shows 10:29:59: the full hour
-- that comes next is never found.
theorem half_hour_zone_never_matches : parseCron (ascii "@hourly") = .ok hourly ∧
    hourly.next ⟨63839595599000000000,19800⟩ = .error .noMatch ∧
      reading ⟨63839595599000000000,19800⟩ = ⟨63839615399000000000,0⟩ ∧
        hourly.next ⟨63839615399000000000,0⟩ = .ok ⟨63839617200000000000,0⟩ :=
  ⟨hourly_sample.1,hourly_next_misses (by decide) (by decide) rfl,rfl,hourly_sample.2⟩

end Kronos.CronClock
