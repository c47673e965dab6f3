import Kronos.CronNext

namespace Kronos.CronDays
open Effect ByteRange Utf8 Strings Calendar Rfc3339 CronExpression

-- What a field lists: the numbers of each part's range, a step apart.
def Listed (low high : Int) (names : List (Bytes × Int)) (field : Bytes) (n : Int) : Prop :=
  ∃ text ∈ field.splitOn 44, ∃ base step start stop,
    splitStep (trimSpace text) = .ok (base,step) ∧ parseRange base low high names = .ok (start,stop) ∧
      start ≤ n ∧ n ≤ stop ∧ step ∣ n - start

def HasWildcard (field : Bytes) : Prop :=
  ∃ text ∈ field.splitOn 44, ∃ base step, splitStep (trimSpace text) = .ok (base,step) ∧ anyText base = true

theorem splitStep_bounds (split : splitStep part = .ok (base,step)) : 0 < step ∧ step < 2^63 := by
  unfold splitStep at split
  split at split
  · cases split
    decide
  · split at split
    · rename_i text _ step' parsed
      split at split
      · cases split
      · cases split
        obtain ⟨value,_,_⟩ := Option.map_eq_some_iff.mp parsed
        have small := value.toInt_lt
        omega
    · cases split
  · cases split

theorem parseRange_bounds (room : low ≤ high) (parsed : parseRange part low high names = .ok (start,stop)) :
    low ≤ start ∧ start ≤ stop ∧ stop ≤ high := by
  unfold parseRange at parsed
  split at parsed
  · cases parsed
    omega
  · split at parsed
    · simp only [bind_ok_iff] at parsed
      obtain ⟨_,_,checked⟩ := parsed
      split at checked
      · cases checked
      · cases checked
        omega
    · simp only [bind_ok_iff] at parsed
      obtain ⟨_,_,_,_,checked⟩ := parsed
      split at checked
      · cases checked
      · cases checked
        omega
    · cases parsed

theorem wrapped_small (nonneg : 0 ≤ n) (small : n < 2^63) : wrapped n = n := by
  unfold wrapped
  omega

theorem wrapped_negative (large : 2^63 ≤ n) (bound : n < 2^64) : wrapped n < 0 := by
  unfold wrapped
  omega

theorem rangeBits_wrapped (wraps : 2^63 ≤ n) (bound : n < 2^64) (reached : 0 ≤ stop) (left : 0 < fuel) :
    rangeBits stop step fuel (wrapped n) = .error .negativeShift := by
  have negative := wrapped_negative wraps bound
  obtain ⟨more,rfl⟩ : ∃ more, fuel = more + 1 := ⟨fuel - 1,by omega⟩
  rw [rangeBits,if_neg (by omega),if_pos negative]

-- The bits of a range are its numbers, a step apart, as long as the counter
-- does not wrap; when it wraps there is no result.
theorem rangeBits_exact (positive : 0 < step) (large : step < 2^63) (short : stop < 64) (fuel : Nat) (i : Int)
    (nonneg : 0 ≤ i) (enough : stop - i + 1 < fuel) (ran : rangeBits stop step fuel i = .ok bits) (n : Nat) :
    bits.testBit n = true ↔ i ≤ n ∧ (n : Int) ≤ stop ∧ step ∣ n - i := by
  induction fuel generalizing i bits with
  | zero =>
    cases ran
    simp only [Nat.zero_testBit,Bool.false_eq_true,false_iff]
    omega
  | succ fuel ih =>
    rw [rangeBits] at ran
    by_cases past : stop < i
    · rw [if_pos past] at ran
      cases ran
      simp only [Nat.zero_testBit,Bool.false_eq_true,false_iff]
      omega
    rw [if_neg past,if_neg (by omega)] at ran
    obtain ⟨rest,later,same⟩ := bind_ok_iff.mp ran
    cases same
    by_cases wraps : 2^63 ≤ i + step
    · rw [rangeBits_wrapped wraps (by omega) (by omega) (by omega)] at later
      cases later
    rw [wrapped_small (by omega) (by omega)] at later
    rw [Nat.testBit_or,Bool.or_eq_true,ih (i + step) (by omega) (by omega) later,Nat.testBit_two_pow,decide_eq_true_iff]
    constructor
    · intro found
      rcases found with here | ⟨_,before,k,_⟩
      · have same : (n : Int) - i = 0 := by omega
        exact ⟨by omega,by omega,same ▸ Int.dvd_zero step⟩
      · refine ⟨by omega,before,k + 1,?_⟩
        rw [Int.mul_add,Int.mul_one]
        omega
    · rintro ⟨_,before,divides⟩
      by_cases here : i.toNat = n
      · exact Or.inl here
      · have apart : 0 < (n : Int) - i := by omega
        have reach := Int.le_of_dvd apart divides
        have rest : step ∣ (n : Int) - i - step := Int.dvd_sub divides (Int.dvd_refl step)
        refine Or.inr ⟨by omega,before,?_⟩
        have same : (n : Int) - (i + step) = n - i - step := by omega
        exact same ▸ rest

section
variable {low high : Int} {names : List (Bytes × Int)}

theorem parsePart_read (parsed : parsePart low high names text = .ok bits) : ∃ base step start stop,
    splitStep (trimSpace text) = .ok (base,step) ∧ parseRange base low high names = .ok (start,stop) ∧
      rangeBits stop step ((stop - start).toNat + 2) start = .ok bits := by
  obtain ⟨_,parsed⟩ := guard_ok_iff.mp parsed
  simp only [bind_ok_iff,Prod.exists] at parsed
  obtain ⟨base,step,split,start,stop,range,ran⟩ := parsed
  exact ⟨base,step,start,stop,split,range,ran⟩

theorem parsePart_exact (nonneg : 0 ≤ low) (room : low ≤ high) (short : high < 64)
    (parsed : parsePart low high names text = .ok bits) (n : Nat) :
    bits.testBit n = true ↔ ∃ base step start stop, splitStep (trimSpace text) = .ok (base,step) ∧
      parseRange base low high names = .ok (start,stop) ∧ start ≤ n ∧ (n : Int) ≤ stop ∧ step ∣ n - start := by
  obtain ⟨base,step,start,stop,split,range,ran⟩ := parsePart_read parsed
  obtain ⟨positive,large⟩ := splitStep_bounds split
  obtain ⟨_,_,_⟩ := parseRange_bounds room range
  rw [rangeBits_exact positive large (by omega) _ start (by omega) (by omega) ran n]
  constructor
  · intro found
    exact ⟨base,step,start,stop,split,range,found⟩
  · rintro ⟨_,_,_,_,split',range',found⟩
    rw [split] at split'
    cases split'
    rw [range] at range'
    cases range'
    exact found

theorem foldParts_exact (nonneg : 0 ≤ low) (room : low ≤ high) (short : high < 64) (n : Nat) (texts : List Bytes)
    (start : Nat)
    (parsed : texts.foldlM (fun bits text => (parsePart low high names text).map (bits ||| ·)) start = .ok bits) :
    bits.testBit n = true ↔ start.testBit n = true ∨ ∃ text ∈ texts, ∃ base step first last,
      splitStep (trimSpace text) = .ok (base,step) ∧ parseRange base low high names = .ok (first,last) ∧
        first ≤ (n : Int) ∧ (n : Int) ≤ last ∧ step ∣ n - first := by
  induction texts generalizing start with
  | nil =>
    cases parsed
    simp
  | cons text _ ih =>
    rw [List.foldlM_cons] at parsed
    obtain ⟨_,mapped,parsed⟩ := bind_ok_iff.mp parsed
    obtain ⟨_,part,rfl⟩ := map_ok_iff.mp mapped
    rw [ih _ parsed,Nat.testBit_or,Bool.or_eq_true,parsePart_exact nonneg room short part,or_assoc]
    simp only [List.mem_cons,exists_eq_or_imp]

theorem parseField_exact (nonneg : 0 ≤ low) (room : low ≤ high) (short : high < 64) {field : Bytes} {bits : Nat}
    (parsed : parseField field low high names = .ok bits) (n : Nat) :
    bits.testBit n = true ↔ Listed low high names field n := by
  rw [foldParts_exact nonneg room short n _ _ parsed,Nat.zero_testBit]
  simp only [Bool.false_eq_true,false_or,Listed]

theorem foldParts_read {texts : List Bytes}
    (parsed : texts.foldlM (fun bits text => (parsePart low high names text).map (bits ||| ·)) start = .ok bits) :
    ∀ text ∈ texts, ∃ base step first last, splitStep (trimSpace text) = .ok (base,step) ∧
      parseRange base low high names = .ok (first,last) := by
  induction texts generalizing start with
  | nil => nofun
  | cons _ _ ih =>
    obtain ⟨_,mapped,parsed⟩ := bind_ok_iff.mp parsed
    obtain ⟨_,part,_⟩ := map_ok_iff.mp mapped
    obtain ⟨base,step,first,last,split,range,_⟩ := parsePart_read part
    exact List.forall_mem_cons.mpr ⟨⟨base,step,first,last,split,range⟩,ih parsed⟩

theorem parseField_some (nonneg : 0 ≤ low) (room : low ≤ high) (short : high < 64) {field : Bytes} {bits : Nat}
    (parsed : parseField field low high names = .ok bits) : bits ≠ 0 := by
  obtain ⟨text,listed⟩ := List.exists_mem_of_ne_nil _ (List.splitOn_ne_nil 44 field)
  obtain ⟨base,step,first,last,split,range⟩ := foldParts_read parsed text listed
  obtain ⟨above,order,_⟩ := parseRange_bounds room range
  obtain ⟨n,rfl⟩ := Int.eq_ofNat_of_zero_le (Int.le_trans nonneg above)
  have there := (parseField_exact nonneg room short parsed n).mpr
    ⟨text,listed,base,step,n,last,split,range,Int.le_refl _,order,by simp⟩
  rintro rfl
  rw [Nat.zero_testBit] at there
  cases there

theorem isAny_exact {field : Bytes} (parsed : parseField field low high names = .ok bits) :
    isAny field = true ↔ HasWildcard field := by
  have split := foldParts_read parsed
  unfold isAny HasWildcard
  revert split
  induction field.splitOn 44 with
  | nil => simp [isAny.go]
  | cons text _ ih =>
    intro split
    obtain ⟨base,step,_,_,found,_⟩ := split text List.mem_cons_self
    have others := ih (fun one member => split one (List.mem_cons_of_mem _ member))
    simp only [isAny.go,found,Bool.or_eq_true,others,List.mem_cons,exists_eq_or_imp]
    refine or_congr ?_ Iff.rfl
    constructor
    · intro any
      exact ⟨base,step,rfl,any⟩
    · rintro ⟨_,_,same,any⟩
      cases same
      exact any

end

def words (text : Bytes) : List Bytes := fields (expandAlias (trimSpace text))

def dayField (text : Bytes) : Bytes := (words text).getD ((words text).length - 3) []

def weekdayField (text : Bytes) : Bytes := (words text).getD ((words text).length - 1) []

def ListedDay (text : Bytes) (day : Int) : Prop := Listed 1 31 [] (dayField text) day

-- Zero and seven are both Sunday.
def ListedWeekday (text : Bytes) (weekday : Int) : Prop :=
  Listed 0 7 dayNames (weekdayField text) weekday ∨ weekday = 0 ∧ Listed 0 7 dayNames (weekdayField text) 7

structure Parsed (text : Bytes) (c : Cron) : Prop where
  dom : parseField (dayField text) 1 31 [] = .ok c.dom
  dow : ∃ bits, parseField (weekdayField text) 0 7 dayNames = .ok bits ∧ c.dow = foldSunday bits
  domAny : c.domAny = isAny (dayField text)
  dowAny : c.dowAny = isAny (weekdayField text)

theorem parseFields_exact (parsed : parseFields expr texts = .ok c) :
    ∃ second minute hour day month weekday, texts = [second,minute,hour,day,month,weekday] ∧
      parseField day 1 31 [] = .ok c.dom ∧
      (∃ bits, parseField weekday 0 7 dayNames = .ok bits ∧ c.dow = foldSunday bits) ∧
      c.domAny = isAny day ∧ c.dowAny = isAny weekday := by
  unfold parseFields at parsed
  split at parsed
  · rename_i second minute hour day month weekday
    simp only [bind_ok_iff] at parsed
    obtain ⟨_,_,_,_,_,_,_,parsedDom,_,_,dow,parsedDow,returned⟩ := parsed
    cases returned
    exact ⟨second,minute,hour,day,month,weekday,rfl,mapError_ok parsedDom,⟨dow,mapError_ok parsedDow,rfl⟩,rfl,rfl⟩
  · cases parsed

theorem parseCron_parsed (accepted : parseCron text = .ok c) : Parsed text c := by
  unfold parseCron at accepted
  dsimp only at accepted
  split at accepted
  · cases accepted
  change (if (words text).length = 5 then parseFields _ (ascii "0" :: words text) else
    parseFields _ (words text)) = .ok c at accepted
  split at accepted
  · obtain ⟨_,_,_,_,_,_,same,_,_,_,_⟩ := parseFields_exact accepted
    obtain ⟨_,same⟩ := List.cons.inj same
    constructor <;> simp only [dayField,weekdayField,same] <;> assumption
  · obtain ⟨_,_,_,_,_,_,same,_,_,_,_⟩ := parseFields_exact accepted
    constructor <;> simp only [dayField,weekdayField,same] <;> assumption

theorem foldSunday_testBit (dow n : Nat) (small : n < 7) :
    (foldSunday dow).testBit n = true ↔ dow.testBit n = true ∨ n = 0 ∧ dow.testBit 7 = true := by
  unfold foldSunday
  cases sunday : dow.testBit 7 with
  | false => simp
  | true =>
    have other : (2^7).testBit n = false := Nat.testBit_two_pow_of_ne (by omega)
    simp only [if_true,Nat.testBit_xor,Nat.testBit_or,other,Bool.xor_false,Bool.or_eq_true,and_true]
    refine or_congr Iff.rfl ?_
    rw [Nat.testBit_one_eq_true_iff_self_eq_zero]

section
variable {text : Bytes} {c : Cron}

theorem dom_exact (parsed : Parsed text c) (day : Nat) : has c.dom day = true ↔ ListedDay text day :=
  parseField_exact (by decide) (by decide) (by decide) parsed.dom day

theorem dow_exact (parsed : Parsed text c) (weekday : Nat) (small : weekday < 7) :
    has c.dow weekday = true ↔ ListedWeekday text weekday := by
  obtain ⟨bits,listed,same⟩ := parsed.dow
  have exactly := @parseField_exact 0 7 dayNames (by decide) (by decide) (by decide) _ _ listed
  rw [has,same,foldSunday_testBit bits weekday small,exactly,exactly,ListedWeekday]
  simp only [Int.natCast_eq_zero]
  rfl

theorem domAny_exact (parsed : Parsed text c) : c.domAny = true ↔ HasWildcard (dayField text) := by
  rw [parsed.domAny,isAny_exact parsed.dom]

theorem dowAny_exact (parsed : Parsed text c) : c.dowAny = true ↔ HasWildcard (weekdayField text) := by
  obtain ⟨_,listed,_⟩ := parsed.dow
  rw [parsed.dowAny,isAny_exact listed]

theorem advance_day (stays : c.advance t = none) : c.dayMatches t = true := by
  unfold Cron.advance at stays
  split at stays
  · cases stays
  split at stays
  · cases stays
  · rename_i day
    exact Bool.eq_true_of_not_eq_false day

theorem search_stays (found : c.search deadline turns start = .ok t) : c.advance t = none := by
  induction turns generalizing start with
  | zero => cases found
  | succ turns ih =>
    rw [Cron.search] at found
    split at found
    · cases found
    · split at found
      · exact ih found
      · rename_i stays
        cases found
        exact stays

theorem next_day (found : c.next after = .ok t) : c.dayMatches t = true := by
  unfold Cron.next at found
  split at found
  · cases found
  · exact advance_day (search_stays found)

theorem weekdayOf_small (day : Int) : weekdayOf day < 7 := by
  unfold weekdayOf
  omega

theorem dayOf_small (day : Int) : 1 ≤ dayOf day ∧ dayOf day ≤ 31 := by
  have bounds := dayOf_bounds day
  have month := monthOf_bounds day
  have length := daysIn_bounds (yearOf day) month.1 month.2.1
  omega

def EveryDay (text : Bytes) : Prop := ∀ day, 1 ≤ day → day ≤ 31 → ListedDay text day

def EveryWeekday (text : Bytes) : Prop := ∀ weekday, 0 ≤ weekday → weekday ≤ 6 → ListedWeekday text weekday

-- A day field with a wildcard lists all of its days: no step narrows it.
structure Whole (text : Bytes) : Prop where
  days : HasWildcard (dayField text) → EveryDay text
  weekdays : HasWildcard (weekdayField text) → EveryWeekday text

theorem everyWeekday_iff (parsed : Parsed text c) : EveryWeekday text ↔ ∀ n < 7, has c.dow n = true := by
  constructor
  · intro every n small
    exact (dow_exact parsed n small).mpr (every n (by omega) (by omega))
  · intro full weekday nonneg small
    obtain ⟨n,rfl⟩ := Int.eq_ofNat_of_zero_le nonneg
    exact (dow_exact parsed n (by omega)).mp (full n (by omega))

theorem dayMatches_listed (parsed : Parsed text c) (matched : c.dayMatches t = true) :
    (HasWildcard (weekdayField text) → HasWildcard (dayField text) ∨ ListedDay text (dayOf t.day)) ∧
      (HasWildcard (dayField text) → HasWildcard (weekdayField text) ∨ ListedWeekday text (weekdayOf t.day)) ∧
      (HasWildcard (dayField text) ∨ HasWildcard (weekdayField text) ∨
        ListedDay text (dayOf t.day) ∨ ListedWeekday text (weekdayOf t.day)) := by
  have day : has c.dom (dayOf t.day).toNat = true ↔ ListedDay text (dayOf t.day) := by
    rw [dom_exact parsed,Int.toNat_of_nonneg (by have := dayOf_small t.day; omega)]
  have weekday := dow_exact parsed (weekdayOf t.day) (weekdayOf_small t.day)
  rw [← domAny_exact parsed,← dowAny_exact parsed,← day,← weekday]
  unfold Cron.dayMatches at matched
  revert matched
  cases c.domAny <;> cases c.dowAny <;> cases has c.dom (dayOf t.day).toNat <;>
    cases has c.dow (weekdayOf t.day) <;> simp

-- A day the search returns is listed by both fields when one of them has a
-- wildcard, and by one of them else.
theorem next_day_listed {after t : Time} (accepted : parseCron text = .ok c) (whole : Whole text)
    (found : c.next after = .ok t) : (HasWildcard (weekdayField text) → ListedDay text (dayOf t.day)) ∧
      (HasWildcard (dayField text) → ListedWeekday text (weekdayOf t.day)) ∧
      (ListedDay text (dayOf t.day) ∨ ListedWeekday text (weekdayOf t.day)) := by
  obtain ⟨day,weekday,either⟩ := dayMatches_listed (parseCron_parsed accepted) (next_day found)
  have bounds := dayOf_small t.day
  have small := weekdayOf_small t.day
  have anyDay : HasWildcard (dayField text) → ListedDay text (dayOf t.day) :=
    fun wild => whole.days wild _ bounds.1 bounds.2
  have anyWeekday : HasWildcard (weekdayField text) → ListedWeekday text (weekdayOf t.day) :=
    fun wild => whole.weekdays wild _ (by omega) (by omega)
  refine ⟨?_,?_,?_⟩
  · intro wild
    exact (day wild).elim anyDay id
  · intro wild
    exact (weekday wild).elim anyWeekday id
  · rcases either with wild | wild | listed
    · exact Or.inl (anyDay wild)
    · exact Or.inr (anyWeekday wild)
    · exact listed

end

def midnight (day : Int) : Time := ⟨date 2026 4 day 0 0 0 0,0⟩

theorem fifteenth_listed : ∃ c, parseCron (ascii "0 0 15 * *") = .ok c ∧ c.next (midnight 3) = .ok (midnight 15) ∧
    HasWildcard (weekdayField (ascii "0 0 15 * *")) ∧ ListedDay (ascii "0 0 15 * *") (dayOf (midnight 15).day) := by
  have accepted : parseCron (ascii "0 0 15 * *") = .ok ⟨ascii "0 0 15 * *",1,1,1,2^15,8190,127,false,true⟩ := by
    decide +kernel
  have parsed := parseCron_parsed accepted
  have found : Cron.next ⟨ascii "0 0 15 * *",1,1,1,2^15,8190,127,false,true⟩ (midnight 3) = .ok (midnight 15) := by
    decide +kernel
  have wild := (dowAny_exact parsed).mp rfl
  have whole : Whole (ascii "0 0 15 * *") := by
    refine ⟨?_,fun _ => (everyWeekday_iff parsed).mpr (by decide)⟩
    intro any
    cases (domAny_exact parsed).mpr any
  exact ⟨_,accepted,found,wild,(next_day_listed accepted whole found).1 wild⟩

-- The whole week is listed, and the search returns a day the other field does
-- not list.
def RunsUnlisted (text : Bytes) : Prop :=
  ∃ c after t, parseCron text = .ok c ∧ c.next after = .ok t ∧ EveryWeekday text ∧ ¬ ListedDay text (dayOf t.day)

theorem runs_fourth (accepted : parseCron text = .ok c) (found : c.next (midnight 3) = .ok (midnight 4))
    (full : ∀ n < 7, has c.dow n = true) (absent : has c.dom 4 = false) : RunsUnlisted text := by
  have parsed := parseCron_parsed accepted
  refine ⟨c,_,_,accepted,found,(everyWeekday_iff parsed).mpr full,?_⟩
  intro listed
  have fourth : dayOf (midnight 4).day = (4 : Nat) := by decide +kernel
  rw [fourth,← dom_exact parsed,absent] at listed
  cases listed

-- With the week listed day by day either field is enough, and the days of a
-- stepped wildcard are not read at all.
theorem listed_week_runs_daily : RunsUnlisted (ascii "0 0 15 * 0-6") ∧ RunsUnlisted (ascii "0 0 */2 * *") := by
  constructor
  · have accepted : parseCron (ascii "0 0 15 * 0-6") =
        .ok ⟨ascii "0 0 15 * 0-6",1,1,1,2^15,8190,127,false,false⟩ := by decide +kernel
    exact runs_fourth accepted (by decide +kernel) (by decide) (by decide)
  · have accepted : parseCron (ascii "0 0 */2 * *") =
        .ok ⟨ascii "0 0 */2 * *",1,1,1,2863311530,8190,127,true,true⟩ := by decide +kernel
    exact runs_fourth accepted (by decide +kernel) (by decide) (by decide)

end Kronos.CronDays
