import Kronos.Calendar
import Kronos.Decimal

namespace Kronos.Rfc3339
open ByteRange JsonText Decimal Calendar

-- A point in time, in nanoseconds from January 1 of year 1, and the offset of
-- the zone it is told in, in seconds.
structure Time where
  instant : Int
  offset : Int
  deriving DecidableEq,Repr

namespace Time

def zero : Time := ⟨0,0⟩

def isZero (t : Time) : Bool := t.instant = 0

def utc (t : Time) : Time := {t with offset := 0}

def localNanos (t : Time) : Int := t.instant + t.offset * 1000000000

def localSeconds (t : Time) : Int := t.localNanos / 1000000000

def nanosecond (t : Time) : Nat := (t.localNanos % 1000000000).toNat

def day (t : Time) : Int := t.localSeconds / 86400

def hour (t : Time) : Nat := (t.localSeconds % 86400 / 3600).toNat

def minute (t : Time) : Nat := (t.localSeconds % 3600 / 60).toNat

def second (t : Time) : Nat := (t.localSeconds % 60).toNat

end Time

def date (year : Int) (month : Nat) (day hour minute second nanosecond : Int) : Int :=
  ((monthStart year month + (day - 1)) * 86400 + hour * 3600 + minute * 60 + second) * 1000000000 + nanosecond

-- Trailing zeros of the fraction are left out, and all of it when it is zero.
def trimmed (digits : Bytes) : Bytes := (digits.reverse.dropWhile (fun b => decide (b = 48))).reverse

def fractionText (nanos : Nat) : Bytes := if nanos = 0 then [] else 46 :: trimmed (padded 9 nanos)

def zoneMinutes (t : Time) : Int := t.offset.tdiv 60

def zoneText (t : Time) : Bytes :=
  if t.offset = 0 then [90]
  else (if zoneMinutes t < 0 then 45 else 43) ::
    (padded 2 ((zoneMinutes t).natAbs / 60) ++ 58 :: padded 2 ((zoneMinutes t).natAbs % 60))

def dateText (t : Time) : Bytes :=
  padded 4 (yearOf t.day).toNat ++ 45 :: (padded 2 (monthOf t.day) ++ 45 :: padded 2 (dayOf t.day).toNat)

def clockText (t : Time) : Bytes := padded 2 t.hour ++ 58 :: (padded 2 t.minute ++ 58 :: padded 2 t.second)

-- Years of four digits and zones of less than a day have a text.
def Shown (t : Time) : Prop :=
  0 ≤ yearOf t.day ∧ yearOf t.day ≤ 9999 ∧ (zoneMinutes t).natAbs / 60 < 24

instance (t : Time) : Decidable (Shown t) := inferInstanceAs (Decidable (_ ∧ _ ∧ _))

def format (t : Time) : Option Bytes :=
  if Shown t then some (dateText t ++ 84 :: (clockText t ++ (fractionText t.nanosecond ++ zoneText t))) else none

def readPart (width low high : Nat) (text : Bytes) : Option (Nat × Bytes) :=
  let digits := text.take width
  if digits.length = width ∧ digits.all digitByte = true ∧ low ≤ value digits ∧ value digits ≤ high then
    some (value digits,text.drop width)
  else none

def readMark (mark : UInt8) : Bytes → Option Bytes
  | [] => none
  | b :: rest => if b = mark then some rest else none

-- A point that no digit follows is left for the zone to refuse.
def readFraction : Bytes → Nat × Bytes
  | 46 :: rest =>
    let digits := rest.takeWhile digitByte
    if digits = [] then (0,46 :: rest)
    else (value ((digits ++ List.replicate 9 48).take 9),rest.dropWhile digitByte)
  | text => (0,text)

def readZone (text : Bytes) : Option Int :=
  if text = [90] then some 0
  else do
    let sign ← text.head?
    let (hours,text) ← readPart 2 0 23 text.tail
    let text ← readMark 58 text
    let (minutes,text) ← readPart 2 0 59 text
    if text ≠ [] then none
    else if sign = 45 then some (-((hours * 60 + minutes) * 60))
    else if sign = 43 then some ((hours * 60 + minutes) * 60)
    else none

def read (text : Bytes) : Option Time := do
  let (year,text) ← readPart 4 0 9999 text
  let text ← readMark 45 text
  let (month,text) ← readPart 2 1 12 text
  let text ← readMark 45 text
  let (day,text) ← readPart 2 1 (daysIn year month).toNat text
  let text ← readMark 84 text
  let (hour,text) ← readPart 2 0 23 text
  let text ← readMark 58 text
  let (minute,text) ← readPart 2 0 59 text
  let text ← readMark 58 text
  let (second,text) ← readPart 2 0 59 text
  let (nanos,text) := readFraction text
  let offset ← readZone text
  return ⟨date year month day hour minute second nanos - offset * 1000000000,offset⟩

-- What is left of a time whose zone is not a whole number of minutes.
def wholeMinutes (t : Time) : Time :=
  let offset := 60 * zoneMinutes t
  ⟨t.localNanos - offset * 1000000000,offset⟩

theorem padded_length (width n : Nat) : (padded width n).length = width := by
  induction width generalizing n with
  | zero => rfl
  | succ _ ih => rw [padded,List.length_cons,ih]

theorem padded_digits (width n : Nat) : ∀ b ∈ padded width n, digitByte b = true := by
  induction width generalizing n with
  | zero => intro b member; cases member
  | succ _ ih => exact List.forall_mem_cons.mpr ⟨digit_digitByte _,ih _⟩

theorem value_from (text : Bytes) (start : Nat) :
    text.foldl (fun sum b => sum * 10 + (b.toNat - 48)) start = start * 10^text.length + value text := by
  induction text generalizing start with
  | nil => simp [value]
  | cons b _ ih =>
    rw [value,List.foldl_cons,List.foldl_cons,ih,ih (0 * 10 + (b.toNat - 48)),List.length_cons,Nat.pow_succ]
    ring

theorem value_cons (b : UInt8) (rest : Bytes) : value (b :: rest) = (b.toNat - 48) * 10^rest.length + value rest := by
  rw [value,List.foldl_cons,value_from]
  simp

theorem value_padded (width n : Nat) (small : n < 10^width) : value (padded width n) = n := by
  induction width generalizing n with
  | zero =>
    change 0 = n
    omega
  | succ width ih =>
    have positive : 0 < 10^width := Nat.pow_pos (by decide)
    have high : n / 10^width < 10 := Nat.div_lt_of_lt_mul (by rwa [Nat.pow_succ] at small)
    rw [padded,value_cons,padded_length,ih _ (Nat.mod_lt n positive),digit_toNat,Nat.mod_eq_of_lt high,
      Nat.add_sub_cancel_left,Nat.mul_comm]
    exact Nat.div_add_mod n (10^width)

theorem value_zeros (count : Nat) : value (List.replicate count 48) = 0 := by
  induction count with
  | zero => rfl
  | succ _ ih => rw [List.replicate_succ,value_cons,ih]; simp

theorem readPart_padded {width low high n : Nat} (small : n < 10^width) (least : low ≤ n) (most : n ≤ high)
    (rest : Bytes) : readPart width low high (padded width n ++ rest) = some (n,rest) := by
  have taken : (padded width n ++ rest).take width = padded width n :=
    List.take_left' (padded_length width n)
  have dropped : (padded width n ++ rest).drop width = rest := List.drop_left' (padded_length width n)
  have digits : (padded width n).all digitByte = true := List.all_eq_true.mpr (padded_digits width n)
  simp only [readPart,taken,dropped,digits,padded_length,value_padded width n small,least,most,and_self,if_true]

@[simp] theorem readMark_same (mark : UInt8) (rest : Bytes) : readMark mark (mark :: rest) = some rest :=
  if_pos rfl

theorem trimmed_zeros (digits : Bytes) : ∃ count, trimmed digits ++ List.replicate count 48 = digits := by
  have zeros : ∀ text : Bytes, text.takeWhile (fun b => decide (b = 48)) =
      List.replicate (text.takeWhile (fun b => decide (b = 48))).length 48 := by
    intro text
    apply List.eq_replicate_of_mem
    intro b member
    simpa using List.mem_takeWhile_imp member
  refine ⟨(digits.reverse.takeWhile (fun b => decide (b = 48))).length,?_⟩
  rw [← List.reverse_replicate,← zeros,trimmed,← List.reverse_append,List.takeWhile_append_dropWhile,
    List.reverse_reverse]

theorem trimmed_value (small : nanos < 10^9) (some_nanos : nanos ≠ 0) : trimmed (padded 9 nanos) ≠ [] ∧
      value ((trimmed (padded 9 nanos) ++ List.replicate 9 48).take 9) = nanos := by
  obtain ⟨count,shape⟩ := trimmed_zeros (padded 9 nanos)
  have size := congrArg List.length shape
  rw [List.length_append,List.length_replicate,padded_length] at size
  have full := value_padded 9 nanos small
  constructor
  · intro empty
    rw [empty,List.nil_append] at shape
    rw [← shape,value_zeros] at full
    exact some_nanos full.symm
  · have filled : (trimmed (padded 9 nanos) ++ List.replicate 9 48).take 9 = padded 9 nanos := by
      rw [List.take_append,List.take_of_length_le (by omega),List.take_replicate,Nat.min_eq_left (by omega)]
      rw [show 9 - (trimmed (padded 9 nanos)).length = count by omega]
      exact shape
    rw [filled,full]

theorem trimmed_digits (nanos : Nat) : ∀ b ∈ trimmed (padded 9 nanos), digitByte b = true := by
  intro b member
  obtain ⟨_,shape⟩ := trimmed_zeros (padded 9 nanos)
  exact padded_digits 9 nanos b (shape ▸ List.mem_append_left _ member)

theorem readFraction_text {nanos : Nat} (small : nanos < 10^9) {rest : Bytes}
    (stops : rest.takeWhile digitByte = []) (plain : ∀ later, rest ≠ 46 :: later) :
    readFraction (fractionText nanos ++ rest) = (nanos,rest) := by
  unfold fractionText
  split
  · rename_i none_left
    rw [List.nil_append,none_left,readFraction]
    exact plain
  · rename_i some_nanos
    obtain ⟨shown,total⟩ := trimmed_value small some_nanos
    have digits := trimmed_digits nanos
    have taken : (trimmed (padded 9 nanos) ++ rest).takeWhile digitByte = trimmed (padded 9 nanos) := by
      rw [List.takeWhile_append_of_pos digits,stops,List.append_nil]
    have left : (trimmed (padded 9 nanos) ++ rest).dropWhile digitByte = rest := by
      rw [List.dropWhile_append_of_pos digits]
      have whole := List.takeWhile_append_dropWhile (p := digitByte) (l := rest)
      rwa [stops,List.nil_append] at whole
    simp only [readFraction,List.cons_append,taken,left,shown,if_false,total]

theorem zoneText_plain (t : Time) : (zoneText t).takeWhile digitByte = [] ∧ ∀ later, zoneText t ≠ 46 :: later := by
  unfold zoneText
  split
  · exact ⟨rfl,by simp⟩
  · split <;> exact ⟨rfl,by simp⟩

theorem readZone_text (near : (zoneMinutes t).natAbs / 60 < 24) :
    readZone (zoneText t) = some (60 * zoneMinutes t) := by
  unfold zoneText
  split
  · rename_i whole
    rw [zoneMinutes,whole]
    rfl
  · have hours := @readPart_padded 2 0 23 ((zoneMinutes t).natAbs / 60) (by omega) (by omega) (by omega)
    have minutes := @readPart_padded 2 0 59 ((zoneMinutes t).natAbs % 60) (by omega) (by omega) (by omega) []
    rw [List.append_nil] at minutes
    split
    · have plain : ∀ rest : Bytes, (45 :: rest) ≠ [90] := by simp
      rw [readZone,if_neg (plain _)]
      simp only [List.head?_cons,List.tail_cons,hours,readMark_same,minutes,Option.bind_eq_bind,Option.bind_some,
        ne_eq,not_true,if_false,if_true]
      exact congrArg some (by omega)
    · have plain : ∀ rest : Bytes, (43 :: rest) ≠ [90] := by simp
      have other : ¬ (43 : UInt8) = 45 := by decide
      rw [readZone,if_neg (plain _)]
      simp only [List.head?_cons,List.tail_cons,hours,readMark_same,minutes,Option.bind_eq_bind,Option.bind_some,
        ne_eq,not_true,if_false,other,if_true]
      exact congrArg some (by omega)

theorem date_fields (t : Time) : date (yearOf t.day) (monthOf t.day) (dayOf t.day).toNat t.hour t.minute
    t.second t.nanosecond = t.localNanos := by
  have days := dayOf_bounds t.day
  have whole : monthStart (yearOf t.day) (monthOf t.day) + ((dayOf t.day).toNat - 1) = t.day := by
    rw [Int.toNat_of_nonneg (by omega),dayOf]
    omega
  rw [date,whole]
  unfold Time.day Time.hour Time.minute Time.second Time.nanosecond Time.localSeconds
  omega

theorem read_format (shown : format t = some text) : read text = some (wholeMinutes t) := by
  unfold format at shown
  split at shown
  · rename_i fits
    obtain ⟨low,_,near⟩ := fits
    obtain rfl := Option.some.inj shown
    have months := monthOf_bounds t.day
    have days := dayOf_bounds t.day
    have size := daysIn_bounds (yearOf t.day) months.1 months.2.1
    obtain ⟨stops,plain⟩ := zoneText_plain t
    have nanos : t.nanosecond < 10^9 := by
      unfold Time.nanosecond
      omega
    have year : ((yearOf t.day).toNat : Int) = yearOf t.day := Int.toNat_of_nonneg low
    unfold read dateText clockText
    simp only [List.append_assoc,List.cons_append]
    rw [readPart_padded (by omega) (by omega) (by omega)]
    simp only [Option.bind_eq_bind,Option.bind_some,readMark_same]
    rw [readPart_padded (by omega) (by omega) (by omega)]
    simp only [Option.bind_some,readMark_same,year]
    rw [readPart_padded (by omega) (by omega) (by omega)]
    simp only [Option.bind_some,readMark_same]
    rw [readPart_padded (by unfold Time.hour; omega) (by omega) (by unfold Time.hour; omega)]
    simp only [Option.bind_some,readMark_same]
    rw [readPart_padded (by unfold Time.minute; omega) (by omega) (by unfold Time.minute; omega)]
    simp only [Option.bind_some,readMark_same]
    rw [readPart_padded (by unfold Time.second; omega) (by omega) (by unfold Time.second; omega)]
    simp only [Option.bind_some,readFraction_text nanos stops plain,readZone_text near]
    rw [date_fields]
    rfl
  · cases shown

-- The bytes of a time's text: digits, and plus, minus, point, colon, T and Z.
def timeByte (b : UInt8) : Bool := digitByte b || decide (b ∈ ([43,45,46,58,84,90] : Bytes))

theorem digit_timeByte {text : Bytes} (digits : ∀ b ∈ text, digitByte b = true) : ∀ b ∈ text, timeByte b = true := by
  intro b member
  rw [timeByte,digits b member,Bool.true_or]

theorem padded_timeByte (width n : Nat) : ∀ b ∈ padded width n, timeByte b = true :=
  digit_timeByte (padded_digits width n)

theorem fractionText_bytes (nanos : Nat) : ∀ b ∈ fractionText nanos, timeByte b = true := by
  unfold fractionText
  split
  · intro b member
    cases member
  · exact List.forall_mem_cons.mpr ⟨rfl,digit_timeByte (trimmed_digits nanos)⟩

theorem zoneText_bytes (t : Time) : ∀ b ∈ zoneText t, timeByte b = true := by
  unfold zoneText
  split
  · exact List.forall_mem_singleton.mpr rfl
  · simp only [List.forall_mem_append,List.forall_mem_cons]
    exact ⟨by split <;> rfl,padded_timeByte _ _,rfl,padded_timeByte _ _⟩

theorem format_bytes (shown : format t = some text) : ∀ b ∈ text, timeByte b = true := by
  unfold format at shown
  split at shown
  · obtain rfl := Option.some.inj shown
    simp only [dateText,clockText,List.forall_mem_append,List.forall_mem_cons]
    exact ⟨⟨padded_timeByte _ _,rfl,padded_timeByte _ _,rfl,padded_timeByte _ _⟩,rfl,
      ⟨padded_timeByte _ _,rfl,padded_timeByte _ _,rfl,padded_timeByte _ _⟩,
      fractionText_bytes _,zoneText_bytes t⟩
  · cases shown

end Kronos.Rfc3339
