import Kronos.Effect
import Kronos.Strings
import Kronos.Rfc3339

namespace Kronos.CronExpression
open ByteRange Utf8 Strings Decimal Calendar Rfc3339

-- The errors of the schedule package; a negative shift count is a panic, and a
-- search is endless when it uses up its turns.
inductive Fault
  | cronRequired | cronFields | inField (name : String) (cause : Fault) | emptyPart | invalidStep (text : Bytes)
  | invalidValue (text : Bytes) | valueOutside (value low high : Int) | invalidRange (text : Bytes)
  | rangeOutside (first last low high : Int) | negativeShift | notInitialized | noMatch | endless | windowStart
  | windowRange (text : Bytes) | windowEdge (name : String) (cause : Fault) | invalidClock (text : Bytes)
  | clockNumber (text : Bytes) | clockOutside (text : Bytes) | timezone (name : Bytes) | windowOrder | noWindow
  | inSchedule (id : Bytes) (cause : Fault) | catchUpLimit (id : Bytes) (limit : Int)
  deriving DecidableEq

structure Cron where
  expr : Bytes
  seconds : Nat
  minutes : Nat
  hours : Nat
  dom : Nat
  months : Nat
  dow : Nat
  domAny : Bool
  dowAny : Bool
  deriving DecidableEq

def atoi (text : Bytes) : Option Int := (parseInt text).map Int64.toInt

def splitStep (part : Bytes) : Except Fault (Bytes × Int) :=
  match part.splitOn 47 with
  | [_] => .ok (part,1)
  | [base,text] => match atoi text with
    | some step => if step ≤ 0 then .error (.invalidStep text) else .ok (base,step)
    | none => .error (.invalidStep text)
  | _ => .error (.invalidStep part)

def parseValue (names : List (Bytes × Int)) (text : Bytes) : Except Fault Int :=
  match names.find? (fun name => decide (name.1 = toLower text)) with
  | some name => .ok name.2
  | none => match atoi text with
    | some n => .ok n
    | none => .error (.invalidValue text)

def anyText (base : Bytes) : Bool := base = ascii "*" || base = ascii "?"

def parseRange (part : Bytes) (low high : Int) (names : List (Bytes × Int)) : Except Fault (Int × Int) :=
  if anyText part then .ok (low,high)
  else match part.splitOn 45 with
  | [text] => do
    let value ← parseValue names text
    if value < low ∨ high < value then .error (.valueOutside value low high) else .ok (value,value)
  | [first,last] => do
    let start ← parseValue names first
    let stop ← parseValue names last
    if start < low ∨ high < stop ∨ stop < start then .error (.rangeOutside start stop low high)
    else .ok (start,stop)
  | _ => .error (.invalidRange part)

-- The counter is a 64-bit integer: a step that takes it past the largest one
-- makes it negative, and the next shift panics.
def wrapped (n : Int) : Int := (n + 2^63) % 2^64 - 2^63

def rangeBits (stop step : Int) : Nat → Int → Except Fault Nat
  | 0,_ => .ok 0
  | fuel+1,i =>
    if stop < i then .ok 0
    else if i < 0 then .error .negativeShift
    else do
      let rest ← rangeBits stop step fuel (wrapped (i+step))
      return 2^i.toNat ||| rest

def parsePart (low high : Int) (names : List (Bytes × Int)) (text : Bytes) : Except Fault Nat :=
  let part := trimSpace text
  if part = [] then .error .emptyPart
  else do
    let (base,step) ← splitStep part
    let (start,stop) ← parseRange base low high names
    rangeBits stop step ((stop-start).toNat+2) start

def parseField (field : Bytes) (low high : Int) (names : List (Bytes × Int)) : Except Fault Nat :=
  (field.splitOn 44).foldlM (fun bits text => (parsePart low high names text).map (bits ||| ·)) 0

def isAny (field : Bytes) : Bool := go (field.splitOn 44)
where
  go : List Bytes → Bool
    | [] => false
    | text :: rest => match splitStep (trimSpace text) with
      | .error _ => false
      | .ok (base,_) => anyText base || go rest

def monthNames : List (Bytes × Int) :=
  [(ascii "jan",1),(ascii "feb",2),(ascii "mar",3),(ascii "apr",4),(ascii "may",5),(ascii "jun",6),
    (ascii "jul",7),(ascii "aug",8),(ascii "sep",9),(ascii "oct",10),(ascii "nov",11),(ascii "dec",12)]

def dayNames : List (Bytes × Int) :=
  [(ascii "sun",0),(ascii "mon",1),(ascii "tue",2),(ascii "wed",3),(ascii "thu",4),(ascii "fri",5),
    (ascii "sat",6)]

def expandAlias (expr : Bytes) : Bytes :=
  if expr = ascii "@hourly" then ascii "0 * * * *"
  else if expr = ascii "@daily" ∨ expr = ascii "@midnight" then ascii "0 0 * * *"
  else if expr = ascii "@weekly" then ascii "0 0 * * 0"
  else if expr = ascii "@monthly" then ascii "0 0 1 * *"
  else if expr = ascii "@yearly" ∨ expr = ascii "@annually" then ascii "0 0 1 1 *"
  else expr

-- Seven is another name of Sunday.
def foldSunday (dow : Nat) : Nat := if dow.testBit 7 then (dow ||| 1) ^^^ 2^7 else dow

def parseFields (expr : Bytes) : List Bytes → Except Fault Cron
  | [second,minute,hour,day,month,weekday] => do
    let seconds ← (parseField second 0 59 []).mapError (.inField "seconds")
    let minutes ← (parseField minute 0 59 []).mapError (.inField "minutes")
    let hours ← (parseField hour 0 23 []).mapError (.inField "hours")
    let dom ← (parseField day 1 31 []).mapError (.inField "day-of-month")
    let months ← (parseField month 1 12 monthNames).mapError (.inField "month")
    let dow ← (parseField weekday 0 7 dayNames).mapError (.inField "day-of-week")
    return ⟨expr,seconds,minutes,hours,dom,months,foldSunday dow,isAny day,isAny weekday⟩
  | _ => .error .cronFields

def parseCron (text : Bytes) : Except Fault Cron :=
  let trimmed := trimSpace text
  if trimmed = [] then .error .cronRequired
  else
    let expr := expandAlias trimmed
    let words := fields expr
    if words.length = 5 then parseFields expr (ascii "0" :: words) else parseFields expr words

def has (bits n : Nat) : Bool := bits.testBit n

def nextBit (bits start high : Nat) : Option Nat := (List.range' start (high+1-start)).find? (has bits)

-- The date functions of the time package in a zone with a fixed offset; a day
-- past the end of its month is one of the next.
def zoned (offset year : Int) (month : Nat) (day hour minute second : Int) : Time :=
  ⟨date year month day hour minute second 0 - offset * 1000000000,offset⟩

def truncate (t : Time) (unit : Int) : Time := {t with instant := t.instant - t.instant % unit}

def add (t : Time) (nanos : Int) : Time := {t with instant := t.instant + nanos}

def addYears (t : Time) (years : Int) : Time :=
  add (zoned t.offset (yearOf t.day + years) (monthOf t.day) (dayOf t.day) t.hour t.minute t.second) t.nanosecond

def firstOfNextMonth (t : Time) : Time :=
  if monthOf t.day = 12 then zoned t.offset (yearOf t.day + 1) 1 1 0 0 0
  else zoned t.offset (yearOf t.day) (monthOf t.day + 1) 1 0 0 0

def nextDay (t : Time) : Time := zoned t.offset (yearOf t.day) (monthOf t.day) (dayOf t.day + 1) 0 0 0

namespace Cron

def dayMatches (c : Cron) (t : Time) : Bool :=
  let domMatch := has c.dom (dayOf t.day).toNat
  let dowMatch := has c.dow (weekdayOf t.day)
  if c.domAny && c.dowAny then true
  else if c.domAny then dowMatch
  else if c.dowAny then domMatch
  else domMatch || dowMatch

-- One turn of the search: where it goes on, or nothing when the time matches.
def advance (c : Cron) (t : Time) : Option Time :=
  let at' := zoned t.offset (yearOf t.day) (monthOf t.day) (dayOf t.day)
  if has c.months (monthOf t.day) = false then some (firstOfNextMonth t)
  else if c.dayMatches t = false then some (nextDay t)
  else if has c.hours t.hour = false then
    match nextBit c.hours (t.hour+1) 23 with
    | some hour => some (at' hour 0 0)
    | none => some (nextDay t)
  else if has c.minutes t.minute = false then
    match nextBit c.minutes (t.minute+1) 59 with
    | some minute => some (at' t.hour minute 0)
    | none => some (truncate (add t 3600000000000) 3600000000000)
  else if has c.seconds t.second = false then
    match nextBit c.seconds (t.second+1) 59 with
    | some second => some (at' t.hour t.minute second)
    | none => some (truncate (add t 60000000000) 60000000000)
  else none

-- Every turn goes at least one second on, so the seconds up to the deadline and
-- the turn that finds it passed are enough.
def search (c : Cron) (deadline : Int) : Nat → Time → Except Fault Time
  | 0,_ => .error .endless
  | turns+1,t =>
    if deadline < t.instant then .error .noMatch
    else match c.advance t with
    | some t' => search c deadline turns t'
    | none => .ok t

def initialized (c : Cron) : Bool :=
  c.seconds ≠ 0 && c.minutes ≠ 0 && c.hours ≠ 0 && c.dom ≠ 0 && c.months ≠ 0 && c.dow ≠ 0

def next (c : Cron) (after : Time) : Except Fault Time :=
  if c.initialized = false then .error .notInitialized
  else
    let t := truncate (add after 1000000000) 1000000000
    let deadline := (addYears after 5).instant
    search c deadline (((deadline - t.instant) / 1000000000).toNat + 2) t

end Cron

end Kronos.CronExpression
