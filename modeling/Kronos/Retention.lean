import Kronos.Effect
import Kronos.Rfc3339
import Kronos.Strings

namespace Kronos.Retention
open ByteRange Utf8 Decimal Calendar Rfc3339 Strings

structure Backup where
  id : Bytes
  targetID : Bytes
  storageID : Bytes
  type : Bytes
  parentID : Bytes
  manifestID : Bytes
  startedAt : Time
  endedAt : Time
  sizeBytes : Int64
  isProtected : Bool
  deriving DecidableEq

inductive Period
  | daily | weekly | monthly | yearly
  deriving DecidableEq,Repr

inductive Reason
  | isProtected | count | time | size | gfs (period : Period) | chain
  deriving DecidableEq,Repr

def Period.name : Period → String
  | .daily => "daily"
  | .weekly => "weekly"
  | .monthly => "monthly"
  | .yearly => "yearly"

structure PlanItem where
  backup : Backup
  keep : Bool
  reasons : List Reason
  deriving DecidableEq

structure Plan where
  items : List PlanItem

def Plan.keepIDs (plan : Plan) : List Bytes := (plan.items.filter PlanItem.keep).map (·.backup.id)

def Plan.dropIDs (plan : Plan) : List Bytes := (plan.items.filter (fun item => !item.keep)).map (·.backup.id)

-- The dynamic types a rule's parameters can have; a float is held as its text.
inductive ParamValue
  | int (n : Int64) | float (text : Bytes) | str (text : Bytes) | duration (nanos : Int64) | other (typeName : Bytes)
  deriving DecidableEq

structure RetentionRule where
  kind : Bytes
  params : List (Bytes × ParamValue)

-- What Go's libraries make of a parameter: the conversion of a float, duration
-- texts and the default format.
structure Values where
  truncate : Bytes → Int64
  parseDuration : Bytes → Option Int64
  sprint : ParamValue → Bytes

inductive Cause
  | syntaxOrRange (text : Bytes) | unsupportedType (typeName : Bytes)
  deriving DecidableEq

inductive Fault
  | unsupportedRule (kind : Bytes) | missingParam (name : Bytes) | invalidParam (name : Bytes) (cause : Cause)
  | negativeParam (name : Bytes) | negativeCount | negativeDuration | negativeSize | durationText (text : Bytes)
  | durationValue (cause : Cause) | endless
  deriving DecidableEq

def keep (item : PlanItem) (reason : Reason) : PlanItem :=
  ⟨item.backup,true,if reason ∈ item.reasons then item.reasons else item.reasons ++ [reason]⟩

def backupTime (backup : Backup) : Time :=
  if backup.endedAt.isZero then backup.startedAt else backup.endedAt

section
variable (values : Values)

def toInt64 : ParamValue → Except Cause Int64
  | .int n => .ok n
  | .float text => .ok (values.truncate text)
  | .str text => match parseInt text with
    | some n => .ok n
    | none => .error (.syntaxOrRange text)
  | .duration _ => .error (.unsupportedType (ascii "time.Duration"))
  | .other typeName => .error (.unsupportedType typeName)

def lookup (params : List (Bytes × ParamValue)) (name : Bytes) : Option ParamValue :=
  (params.find? (fun param => decide (param.1 = name))).map Prod.snd

-- The first of the names that is there.
def findParam (params : List (Bytes × ParamValue)) : List Bytes → Option (ParamValue × Bytes)
  | [] => none
  | name :: rest => match lookup params name with
    | some value => some (value,name)
    | none => findParam params rest

def intParam (params : List (Bytes × ParamValue)) (first : Bytes) (rest : List Bytes) : Except Fault Int64 :=
  match findParam params (first :: rest) with
  | none => .error (.missingParam first)
  | some (value,name) => (toInt64 values value).mapError (.invalidParam name)

def optionalIntParam (params : List (Bytes × ParamValue)) (name : Bytes) : Except Fault Int64 :=
  match lookup params name with
  | none => .ok 0
  | some value => do
    let n ← (toInt64 values value).mapError (.invalidParam name)
    if n < 0 then .error (.negativeParam name) else .ok n

def durationParam (params : List (Bytes × ParamValue)) (first : Bytes) (rest : List Bytes) : Except Fault Int64 :=
  match findParam params (first :: rest) with
  | none => .error (.missingParam first)
  | some (.duration nanos,_) => .ok nanos
  | some (.str text,_) => match values.parseDuration text with
    | some nanos => .ok nanos
    | none => .error (.durationText text)
  | some (value,_) => ((toInt64 values value).mapError Fault.durationValue).map (· * 1000000000)

def stringParam (params : List (Bytes × ParamValue)) (name : Bytes) : Bytes :=
  match lookup params name with
  | none => []
  | some (.str text) => text
  | some value => values.sprint value

def countFrom (n : Int64) (type : Bytes) : Nat → List PlanItem → List PlanItem
  | _,[] => []
  | kept,item :: rest =>
    if type ≠ [] ∧ item.backup.type ≠ type then item :: countFrom n type kept rest
    else if kept < n.toInt then keep item .count :: countFrom n type (kept+1) rest
    else item :: countFrom n type kept rest

def applyCount (items : List PlanItem) (params : List (Bytes × ParamValue)) : Except Fault (List PlanItem) := do
  let n ← intParam values params (ascii "n") [ascii "keep",ascii "count"]
  if n < 0 then .error .negativeCount
  else .ok (countFrom n (stringParam values params (ascii "type")) 0 items)

def applyTime (now : Time) (items : List PlanItem) (params : List (Bytes × ParamValue)) :
    Except Fault (List PlanItem) := do
  let duration ← durationParam values params (ascii "duration") [ascii "younger_than"]
  if duration < 0 then .error .negativeDuration
  else .ok (items.map (fun item =>
    if now.instant - duration.toInt ≤ (backupTime item.backup).instant then keep item .time else item))

-- Sizes are summed up in 64 bits; protected backups do not count.
def sizeFrom (maxBytes : Int64) : Int64 → List PlanItem → List PlanItem
  | _,[] => []
  | total,item :: rest =>
    if item.backup.isProtected then item :: sizeFrom maxBytes total rest
    else if total + item.backup.sizeBytes ≤ maxBytes then
      keep item .size :: sizeFrom maxBytes (total + item.backup.sizeBytes) rest
    else item :: sizeFrom maxBytes total rest

def applySize (items : List PlanItem) (params : List (Bytes × ParamValue)) : Except Fault (List PlanItem) := do
  let maxBytes ← intParam values params (ascii "max_bytes") [ascii "bytes"]
  if maxBytes < 0 then .error .negativeSize else .ok (sizeFrom maxBytes 0 items)

-- Year and number of the week that the Thursday next to a day is in.
def isoWeek (day : Int) : Int × Int :=
  let thursday := day - day % 7 + 3
  (yearOf thursday,(thursday - yearStart (yearOf thursday)) / 7 + 1)

def yearText (year : Int) : Bytes :=
  if year < 0 then 45 :: atLeast 4 (-year) else atLeast 4 year

-- The key of the period a time is in, in UTC.
def Period.key (period : Period) (t : Time) : Bytes :=
  let day := t.utc.day
  match period with
  | .daily => yearText (yearOf day) ++ 45 :: (atLeast 2 (monthOf day) ++ 45 :: atLeast 2 (dayOf day))
  | .weekly => atLeast 4 (isoWeek day).1 ++ ascii "-W" ++ atLeast 2 (isoWeek day).2
  | .monthly => yearText (yearOf day) ++ 45 :: atLeast 2 (monthOf day)
  | .yearly => yearText (yearOf day)

structure Slot where
  period : Period
  limit : Int64
  seen : List Bytes

-- The newest backup of a period is kept as long as the limit is not reached.
def visit (item : PlanItem) (slot : Slot) : PlanItem × Slot :=
  if slot.seen.length < slot.limit.toInt then
    let key := slot.period.key (backupTime item.backup)
    if key ∈ slot.seen then (item,slot)
    else (keep item (.gfs slot.period),{slot with seen := key :: slot.seen})
  else (item,slot)

def visitAll (item : PlanItem) : List Slot → PlanItem × List Slot
  | [] => (item,[])
  | slot :: rest =>
    let (item,slot) := visit item slot
    let (item,rest) := visitAll item rest
    (item,slot :: rest)

def gfsFrom (slots : List Slot) : List PlanItem → List PlanItem
  | [] => []
  | item :: rest =>
    let (item,slots) := visitAll item slots
    item :: gfsFrom slots rest

def applyGFS (items : List PlanItem) (params : List (Bytes × ParamValue)) : Except Fault (List PlanItem) := do
  let daily ← optionalIntParam values params (ascii "daily")
  let weekly ← optionalIntParam values params (ascii "weekly")
  let monthly ← optionalIntParam values params (ascii "monthly")
  let yearly ← optionalIntParam values params (ascii "yearly")
  return gfsFrom [⟨.daily,daily,[]⟩,⟨.weekly,weekly,[]⟩,⟨.monthly,monthly,[]⟩,⟨.yearly,yearly,[]⟩] items

def applyRule (now : Time) (items : List PlanItem) (rule : RetentionRule) : Except Fault (List PlanItem) :=
  if rule.kind = ascii "count" then applyCount values items rule.params
  else if rule.kind = ascii "time" then applyTime values now items rule.params
  else if rule.kind = ascii "size" then applySize values items rule.params
  else if rule.kind = ascii "gfs" then applyGFS values items rule.params
  else .error (.unsupportedRule rule.kind)

def applyRules (now : Time) : List PlanItem → List RetentionRule → Except Fault (List PlanItem)
  | items,[] => .ok items
  | items,rule :: rest => do
    let items ← applyRule values now items rule
    applyRules now items rest

end

-- The last index of each id; a blank id is never looked up.
def byID (items : List PlanItem) (id : Bytes) : Option Nat :=
  ((List.range items.length).filter (fun i => decide (items[i]?.map (·.backup.id) = some id))).getLast?

def protectParent (index : Bytes → Option Nat) (items : List PlanItem) (i : Nat) : Option (List PlanItem) := do
  let item ← items[i]?
  if item.keep = false ∨ blank item.backup.parentID then none
  else
    let parentIndex ← index item.backup.parentID
    let parent ← items[parentIndex]?
    if parent.keep then none else some (items.set parentIndex (keep parent .chain))

-- One pass over the items; an item kept on the way is seen by the later ones.
def protectPass (index : Bytes → Option Nat) : List Nat → List PlanItem → List PlanItem × Bool
  | [],items => (items,false)
  | i :: rest,items => match protectParent index items i with
    | some next => ((protectPass index rest next).1,true)
    | none => protectPass index rest items

-- Passes until one changes nothing; each other one keeps another item, so one
-- more than there are items are enough.
def protectLoop (index : Bytes → Option Nat) : Nat → List PlanItem → Except Fault (List PlanItem)
  | 0,_ => .error .endless
  | passes+1,items =>
    let (items,changed) := protectPass index (List.range items.length) items
    if changed then protectLoop index passes items else .ok items

def protectKeptAncestors (items : List PlanItem) : Except Fault (List PlanItem) :=
  protectLoop (byID items) (items.length + 1) items

def newestFirst (a b : PlanItem) : Bool :=
  decide ((backupTime b.backup).instant ≤ (backupTime a.backup).instant)

def resolve (values : Values) (clock : Time) (backups : List Backup) (rules : List RetentionRule) (now : Time) :
    Except Fault Plan := do
  let now := if now.isZero then clock.utc else now
  let items := (backups.map (fun backup => (⟨backup,false,[]⟩ : PlanItem))).mergeSort newestFirst
  let items := items.map (fun item => if item.backup.isProtected then keep item .isProtected else item)
  let items ← applyRules values now items rules
  let items ← protectKeptAncestors items
  return ⟨items⟩

end Kronos.Retention
