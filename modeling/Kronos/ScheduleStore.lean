import Kronos.SchedulerRunner

namespace Kronos.ScheduleStore
open ByteRange Utf8 Strings Rfc3339 CronExpression WindowExpression Scheduler SchedulerRunner

inductive Refusal
  | notFound | required (label : String) | whitespace (label : String) | tooLong (label : String)
  | character (label : String) (piece : Piece) | backupType (type : Bytes) | expression (cause : Fault)
  deriving DecidableEq

def idCharacter : Piece → Bool
  | .rune [b] => (97 ≤ b && b ≤ 122) || (65 ≤ b && b ≤ 90) || (48 ≤ b && b ≤ 57) ||
      b = 45 || b = 95 || b = 46 || b = 58 || b = 47
  | _ => false

def validateResourceID (label : String) (id : Bytes) : Except Refusal Unit :=
  let value := trimSpace id
  if value = [] then .error (.required label)
  else if value ≠ id then .error (.whitespace label)
  else if 128 < value.length then .error (.tooLong label)
  else match (pieces value).find? (fun piece => !idCharacter piece) with
  | some piece => .error (.character label piece)
  | none => .ok ()

def backupTypes : List Bytes :=
  [ascii "full",ascii "incr",ascii "diff",ascii "stream",ascii "schema"]

def validateExpression (zones : Bytes → Option Zone) (expression : Bytes) : Except Refusal Unit :=
  match parseCron expression with
  | .ok _ => .ok ()
  | .error e => match parseWindow zones expression with
    | .ok _ => .ok ()
    | .error _ => .error (.expression e)

def validateSchedule (zones : Bytes → Option Zone) (schedule : Schedule) : Except Refusal Unit :=
  if blank schedule.id then .error (.required "schedule id")
  else do
    validateResourceID "schedule id" schedule.id
    if schedule.name = [] then .error (.required "schedule name")
    else if blank schedule.targetID then .error (.required "schedule target id")
    else do
      validateResourceID "schedule target id" schedule.targetID
      if blank schedule.storageID then .error (.required "schedule storage id")
      else do
        validateResourceID "schedule storage id" schedule.storageID
        if schedule.backupType = [] then .error (.required "schedule backup type")
        else if schedule.backupType ∉ backupTypes then .error (.backupType schedule.backupType)
        else if schedule.expression = [] then .error (.required "schedule expression")
        else validateExpression zones schedule.expression

def stampTimes (createdAt now : Time) : Time × Time := ((if createdAt.isZero then now else createdAt).utc,now.utc)

-- The schedule a request is stored as: a new one keeps a creation time and an
-- identifier of its own, also an identifier that was used before.
def created (request : Schedule) (freshID : Bytes) (now : Time) : Schedule :=
  let times := stampTimes request.createdAt now
  {request with
    id := if blank request.id then freshID else request.id
    createdAt := times.1
    updatedAt := times.2}

def updated (existing request : Schedule) (id : Bytes) (now : Time) : Schedule :=
  let times := stampTimes existing.createdAt now
  {request with id := id,createdAt := times.1,updatedAt := times.2}

def resumed (existing : Schedule) (paused : Bool) (now : Time) : Schedule :=
  {existing with paused := paused,updatedAt := now.utc}

section
variable (zones : Bytes → Option Zone) (stores : Stores)

def save (schedule : Schedule) : Except Refusal Stores := do
  validateSchedule zones schedule
  return {stores with schedules := stores.schedules.put schedule}

def handleCreateSchedule (request : Schedule) (freshID : Bytes) (now : Time) : Except Refusal Stores :=
  save zones stores (created request freshID now)

def handleUpdateSchedule (id : Bytes) (request : Schedule) (now : Time) : Except Refusal Stores :=
  match stores.schedules.get id with
  | none => .error .notFound
  | some existing => save zones stores (updated existing request id now)

def handleDeleteSchedule (id : Bytes) : Except Refusal Stores :=
  match stores.schedules.get id with
  | none => .error .notFound
  | some _ => .ok {stores with schedules := stores.schedules.delete id}

def handlePauseSchedule (id : Bytes) (paused : Bool) (now : Time) : Except Refusal Stores :=
  match stores.schedules.get id with
  | none => .error .notFound
  | some existing => save zones stores (resumed existing paused now)

end

end Kronos.ScheduleStore
