import Kronos.GoJson
import Kronos.Hex
import Kronos.JsonStruct
import Kronos.Strings

namespace Kronos.AuditLog
open ByteRange Utf8 JsonString JsonText JsonValue GoJson JsonStruct Decimal Hex SortedRun

-- An event as the log handles it, its metadata as the JSON it is written with
-- and its time as the text that stands for it.
structure AuditEvent where
  seq : Nat
  id : Bytes
  actorID : Bytes
  action : Bytes
  resourceType : Bytes
  resourceID : Bytes
  metadata : Members
  occurredAt : Bytes
  prevHash : Bytes
  hash : Bytes

namespace AuditEvent

def zero : AuditEvent := ⟨0,[],[],[],[],[],[],zeroInstant,[],[]⟩

inductive Field
  | seq | id | actorID | action | resourceType | resourceID | metadata | occurredAt | prevHash | hash
  deriving DecidableEq,Repr

def Field.name : Field → Bytes
  | .seq => ascii "seq"
  | .id => ascii "id"
  | .actorID => ascii "actor_id"
  | .action => ascii "action"
  | .resourceType => ascii "resource_type"
  | .resourceID => ascii "resource_id"
  | .metadata => ascii "metadata"
  | .occurredAt => ascii "occurred_at"
  | .prevHash => ascii "prev_hash"
  | .hash => ascii "hash"

def value (event : AuditEvent) : Field → Option Json
  | .seq => some (.num (decimal event.seq))
  | .id => some (.str event.id)
  | .actorID => omitEmpty event.actorID
  | .action => some (.str event.action)
  | .resourceType => some (.str event.resourceType)
  | .resourceID => omitEmpty event.resourceID
  | .metadata => if event.metadata.isEmpty then none else some (.obj event.metadata)
  | .occurredAt => some (.str event.occurredAt)
  | .prevHash => omitEmpty event.prevHash
  | .hash => some (.str event.hash)

def readUint (text : Bytes) : Option Nat :=
  if decimal (Decimal.value text) = text ∧ Decimal.value text < 2^64 then some (Decimal.value text) else none

def assign (scalars : Scalars) (event : AuditEvent) : Field → Json → Option AuditEvent
  | .metadata,.null => some {event with metadata := []}
  | _,.null => some event
  | .seq,.num text => (readUint text).map (fun seq => {event with seq})
  | .id,.str token => (unquote token).map (fun id => {event with id})
  | .actorID,.str token => (unquote token).map (fun actorID => {event with actorID})
  | .action,.str token => (unquote token).map (fun action => {event with action})
  | .resourceType,.str token => (unquote token).map (fun resourceType => {event with resourceType})
  | .resourceID,.str token => (unquote token).map (fun resourceID => {event with resourceID})
  | .metadata,.obj members => (genericMembers scalars members).map
      (fun read => {event with metadata := putAll Prod.fst event.metadata read})
  | .occurredAt,.str token => (scalars.instant token).map (fun occurredAt => {event with occurredAt})
  | .prevHash,.str token => (unquote token).map (fun prevHash => {event with prevHash})
  | .hash,.str token => (unquote token).map (fun hash => {event with hash})
  | _,_ => none

def Field.all : List Field :=
  [.seq,.id,.actorID,.action,.resourceType,.resourceID,.metadata,.occurredAt,.prevHash,.hash]

def layout (scalars : Scalars) : Layout AuditEvent Field where
  fields := Field.all
  name := Field.name
  value := value
  assign := assign scalars

theorem Field.all_distinct : (Field.all.map (fun field => foldName field.name)).Nodup := by decide

theorem Field.all_valid : ∀ field ∈ Field.all, Valid field.name := by decide

theorem layout_named (scalars : Scalars) : (layout scalars).Named := ⟨Field.all_distinct,Field.all_valid⟩

end AuditEvent

def marshalEvent (scalars : Scalars) (event : AuditEvent) : Bytes :=
  write compact 0 (quoteAll (.obj ((AuditEvent.layout scalars).members event)))

def unmarshalEvent (scalars : Scalars) (data : Bytes) : Option AuditEvent :=
  match decode data with
  | some (.obj members) => (AuditEvent.layout scalars).readMembers AuditEvent.zero members
  | some .null => some AuditEvent.zero
  | _ => none

def AuditEvent.reread (event : AuditEvent) (metadata : Members) : AuditEvent where
  seq := event.seq
  id := repair event.id
  actorID := repair event.actorID
  action := repair event.action
  resourceType := repair event.resourceType
  resourceID := repair event.resourceID
  metadata := metadata
  occurredAt := event.occurredAt
  prevHash := repair event.prevHash
  hash := repair event.hash

structure AuditEvent.Writable (scalars : Scalars) (event : AuditEvent) : Prop where
  seq : event.seq < 2^64
  metadata : WellformedMembers (quoteMembers event.metadata)
  instant : scalars.instant event.occurredAt = some event.occurredAt

variable {scalars : Scalars}

theorem AuditEvent.readUint_decimal (small : n < 2^64) : readUint (decimal n) = some n := by
  simp only [readUint,value_decimal,small,and_self,if_true]

section
variable (event acc : AuditEvent)

theorem AuditEvent.read_seq (small : event.seq < 2^64) :
    (layout scalars).readField event acc .seq = some {acc with seq := event.seq} := by
  change (readUint (decimal event.seq)).map _ = _
  rw [readUint_decimal small]
  rfl

theorem AuditEvent.read_id : (layout scalars).readField event acc .id = some {acc with id := repair event.id} :=
  Layout.readField_str (fun id => {acc with id}) rfl (fun _ => rfl)

theorem AuditEvent.read_actorID (blank : acc.actorID = []) :
    (layout scalars).readField event acc .actorID = some {acc with actorID := repair event.actorID} :=
  Layout.readField_optional (fun actorID => {acc with actorID}) rfl (fun _ => rfl) (by rw [← blank])

theorem AuditEvent.read_action :
    (layout scalars).readField event acc .action = some {acc with action := repair event.action} :=
  Layout.readField_str (fun action => {acc with action}) rfl (fun _ => rfl)

theorem AuditEvent.read_resourceType : (layout scalars).readField event acc .resourceType =
    some {acc with resourceType := repair event.resourceType} :=
  Layout.readField_str (fun resourceType => {acc with resourceType}) rfl (fun _ => rfl)

theorem AuditEvent.read_resourceID (blank : acc.resourceID = []) : (layout scalars).readField event acc .resourceID =
      some {acc with resourceID := repair event.resourceID} :=
  Layout.readField_optional (fun resourceID => {acc with resourceID}) rfl (fun _ => rfl)
    (by rw [← blank])

theorem AuditEvent.read_metadata (blank : acc.metadata = []) : (layout scalars).readField event acc .metadata =
      (genericMembers scalars (quoteMembers event.metadata)).map
        (fun read => {acc with metadata := putAll Prod.fst [] read}) := by
  cases shown : event.metadata with
  | nil =>
    have left_out : (layout scalars).value event .metadata = none := by
      change (if event.metadata.isEmpty then none else some (Json.obj event.metadata)) = none
      rw [shown]
      rfl
    rw [Layout.readField,left_out]
    change some acc = some {acc with metadata := []}
    rw [← blank]
  | cons member rest =>
    have written : (layout scalars).value event .metadata = some (.obj (member :: rest)) := by
      change (if event.metadata.isEmpty then none else some (Json.obj event.metadata)) = _
      rw [shown]
      rfl
    rw [Layout.readField,written,← blank]
    rfl

theorem AuditEvent.read_occurredAt (instant : scalars.instant event.occurredAt = some event.occurredAt) :
    (layout scalars).readField event acc .occurredAt =
      some {acc with occurredAt := event.occurredAt} := by
  change (scalars.instant (quote event.occurredAt)).map _ = _
  rw [scalars.instant_plain _ _ instant,instant]
  rfl

theorem AuditEvent.read_prevHash (blank : acc.prevHash = []) :
    (layout scalars).readField event acc .prevHash = some {acc with prevHash := repair event.prevHash} :=
  Layout.readField_optional (fun prevHash => {acc with prevHash}) rfl (fun _ => rfl) (by rw [← blank])

theorem AuditEvent.read_hash : (layout scalars).readField event acc .hash = some {acc with hash := repair event.hash} :=
  Layout.readField_str (fun hash => {acc with hash}) rfl (fun _ => rfl)

end

theorem AuditEvent.read_fields (writable : event.Writable scalars) :
    (layout scalars).readFields event zero (layout scalars).fields =
      (genericMembers scalars (quoteMembers event.metadata)).map
        (fun read => event.reread (putAll Prod.fst [] read)) := by
  change (layout scalars).readFields event zero [.seq,.id,.actorID,.action,.resourceType,.resourceID,
    .metadata,.occurredAt,.prevHash,.hash] = _
  rw [Layout.readFields_cons (read_seq event _ writable.seq),Layout.readFields_cons (read_id event _),
    Layout.readFields_cons (read_actorID event _ rfl),Layout.readFields_cons (read_action event _),
    Layout.readFields_cons (read_resourceType event _),
    Layout.readFields_cons (read_resourceID event _ rfl),Layout.readFields,
    read_metadata event _ rfl]
  cases genericMembers scalars (quoteMembers event.metadata) with
  | none => rfl
  | some =>
    change (layout scalars).readFields event _ [.occurredAt,.prevHash,.hash] = _
    rw [Layout.readFields_cons (read_occurredAt event _ writable.instant),
      Layout.readFields_cons (read_prevHash event _ rfl),Layout.readFields_cons (read_hash event _)]
    rfl

theorem AuditEvent.value_wellformed {event : AuditEvent} (writable : event.Writable scalars)
    (field : Field) (shown : Json) (written : event.value field = some shown) : Wellformed (quoteAll shown) := by
  have text : ∀ t : Bytes, some (Json.str t) = some shown → Wellformed (quoteAll shown) := by
    intro t same
    obtain rfl := Option.some.inj same
    exact quote_token t
  have maybe : ∀ t : Bytes, omitEmpty t = some shown → Wellformed (quoteAll shown) := by
    intro t same
    unfold omitEmpty at same
    split at same
    · cases same
    · exact text t same
  cases field with
  | seq =>
    obtain rfl := Option.some.inj written
    exact decimal_numeral event.seq
  | metadata =>
    unfold value at written
    dsimp only at written
    split at written
    · cases written
    · obtain rfl := Option.some.inj written
      exact writable.metadata
  | actorID | resourceID | prevHash => exact maybe _ written
  | id | action | resourceType | occurredAt | hash => exact text _ written

theorem AuditEvent.members_wellformed (writable : event.Writable scalars) :
    Wellformed (quoteAll (.obj ((layout scalars).members event))) :=
  Layout.members_wellformed event (fun field _ => value_wellformed writable field)

theorem unmarshal_marshal (writable : event.Writable scalars) : unmarshalEvent scalars (marshalEvent scalars event) =
      (genericMembers scalars (quoteMembers event.metadata)).map
        (fun read => event.reread (putAll Prod.fst [] read)) := by
  rw [unmarshalEvent,marshalEvent,decode_write compact _ (AuditEvent.members_wellformed writable)]
  exact (Layout.readMembers_members (AuditEvent.layout_named scalars) event _).trans
    (AuditEvent.read_fields writable)

def hashEvent (scalars : Scalars) (sum : Bytes → Bytes) (event : AuditEvent) : Bytes :=
  hexText (sum (marshalEvent scalars {event with hash := []}))

-- What the event given to Append holds; an empty time or id is filled in.
structure Submission where
  id : Bytes
  actorID : Bytes
  action : Bytes
  resourceType : Bytes
  resourceID : Bytes
  metadata : List (Bytes × GoValue)
  occurredAt : Bytes

-- One call of Append with what the clock, the id source, the caller's context
-- and the store answer to it.
structure Call (scalars : Scalars) where
  event : Submission
  canceled : Bool
  now : Bytes
  fresh : Option Bytes
  refused : Bool
  metadata_proper : Proper scalars (.map event.metadata)
  now_instant : scalars.instant now = some now
  occurredAt_instant : event.occurredAt = [] ∨ scalars.instant event.occurredAt = some event.occurredAt
  fresh_valid : ∀ id, fresh = some id → Valid id

theorem none_valid (id : Bytes) (never : none = some id) : Valid id := by cases never

inductive Fault
  | canceled | actionRequired | resourceTypeRequired | idUnavailable | unsupportedMetadata | invalidSequence | store
  | unreadable | sequence (want got : Nat) | previousHash (seq : Nat) | hash (seq : Nat)
  deriving DecidableEq,Repr

-- The two buckets: events by their keys, and the last sequence and hash.
structure LogState where
  events : List (Bytes × Bytes)
  lastSeq : Option Bytes
  lastHash : Option Bytes

def LogState.empty : LogState := ⟨[],none,none⟩

def seqBytes (seq : Nat) : Bytes := (putLE 8 seq).reverse

def seqKeyBytes (seq : Nat) : Bytes := padded 20 seq

def readSeq (log : LogState) : Except Fault Nat :=
  match log.lastSeq with
  | none => .ok 0
  | some data => if data.length = 8 then .ok (getLE data.reverse) else .error .invalidSequence

def readHash (log : LogState) : Bytes := log.lastHash.getD []

def eventID (call : Call scalars) : Except Fault Bytes :=
  if Strings.blank call.event.id then
    match call.fresh with
    | some id => .ok id
    | none => .error .idUnavailable
  else .ok call.event.id

def occurredAt (call : Call scalars) : Bytes :=
  if call.event.occurredAt = [] then call.now else call.event.occurredAt

def append (sum : Bytes → Bytes) (call : Call scalars) (log : LogState) :
    Except Fault (AuditEvent × LogState) := do
  if call.canceled then throw .canceled
  if call.event.action = [] then throw .actionRequired
  if call.event.resourceType = [] then throw .resourceTypeRequired
  let id ← eventID call
  let lastSeq ← readSeq log
  match shapeMembers call.event.metadata with
  | none => throw .unsupportedMetadata
  | some metadata =>
    let unhashed : AuditEvent := {
      seq := (lastSeq + 1) % 2^64
      id := id
      actorID := call.event.actorID
      action := call.event.action
      resourceType := call.event.resourceType
      resourceID := call.event.resourceID
      metadata := metadata
      occurredAt := occurredAt call
      prevHash := readHash log
      hash := [] }
    let event := {unhashed with hash := hashEvent scalars sum unhashed}
    if call.refused then throw .store
    return (event,{
      events := put Prod.fst log.events (seqKeyBytes event.seq,marshalEvent scalars event)
      lastSeq := some (seqBytes event.seq)
      lastHash := some event.hash })

def readEvents (scalars : Scalars) : List Bytes → Except Fault (List AuditEvent)
  | [] => .ok []
  | data :: rest =>
    match unmarshalEvent scalars data with
    | none => .error .unreadable
    | some event => do
      let events ← readEvents scalars rest
      return event :: events

-- Bucket keys are scanned from the byte 1 on; a positive limit cuts the list.
def list (scalars : Scalars) (limit : Int) (log : LogState) : Except Fault (List AuditEvent) :=
  let stored := (log.events.filter (fun entry => decide ([1] ≤ entry.1))).map Prod.snd
  readEvents scalars (if 0 < limit then stored.take limit.toNat else stored)

def verifyFrom (scalars : Scalars) (sum : Bytes → Bytes) (count : Nat) (previousHash : Bytes) :
    List AuditEvent → Except Fault Unit
  | [] => .ok ()
  | event :: rest =>
    let wantSeq := (count + 1) % 2^64
    if event.seq ≠ wantSeq then .error (.sequence wantSeq event.seq)
    else if event.prevHash ≠ previousHash then .error (.previousHash event.seq)
    else if event.hash ≠ hashEvent scalars sum event then .error (.hash event.seq)
    else verifyFrom scalars sum (count+1) event.hash rest

def verify (scalars : Scalars) (sum : Bytes → Bytes) (log : LogState) : Except Fault Unit := do
  let events ← list scalars 0 log
  verifyFrom scalars sum 0 [] events

def appendAll (sum : Bytes → Bytes) : List (Call scalars) → LogState → Except Fault LogState
  | [],log => .ok log
  | call :: rest,log => do
    let (_,log) ← append sum call log
    appendAll sum rest log

end Kronos.AuditLog
