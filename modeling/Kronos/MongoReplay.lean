import Mathlib.Logic.Function.Basic
import Kronos.JsonValue
import Kronos.StreamReplay

namespace Kronos.MongoReplay
open ByteRange Utf8 JsonValue StreamReplay

-- The documents of a server by database, collection and _id.
abbrev Collections (I : Type) := Bytes × Bytes × I → Option Members

inductive ReplayFault where
  | read (error : Bytes) | unmarshal | duplicateKey
  deriving DecidableEq, Repr

section
-- json.Unmarshal of a payload into a map, and the _id of a document as the
-- server compares it.
variable {I : Type} [DecidableEq I] (unmarshal : Bytes → Option Members) (identity : Members → I)

def insertOne (db coll : Bytes) (doc : Members) (state : Collections I) : Except ReplayFault (Collections I) :=
  if (state (db,coll,identity doc)).isSome then .error .duplicateKey
  else .ok (Function.update state (db,coll,identity doc) (some doc))

-- The comma-ok assertions of a map's value.
def textAt (members : Members) (key : Bytes) : Option Bytes :=
  match members.lookup key with
  | some (.str text) => some text
  | _ => none

def mapAt (members : Members) (key : Bytes) : Option Members :=
  match members.lookup key with
  | some (.obj found) => some found
  | _ => none

def mongoExecuteChangeEvent (payload : Bytes) (state : Collections I) : Except ReplayFault (Collections I) :=
  match unmarshal payload with
  | none => .error .unmarshal
  | some event =>
    match textAt event (ascii "operationType"),mapAt event (ascii "ns") with
    | some operationType,some ns =>
      let db := (textAt ns (ascii "db")).getD []
      let coll := (textAt ns (ascii "coll")).getD []
      if db = [] ∨ coll = [] then .ok state
      else if operationType ∈ [ascii "insert",ascii "update",ascii "replace"] then
        match mapAt event (ascii "fullDocument") with
        | some doc => insertOne identity db coll doc state
        | none => .ok state
      else .ok state
    | _,_ => .ok state

def mongoReached (point : ReplayTarget) (record : StreamRecord) : Bool :=
  (decide (point.position ≠ []) && decide (point.position ≤ record.position)) || late point record

def mongoNativeReplayStream (point : ReplayTarget) (failure : Option Bytes) :
    List StreamRecord → Collections I → Collections I × Option ReplayFault
  | [],state => (state,failure.map .read)
  | record :: rest,state =>
    if mongoReached point record then (state,none)
    else if record.payload = [] then mongoNativeReplayStream point failure rest state
    else match mongoExecuteChangeEvent unmarshal identity record.payload state with
      | .error fault => (state,some fault)
      | .ok next => mongoNativeReplayStream point failure rest next

-- A change of the source: what it leaves at its place, a document or nothing.
inductive Change (I : Type) where
  | insert (document : Members) | update (document : Members) | replace (document : Members) | delete (id : I)

structure Event (I : Type) where
  db : Bytes
  coll : Bytes
  change : Change I
  named : db ≠ [] ∧ coll ≠ []

def Change.operationType : Change I → Bytes
  | .insert _ => ascii "insert"
  | .update _ => ascii "update"
  | .replace _ => ascii "replace"
  | .delete _ => ascii "delete"

def Change.document : Change I → Option Members
  | .insert document | .update document | .replace document => some document
  | .delete _ => none

def Change.inserts : Change I → Bool
  | .insert _ => true
  | _ => false

def Event.place (event : Event I) : Bytes × Bytes × I :=
  (event.db,event.coll,match event.change with
    | .insert document | .update document | .replace document => identity document
    | .delete id => id)

def Event.apply (state : Collections I) (event : Event I) : Collections I :=
  Function.update state (event.place identity) event.change.document

-- An insert finds its place free, every other change finds a document there.
def Valid : Collections I → List (Event I) → Prop
  | _,[] => True
  | state,event :: rest =>
    (event.change.inserts = (state (event.place identity)).isNone) ∧ Valid (event.apply identity state) rest

structure Carries (record : StreamRecord) (event : Event I) : Prop where
  solid : record.payload ≠ []
  read : ∃ members ns, unmarshal record.payload = some members ∧
    textAt members (ascii "operationType") = some event.change.operationType ∧
    mapAt members (ascii "ns") = some ns ∧ textAt ns (ascii "db") = some event.db ∧
    textAt ns (ascii "coll") = some event.coll ∧
    ∀ document, event.change.document = some document → mapAt members (ascii "fullDocument") = some document

variable {unmarshal identity}

theorem execute_carried (carries : Carries unmarshal record event) (state : Collections I) :
    mongoExecuteChangeEvent unmarshal identity record.payload state =
      match event.change with
      | .delete _ => .ok state
      | _ =>
        if (state (event.place identity)).isSome then .error .duplicateKey else .ok (event.apply identity state) := by
  obtain ⟨_,_,unmarshalled,operation,space,db,coll,full⟩ := carries.read
  simp only [mongoExecuteChangeEvent,unmarshalled,operation,space,db,coll,Option.getD_some,event.named.1,
    event.named.2,or_self,if_false]
  cases change : event.change with
  | delete => exact if_neg (show ascii "delete" ∉ _ by decide)
  | insert document | update document | replace document =>
    rw [full document (by rw [change]; rfl)]
    simp only [Change.operationType,insertOne,Event.apply,Event.place,Change.document,change]
    exact if_pos (by decide)

theorem replay_carried (carries : Carries unmarshal record event) (rest : List StreamRecord) (state : Collections I) :
    mongoNativeReplayStream unmarshal identity ⟨[],none⟩ none (record :: rest) state =
      match mongoExecuteChangeEvent unmarshal identity record.payload state with
      | .error fault => (state,some fault)
      | .ok next => mongoNativeReplayStream unmarshal identity ⟨[],none⟩ none rest next := by
  rw [mongoNativeReplayStream,if_neg (by simp [mongoReached,late]),if_neg carries.solid]

-- The replica holds a document wherever the source does, and where the source
-- has lost one it never gets it again: the insert that would bring it back fails.
def Stale (source replica : Collections I) : Prop := ∃ place, source place = none ∧ replica place ≠ none

theorem replayed (covers : ∀ place, replica place = none → source place = none) (valid : Valid identity source events)
    (carried : List.Forall₂ (Carries unmarshal) records events)
    (done : mongoNativeReplayStream unmarshal identity ⟨[],none⟩ none records replica = (last,none))
    (stale : Stale source replica ∨ ∃ event ∈ events, event.change.inserts = false) :
    Stale (events.foldl (Event.apply identity) source) last := by
  induction carried generalizing source replica with
  | nil =>
    obtain rfl : replica = last := congrArg Prod.fst done
    simpa using stale
  | @cons record event records events carries _ ih =>
    obtain ⟨fits,later⟩ := valid
    rw [replay_carried carries,execute_carried carries] at done
    cases free : replica (event.place identity) with
    | none =>
      -- The place is free in the source as well, so the change is an insert.
      rw [covers _ free,Option.isNone_none] at fits
      cases change : event.change with
      | update | replace | delete => rw [change] at fits; cases fits
      | insert document =>
        simp only [change,free,Option.isSome_none,Bool.false_eq_true,if_false] at done
        refine ih (fun place none => ?_) later done ?_
        · by_cases same : place = event.place identity
          · simp [Event.apply,same,change,Change.document] at none
          · simp only [Event.apply,Function.update_of_ne same] at none ⊢
            exact covers place none
        · rcases stale with ⟨place,lost,kept⟩ | ⟨other,member,changes⟩
          · have apart : place ≠ event.place identity := fun same => kept (same ▸ free)
            exact .inl ⟨place,by simp [Event.apply,apart,lost],by simp [Event.apply,apart,kept]⟩
          · rcases List.mem_cons.mp member with rfl | member
            · rw [fits] at changes; cases changes
            · exact .inr ⟨other,member,changes⟩
    | some document =>
      cases change : event.change with
      | insert | update | replace => simp [change,free] at done
      | delete =>
        simp only [change] at done
        refine ih (fun place none => ?_) later done (.inl ⟨event.place identity,?_,by simp [free]⟩)
        · have apart : place ≠ event.place identity := by
            intro same
            rw [same,free] at none
            cases none
          rw [Event.apply,Function.update_of_ne apart]
          exact covers place none
        · simp [Event.apply,change,Change.document]

theorem inserts_replayed (valid : Valid identity state events)
    (carried : List.Forall₂ (Carries unmarshal) records events)
    (inserts : ∀ event ∈ events, event.change.inserts = true) :
    mongoNativeReplayStream unmarshal identity ⟨[],none⟩ none records state =
      (events.foldl (Event.apply identity) state,none) := by
  induction carried generalizing state with
  | nil => rfl
  | @cons record event records events carries _ ih =>
    obtain ⟨fits,later⟩ := valid
    rw [inserts event List.mem_cons_self] at fits
    rw [replay_carried carries,execute_carried carries,List.foldl_cons]
    cases change : event.change with
    | update | replace | delete =>
      have insert := inserts event List.mem_cons_self
      rw [change] at insert
      cases insert
    | insert =>
      have free : (state (event.place identity)).isSome = false := by simpa using fits.symm
      simp only [free,Bool.false_eq_true,if_false]
      exact ih later (fun event member => inserts event (List.mem_cons_of_mem _ member))

theorem replay_exact_iff_inserts (state : Collections I) (events : List (Event I)) (records : List StreamRecord)
    (valid : Valid identity state events) (carried : List.Forall₂ (Carries unmarshal) records events) :
    mongoNativeReplayStream unmarshal identity ⟨[],none⟩ none records state =
        (events.foldl (Event.apply identity) state,none) ↔
      ∀ event ∈ events, event.change.inserts = true := by
  refine ⟨fun done event member => ?_,inserts_replayed valid carried⟩
  cases inserts : event.change.inserts with
  | true => rfl
  | false =>
    obtain ⟨_,lost,kept⟩ := replayed (fun _ => id) valid carried done (.inr ⟨event,member,inserts⟩)
    exact absurd lost kept
end

def sampleDocument (id : UInt8) : Members := [(ascii "_id",.str [id])]

def sampleEvent (known : Bool) (id : UInt8) : Event (Option Bytes) :=
  ⟨ascii "d",ascii "c",if known then .update (sampleDocument id) else .insert (sampleDocument id),by decide⟩

def sampleRead (known : Bool) (payload : Bytes) : Option Members := payload.head?.map fun id =>
  [(ascii "fullDocument",.obj (sampleDocument id)),
    (ascii "ns",.obj [(ascii "coll",.str (ascii "c")),(ascii "db",.str (ascii "d"))]),
    (ascii "operationType",.str (sampleEvent known id).change.operationType)]

theorem sample_carries (known : Bool) (id : UInt8) :
    Carries (sampleRead known) ⟨[],none,[id]⟩ (sampleEvent known id) := by
  refine ⟨List.cons_ne_nil _ _,⟨_,_,rfl,?_,rfl,rfl,rfl,fun document shown => ?_⟩⟩
  · cases known <;> rfl
  · cases known <;> exact shown

theorem two_inserts_replayed : mongoNativeReplayStream (sampleRead false) (textAt · (ascii "_id")) ⟨[],none⟩ none
      [⟨[],none,[1]⟩,⟨[],none,[2]⟩] (fun _ => none) =
    ([sampleEvent false 1,sampleEvent false 2].foldl (Event.apply (textAt · (ascii "_id"))) (fun _ => none),none) :=
  (replay_exact_iff_inserts (fun _ => none) [sampleEvent false 1,sampleEvent false 2]
    [⟨[],none,[1]⟩,⟨[],none,[2]⟩] ⟨rfl,rfl,trivial⟩
      (.cons (sample_carries false 1) (.cons (sample_carries false 2) .nil))).mpr (by decide)

theorem update_refused : (mongoNativeReplayStream (sampleRead true) (textAt · (ascii "_id")) ⟨[],none⟩ none
    [⟨[],none,[1]⟩] (fun _ => some (sampleDocument 1))).2 = some .duplicateKey := by
  rw [replay_carried (sample_carries true 1),execute_carried (sample_carries true 1)]
  rfl

end Kronos.MongoReplay
