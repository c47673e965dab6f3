import Kronos.Effect
import Kronos.AuditLog

namespace Kronos.AuditAccept
open Effect ByteRange Utf8 JsonText JsonValue GoJson JsonStruct Decimal Hex SortedRun AuditLog

variable {scalars : Scalars} {sum : Bytes → Bytes}

structure Stable (scalars : Scalars) (event : AuditEvent) : Prop where
  id : Valid event.id
  actorID : Valid event.actorID
  action : Valid event.action
  resourceType : Valid event.resourceType
  resourceID : Valid event.resourceID
  metadata : Plain scalars (.obj event.metadata)

theorem metadata_agree {written read : Members}
    (same : (if read.isEmpty then none else some (Json.obj read)).map quoteAll =
      (if written.isEmpty then none else some (Json.obj written)).map quoteAll) :
    quoteAll (.obj read) = quoteAll (.obj written) := by
  cases read with
  | nil =>
    cases written with
    | nil => rfl
    | cons => cases same
  | cons =>
    cases written with
    | nil => cases same
    | cons => exact Option.some.inj same

theorem writable_unhashed {event : AuditEvent} (writable : event.Writable scalars) :
    ({event with hash := []} : AuditEvent).Writable scalars :=
  ⟨writable.seq,writable.metadata,writable.instant⟩

theorem writable_reread {event : AuditEvent} (writable : event.Writable scalars) {read : Members}
    (plain : Plain scalars (.obj read)) : (event.reread read).Writable scalars :=
  ⟨writable.seq,plain_wellformed (.obj read) plain,writable.instant⟩

theorem marshalEvent_agree (one : left.Writable scalars) (other : right.Writable scalars)
    (same : marshalEvent scalars left = marshalEvent scalars right) : ∀ field ∈ AuditEvent.Field.all,
      (left.value field).map quoteAll = (right.value field).map quoteAll := by
  have documents := write_injective compact (AuditEvent.members_wellformed one)
    (AuditEvent.members_wellformed other) same
  exact Layout.fields_agree (AuditEvent.layout_named scalars) (Json.obj.inj documents)

-- The hash over the event that was read is the hash over the event that was
-- written exactly when reading changes nothing.
theorem reread_hash_iff (collisionFree : Function.Injective sum) (writable : event.Writable scalars)
    (chained : Valid event.prevHash) {read : Members}
    (taken : genericMembers scalars (quoteMembers event.metadata) = some read) :
    hashEvent scalars sum (event.reread (putAll Prod.fst [] read)) = hashEvent scalars sum event ↔
      Stable scalars event := by
  have object : generic scalars (quoteAll (.obj event.metadata)) = some (.obj (putAll Prod.fst [] read)) := by
    rw [quoteAll,generic,taken]
    rfl
  constructor
  · intro same
    have texts := collisionFree (hexText_injective same)
    have agree := marshalEvent_agree
      (writable_unhashed (writable_reread writable (generic_reads_plain _ _ object)))
      (writable_unhashed writable) texts
    exact {
      id := Layout.str_agree (agree .id (by decide))
      actorID := Layout.omitEmpty_agree (agree .actorID (by decide))
      action := Layout.str_agree (agree .action (by decide))
      resourceType := Layout.str_agree (agree .resourceType (by decide))
      resourceID := Layout.omitEmpty_agree (agree .resourceID (by decide))
      metadata := plain_of_stable _ _ object (metadata_agree (agree .metadata (by decide))) }
  · intro stable
    have whole := generic_plain _ stable.metadata
    rw [object] at whole
    rw [Json.obj.inj (Option.some.inj whole)]
    have unhashed : ({event.reread event.metadata with hash := []} : AuditEvent) = {event with hash := []} := by
      rw [AuditEvent.reread,stable.id.repair,stable.actorID.repair,stable.action.repair,
        stable.resourceType.repair,stable.resourceID.repair,chained.repair]
    rw [hashEvent,hashEvent,unhashed]

def Linked (scalars : Scalars) (sum : Bytes → Bytes) : Nat → Bytes → List AuditEvent → Prop
  | _,_,[] => True
  | count,previousHash,event :: rest =>
    event.seq = (count + 1) % 2^64 ∧ event.prevHash = previousHash ∧ event.hash = hashEvent scalars sum event ∧
      Linked scalars sum (count+1) event.hash rest

def lastHash (previousHash : Bytes) (events : List AuditEvent) : Bytes :=
  events.foldl (fun _ event => event.hash) previousHash

theorem hashEvent_valid (event : AuditEvent) : Valid (hashEvent scalars sum event) := hexText_valid _

theorem Linked.seq_bounds (linked : Linked scalars sum count previousHash events) :
    ∀ event ∈ events, event.seq ≤ count + events.length := by
  induction events generalizing count previousHash with
  | nil => intro event member; cases member
  | cons _ _ ih =>
    obtain ⟨_,_,_,later⟩ := linked
    intro event member
    rw [List.length_cons]
    rcases List.mem_cons.mp member with rfl | old
    · omega
    · have bound := ih later event old
      omega

theorem Linked.snoc (linked : Linked scalars sum count previousHash events)
    (seq : event.seq = (count + events.length + 1) % 2^64) (chained : event.prevHash = lastHash previousHash events)
    (hashed : event.hash = hashEvent scalars sum event) :
    Linked scalars sum count previousHash (events ++ [event]) := by
  induction events generalizing count previousHash with
  | nil => exact ⟨seq,chained,hashed,trivial⟩
  | cons _ _ ih =>
    obtain ⟨first,back,own,later⟩ := linked
    refine ⟨first,back,own,ih later ?_ chained⟩
    rw [List.length_cons] at seq
    omega

theorem verifyFrom_linked {events : List AuditEvent} : verifyFrom scalars sum count previousHash events = .ok () ↔
    Linked scalars sum count previousHash events := by
  induction events generalizing count previousHash with
  | nil => exact iff_of_true rfl trivial
  | cons _ _ ih => simp only [verifyFrom,Linked,guard_ok_iff,ne_eq,not_not,ih]

theorem readEvents_iff : readEvents scalars stored = .ok events ↔
    List.Forall₂ (fun data event => unmarshalEvent scalars data = some event) stored events := by
  induction stored generalizing events with
  | nil => simp [readEvents,eq_comm]
  | cons data _ ih =>
    rw [readEvents,List.forall₂_cons_left_iff]
    cases unmarshalEvent scalars data with
    | none => simp
    | some event =>
      change (readEvents scalars _ >>= fun events => .ok (event :: events)) = _ ↔ _
      simp only [bind_ok_iff,ih,Except.ok.injEq,Option.some.injEq,exists_and_left,exists_eq_left',eq_comm (a := events)]

theorem verify_iff : verify scalars sum log = .ok () ↔
    ∃ events, list scalars 0 log = .ok events ∧ Linked scalars sum 0 [] events := by
  simp only [verify,bind_ok_iff,verifyFrom_linked]

theorem reread_unchanged (read : Members) (valid : Valid previousHash) (chained : event.prevHash = previousHash)
    (hashed : event.hash = hashEvent scalars sum event) :
    (event.reread read).prevHash = previousHash ∧ (event.reread read).hash = event.hash := by
  constructor
  · rw [AuditEvent.reread,chained,valid.repair]
  · rw [AuditEvent.reread,hashed,(hashEvent_valid event).repair]

theorem accepts_iff (collisionFree : Function.Injective sum) (valid : Valid previousHash)
    (linked : Linked scalars sum count previousHash events) (writable : ∀ event ∈ events, event.Writable scalars) :
    (∃ read, readEvents scalars (events.map (marshalEvent scalars)) = .ok read ∧
        Linked scalars sum count previousHash read) ↔
      ∀ event ∈ events, Stable scalars event := by
  simp only [readEvents_iff,List.forall₂_map_left_iff]
  induction events generalizing count previousHash with
  | nil => simp [Linked]
  | cons event _ ih =>
    obtain ⟨seq,chained,hashed,later⟩ := linked
    obtain ⟨first,others⟩ := List.forall_mem_cons.mp writable
    rw [List.forall_mem_cons,← ih (hashed ▸ hashEvent_valid event) later others]
    simp only [List.forall₂_cons_left_iff,unmarshal_marshal first]
    have same {read} := @reread_hash_iff _ sum event collisionFree first (chained ▸ valid) read
    have kept := fun read => reread_unchanged read valid chained hashed
    constructor
    · rintro ⟨_,⟨_,rest,back,others,rfl⟩,_,_,own,chain⟩
      obtain ⟨read,taken,rfl⟩ := Option.map_eq_some_iff.mp back
      rw [(kept _).2] at own chain
      exact ⟨(same taken).mp (own.symm.trans hashed),rest,others,chain⟩
    · rintro ⟨stable,rest,others,chain⟩
      have taken := genericMembers_plain _ stable.metadata.2
      refine ⟨_,⟨_,rest,Option.map_eq_some_iff.mpr ⟨_,taken,rfl⟩,others,rfl⟩,seq,(kept _).1,?_⟩
      rw [(kept _).2,(same taken).mpr stable]
      exact ⟨hashed,chain⟩

structure FromCall (call : Call scalars) (event : AuditEvent) : Prop where
  id : Valid event.id ↔ Valid call.event.id
  actorID : event.actorID = call.event.actorID
  action : event.action = call.event.action
  resourceType : event.resourceType = call.event.resourceType
  resourceID : event.resourceID = call.event.resourceID
  metadata : shapeMembers call.event.metadata = some event.metadata
  instant : scalars.instant event.occurredAt = some event.occurredAt

structure Faithful (call : Call scalars) : Prop where
  id : Valid call.event.id
  actorID : Valid call.event.actorID
  action : Valid call.event.action
  resourceType : Valid call.event.resourceType
  resourceID : Valid call.event.resourceID
  metadata : FaithfulMembers scalars call.event.metadata

theorem FromCall.writable {call : Call scalars} (origin : FromCall call event) (small : event.seq < 2^64) :
    event.Writable scalars :=
  ⟨small,shapeMembers_wellformed _ _ call.metadata_proper.2 origin.metadata,origin.instant⟩

theorem FromCall.stable_iff {call : Call scalars} (origin : FromCall call event) :
    Stable scalars event ↔ Faithful call := by
  have shaped : shape (.map call.event.metadata) = some (.obj event.metadata) := by
    rw [shape,origin.metadata]
    rfl
  have plain := plain_shape _ _ call.metadata_proper shaped
  constructor
  · intro stable
    exact ⟨origin.id.mp stable.id,origin.actorID ▸ stable.actorID,origin.action ▸ stable.action,
      origin.resourceType ▸ stable.resourceType,origin.resourceID ▸ stable.resourceID,
      plain.mp stable.metadata⟩
  · intro faithful
    exact ⟨origin.id.mpr faithful.id,origin.actorID ▸ faithful.actorID,origin.action ▸ faithful.action,
      origin.resourceType ▸ faithful.resourceType,origin.resourceID ▸ faithful.resourceID,
      plain.mpr faithful.metadata⟩

structure Appended (sum : Bytes → Bytes) (call : Call scalars) (log : LogState) (event : AuditEvent)
    (log' : LogState) : Prop where
  seq : ∃ last, readSeq log = .ok last ∧ event.seq = (last + 1) % 2^64
  chained : event.prevHash = readHash log
  hashed : event.hash = hashEvent scalars sum event
  origin : FromCall call event
  events : log'.events = put Prod.fst log.events (seqKeyBytes event.seq,marshalEvent scalars event)
  lastSeq : log'.lastSeq = some (seqBytes event.seq)
  lastHash : log'.lastHash = some event.hash

theorem eventID_valid {call : Call scalars} {id : Bytes} (named : eventID call = .ok id) :
    Valid id ↔ Valid call.event.id := by
  unfold eventID at named
  split at named
  · rename_i empty
    have given := Strings.blank_valid empty
    cases source : call.fresh with
    | none => rw [source] at named; cases named
    | some fresh =>
      rw [source] at named
      obtain rfl := Except.ok.inj named
      exact iff_of_true (call.fresh_valid fresh source) given
  · obtain rfl := Except.ok.inj named
    exact Iff.rfl

theorem occurredAt_instant (call : Call scalars) : scalars.instant (occurredAt call) = some (occurredAt call) := by
  unfold occurredAt
  split
  · exact call.now_instant
  · rename_i given
    exact call.occurredAt_instant.resolve_left given

theorem append_exact {call : Call scalars} {log log' : LogState} {event : AuditEvent}
    (accepted : append sum call log = .ok (event,log')) : Appended sum call log event log' := by
  have stopped (fault : Fault) (next : Unit → Except Fault (AuditEvent × LogState)) :
      (.error fault >>= next) = .error fault := rfl
  simp only [append,throw,throwThe,MonadExceptOf.throw,stopped,bind_ok_iff,guard_ok_iff] at accepted
  obtain ⟨_,_,_,id,named,last,counted,accepted⟩ := accepted
  split at accepted
  · cases accepted
  · rename_i shaped
    obtain ⟨_,accepted⟩ := guard_ok_iff.mp accepted
    obtain ⟨rfl,rfl⟩ := Prod.mk.inj (Except.ok.inj accepted)
    exact ⟨⟨last,counted,rfl⟩,rfl,rfl,⟨eventID_valid named,rfl,rfl,rfl,rfl,shaped,occurredAt_instant call⟩,rfl,rfl,rfl⟩

-- The log after a list of accepted calls, as long as the sequence has not
-- come round.
structure Recorded (sum : Bytes → Bytes) (calls : List (Call scalars)) (log : LogState)
    (events : List AuditEvent) : Prop where
  origin : List.Forall₂ FromCall calls events
  linked : Linked scalars sum 0 [] events
  stored : log.events = events.map (fun event => (seqKeyBytes event.seq,marshalEvent scalars event))
  lastSeq : readSeq log = .ok events.length
  lastHash : readHash log = AuditAccept.lastHash [] events

theorem readSeq_seqBytes (stored : log.lastSeq = some (seqBytes seq)) (small : seq < 2^64) : readSeq log = .ok seq := by
  have size : (seqBytes seq).length = 8 := by rw [seqBytes,List.length_reverse,putLE_length]
  rw [readSeq,stored]
  simp only [size,if_true]
  rw [seqBytes,List.reverse_reverse,getLE_putLE_small 8 seq small]

theorem seqKeyBytes_lt (one : a < 2^64) (other : b < 2^64) :
    seqKeyBytes a < seqKeyBytes b ↔ a < b := padded_lt 20 (by omega) (by omega)

theorem recorded_empty : Recorded sum ([] : List (Call scalars)) LogState.empty [] :=
  ⟨.nil,trivial,rfl,rfl,rfl⟩

theorem Recorded.next {calls : List (Call scalars)} (recorded : Recorded sum calls log events)
    (appended : Appended sum call log event log') : event.seq = (events.length + 1) % 2^64 := by
  obtain ⟨_,counted,next⟩ := appended.seq
  rw [recorded.lastSeq] at counted
  obtain rfl := Except.ok.inj counted
  exact next

theorem Recorded.append {calls : List (Call scalars)} (recorded : Recorded sum calls log events)
    (appended : Appended sum call log event log') (small : events.length + 1 < 2^64) :
    Recorded sum (calls ++ [call]) log' (events ++ [event]) := by
  have next := recorded.next appended
  have seq : event.seq = events.length + 1 := next.trans (Nat.mod_eq_of_lt small)
  have below : ∀ entry ∈ log.events, entry.1 < seqKeyBytes event.seq := by
    intro entry member
    rw [recorded.stored] at member
    obtain ⟨old,present,rfl⟩ := List.mem_map.mp member
    have bound := recorded.linked.seq_bounds old present
    exact (seqKeyBytes_lt (by omega) (by omega)).mpr (by omega)
  have placed := @put_between _ _ _ Prod.fst log.events [] []
    (seqKeyBytes event.seq,marshalEvent scalars event) below (by simp)
  exact {
    origin := List.rel_append recorded.origin (.cons appended.origin .nil)
    linked := recorded.linked.snoc (by rwa [Nat.zero_add]) (appended.chained.trans recorded.lastHash) appended.hashed
    stored := by
      rw [appended.events,List.map_append,← recorded.stored]
      simpa [put] using placed
    lastSeq := by
      rw [readSeq_seqBytes appended.lastSeq (by omega),seq,List.length_append]
      rfl
    lastHash := by
      rw [AuditAccept.lastHash,List.foldl_append,readHash,appended.lastHash]
      rfl }

def Keyed (log : LogState) : Prop := ∀ entry ∈ log.events, ∃ seq < 2^64, entry.1 = seqKeyBytes seq

-- Past 2^64 events the sequence starts again at zero, below every other key.
def Wrapped (scalars : Scalars) (log : LogState) : Prop := ∃ event rest,
  log.events = (seqKeyBytes 0,marshalEvent scalars event) :: rest ∧ event.seq = 0 ∧ event.Writable scalars

section
variable {call : Call scalars} (appended : Appended sum call log event log')
include appended

theorem Appended.small : event.seq < 2^64 := by
  obtain ⟨_,_,next⟩ := appended.seq
  exact next ▸ Nat.mod_lt _ (by decide)

theorem Appended.keyed (keyed : Keyed log) : Keyed log' := by
  intro entry member
  rw [appended.events] at member
  rcases (mem_put Prod.fst).mp member with rfl | ⟨old,_⟩
  · exact ⟨event.seq,appended.small,rfl⟩
  · exact keyed entry old

theorem Appended.wraps (keyed : Keyed log) (zero : event.seq = 0) : Wrapped scalars log' := by
  have none_below : ∀ entry ∈ log.events, ¬ entry.1 < seqKeyBytes 0 := by
    intro entry member below
    obtain ⟨seq,small,same⟩ := keyed entry member
    rw [same] at below
    exact Nat.not_lt_zero _ ((seqKeyBytes_lt small (by decide)).mp below)
  have placed := appended.events
  rw [put,zero,List.filter_eq_nil_iff.mpr (by simpa using none_below),List.nil_append] at placed
  exact ⟨event,_,placed,zero,appended.origin.writable appended.small⟩

theorem Wrapped.append (keyed : Keyed log) (wrapped : Wrapped scalars log) : Wrapped scalars log' := by
  by_cases again : event.seq = 0
  · exact appended.wraps keyed again
  · obtain ⟨first,rest,shape,seq,writable⟩ := wrapped
    have above : seqKeyBytes 0 < seqKeyBytes event.seq :=
      (seqKeyBytes_lt (by decide) appended.small).mpr (Nat.pos_of_ne_zero again)
    have placed := appended.events
    rw [shape,put,List.filter_cons_of_pos (by simpa using above),List.cons_append] at placed
    exact ⟨first,_,placed,seq,writable⟩

end

def Invariant (sum : Bytes → Bytes) (calls : List (Call scalars)) (log : LogState) : Prop :=
  Keyed log ∧ ((calls.length < 2^64 ∧ ∃ events, Recorded sum calls log events) ∨
    (2^64 ≤ calls.length ∧ Wrapped scalars log))

theorem append_preserves {calls : List (Call scalars)} {log log' : LogState} {call : Call scalars}
    {event : AuditEvent} (invariant : Invariant sum calls log)
    (accepted : append sum call log = .ok (event,log')) : Invariant sum (calls ++ [call]) log' := by
  have appended := append_exact accepted
  have size : (calls ++ [call]).length = calls.length + 1 := by rw [List.length_append]; rfl
  obtain ⟨keyed,⟨_,events,recorded⟩ | ⟨_,wrapped⟩⟩ := invariant
  · have same := recorded.origin.length_eq
    have next := recorded.next appended
    refine ⟨appended.keyed keyed,?_⟩
    by_cases full : calls.length + 1 = 2^64
    · exact .inr ⟨by omega,appended.wraps keyed (by omega)⟩
    · exact .inl ⟨by omega,events ++ [event],recorded.append appended (by omega)⟩
  · exact ⟨appended.keyed keyed,.inr ⟨by omega,wrapped.append appended keyed⟩⟩

theorem appendAll_preserves {rest : List (Call scalars)} {calls : List (Call scalars)} {log log' : LogState}
    (invariant : Invariant sum calls log) (accepted : appendAll sum rest log = .ok log') :
    Invariant sum (calls ++ rest) log' := by
  induction rest generalizing calls log with
  | nil =>
    obtain rfl := Except.ok.inj accepted
    rwa [List.append_nil]
  | cons call _ ih =>
    obtain ⟨_,first,accepted⟩ := bind_ok_iff.mp accepted
    have continued := ih (append_preserves invariant first) accepted
    rwa [List.append_assoc] at continued

theorem appendAll_invariant {calls : List (Call scalars)} (accepted : appendAll sum calls LogState.empty = .ok log) :
    Invariant sum calls log := by
  refine @appendAll_preserves _ _ _ [] _ _ ⟨?_,.inl ⟨Nat.two_pow_pos 64,[],recorded_empty⟩⟩ accepted
  intro entry member
  cases member

theorem digit_above_one (n : Nat) : (1 : UInt8) < digit n := by
  rw [UInt8.lt_iff_toNat_lt,digit_toNat]
  change 1 < _
  omega

theorem scanned (seq : Nat) : [1] ≤ seqKeyBytes seq :=
  le_of_lt (List.cons_lt_cons_iff.mpr (.inl (digit_above_one _)))

theorem list_all (keyed : Keyed log) : list scalars 0 log = readEvents scalars (log.events.map Prod.snd) := by
  have every : log.events.filter (fun entry => decide ([1] ≤ entry.1)) = log.events := by
    refine List.filter_eq_self.mpr ?_
    intro entry member
    obtain ⟨seq,_,same⟩ := keyed entry member
    rw [same]
    exact decide_eq_true (scanned seq)
  rw [list,every]
  rfl

theorem Recorded.list {calls : List (Call scalars)} (recorded : Recorded sum calls log events) (keyed : Keyed log) :
    list scalars 0 log = readEvents scalars (events.map (marshalEvent scalars)) := by
  rw [list_all keyed,recorded.stored,List.map_map]
  rfl

theorem related_iff {A B : Type} {R : A → B → Prop} {P : A → Prop} {Q : B → Prop} {left : List A}
    {right : List B} (related : List.Forall₂ R left right) (agree : ∀ a b, R a b → (Q b ↔ P a)) :
    (∀ b ∈ right, Q b) ↔ ∀ a ∈ left, P a := by
  induction related with
  | nil => simp
  | cons head _ ih => rw [List.forall_mem_cons,List.forall_mem_cons,agree _ _ head,ih]

theorem Recorded.writable {calls : List (Call scalars)} (recorded : Recorded sum calls log events)
    (small : events.length < 2^64) : ∀ event ∈ events, event.Writable scalars := by
  have from_call : ∀ event ∈ events, ∃ call : Call scalars, FromCall call event :=
    (@related_iff _ _ _ (fun _ => True) _ _ _ recorded.origin
      (fun call event origin => iff_of_true ⟨call,origin⟩ trivial)).mpr (fun _ _ => trivial)
  intro event member
  obtain ⟨_,origin⟩ := from_call event member
  have bound := recorded.linked.seq_bounds event member
  exact origin.writable (by omega)

theorem Recorded.verifies_iff (collisionFree : Function.Injective sum) {calls : List (Call scalars)}
    (recorded : Recorded sum calls log events) (keyed : Keyed log) (small : events.length < 2^64) :
    verify scalars sum log = .ok () ↔ ∀ call ∈ calls, Faithful call := by
  rw [verify_iff,recorded.list keyed,accepts_iff collisionFree valid_empty recorded.linked (recorded.writable small)]
  exact related_iff recorded.origin (fun _ _ origin => origin.stable_iff)

theorem Wrapped.refused (wrapped : Wrapped scalars log) (keyed : Keyed log) : verify scalars sum log ≠ .ok () := by
  intro clean
  obtain ⟨event,_,shape,zero,writable⟩ := wrapped
  obtain ⟨_,read,chain⟩ := verify_iff.mp clean
  rw [list_all keyed,shape,List.map_cons,readEvents_iff,List.forall₂_cons_left_iff] at read
  obtain ⟨_,_,first,_,rfl⟩ := read
  rw [unmarshal_marshal writable,Option.map_eq_some_iff] at first
  obtain ⟨_,_,rfl⟩ := first
  have one : event.seq = 1 := chain.1
  omega

-- Verify accepts the log of a list of accepted calls exactly when each call's
-- values survive JSON and the sequence has not come round.
theorem verify_accepts_own_log_iff (collisionFree : Function.Injective sum)
    (calls : List (Call scalars)) (log : LogState) (accepted : appendAll sum calls LogState.empty = .ok log) :
    verify scalars sum log = .ok () ↔ (∀ call ∈ calls, Faithful call) ∧ calls.length < 2^64 := by
  obtain ⟨keyed,⟨few,_,recorded⟩ | ⟨many,wrapped⟩⟩ := appendAll_invariant accepted
  · have size := recorded.origin.length_eq
    rw [recorded.verifies_iff collisionFree keyed (by rw [← size]; exact few)]
    exact (and_iff_left few).symm
  · refine iff_of_false (wrapped.refused keyed) ?_
    intro ⟨_,few⟩
    omega

def callWith (name : String) (metadata : List (Bytes × GoValue)) (proper : Proper literalScalars (.map metadata)) :
    Call literalScalars where
  event := ⟨ascii name,ascii "agent-1",ascii "job.finished",ascii "job",ascii "j1",metadata,[]⟩
  canceled := false
  now := ascii "2026-01-02T03:04:05Z"
  fresh := none
  refused := false
  metadata_proper := proper
  now_instant := by decide +kernel
  occurredAt_instant := .inl rfl
  fresh_valid := none_valid

def statusCall (name status : String) : Call literalScalars :=
  callWith name [(ascii "status",.str (ascii status))] ⟨List.pairwise_singleton _ _,trivial,trivial⟩

def logOf (sum : Bytes → Bytes) (calls : List (Call literalScalars)) : LogState :=
  match appendAll sum calls LogState.empty with
  | .ok log => log
  | .error _ => LogState.empty

def statusCalls : List (Call literalScalars) := [statusCall "e1" "failed",statusCall "e2" "succeeded"]

theorem status_log_verifies : appendAll id statusCalls LogState.empty = .ok (logOf id statusCalls) ∧
      verify literalScalars id (logOf id statusCalls) = .ok () := by
  have appended : appendAll id statusCalls LogState.empty = .ok (logOf id statusCalls) := rfl
  refine ⟨appended,(verify_accepts_own_log_iff Function.injective_id _ _ appended).mpr ⟨?_,by decide⟩⟩
  have status : Valid (ascii "failed") ∧ Valid (ascii "succeeded") := by decide
  refine List.forall_mem_cons.mpr ⟨?_,List.forall_mem_singleton.mpr ?_⟩
  · exact ⟨by decide,by decide,by decide,by decide,by decide,by decide,status.1,trivial⟩
  · exact ⟨by decide,by decide,by decide,by decide,by decide,by decide,status.2,trivial⟩

-- The metadata of a finished verification job: a report struct, whose fields
-- are not in the order of their names.
def reportCall : Call literalScalars :=
  callWith "e1" [(ascii "verification",.record [(ascii "backup_id",.str (ascii "b1")),
    (ascii "level",.str (ascii "manifest")),(ascii "objects",.int 1),(ascii "chunks",.int 2),
    (ascii "stored_bytes",.int 3)])]
    ⟨List.pairwise_singleton _ _,⟨trivial,trivial,trivial,trivial,trivial,trivial⟩,trivial⟩

def reportLog : LogState := logOf id [reportCall]

theorem verification_report_breaks_chain : appendAll id [reportCall] LogState.empty = .ok reportLog ∧
      verify literalScalars id reportLog = .error (.hash 1) := by
  refine ⟨rfl,?_⟩
  decide +kernel

end Kronos.AuditAccept
