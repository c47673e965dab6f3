import Mathlib.Data.List.Induction
import Kronos.AuditAccept

namespace Kronos.AuditTamper
open ByteRange Utf8 JsonString JsonValue JsonStruct Hex SortedRun AuditLog AuditAccept

variable {scalars : Scalars} {sum : Bytes → Bytes}

structure Settled (scalars : Scalars) (event : AuditEvent) : Prop where
  stable : Stable scalars event
  seq : event.seq < 2^64
  instant : scalars.instant event.occurredAt = some event.occurredAt
  prevHash : Valid event.prevHash
  hash : Valid event.hash

theorem settled_zero : Settled scalars AuditEvent.zero := by
  exact ⟨⟨valid_empty,valid_empty,valid_empty,valid_empty,valid_empty,List.Pairwise.nil,trivial⟩,
    Nat.two_pow_pos 64,scalars.instant_zero,valid_empty,valid_empty⟩

theorem Settled.writable (settled : Settled scalars event) : event.Writable scalars :=
  ⟨settled.seq,plain_wellformed (.obj event.metadata) settled.stable.metadata,settled.instant⟩

theorem metadata_plain {old members read : Members} (kept : Plain scalars (.obj old))
    (taken : genericMembers scalars members = some read) : Plain scalars (.obj (putAll Prod.fst old read)) := by
  refine ⟨putAll_ascending Prod.fst kept.1 read,(plainMembers_iff _).mpr ?_⟩
  intro entry placed
  rcases mem_putAll Prod.fst placed with before | new
  · exact (plainMembers_iff old).mp kept.2 entry before
  · exact (plainMembers_iff read).mp (genericMembers_reads_plain members read taken) entry new

theorem assign_settled (settled : Settled scalars event) (assigned : event.assign scalars field document = some next) :
    Settled scalars next := by
  obtain ⟨stable,seq,instant,prevHash,hash⟩ := settled
  unfold AuditEvent.assign at assigned
  split at assigned
  · obtain rfl := Option.some.inj assigned
    exact ⟨{stable with metadata := ⟨List.Pairwise.nil,trivial⟩},seq,instant,prevHash,hash⟩
  · obtain rfl := Option.some.inj assigned
    exact ⟨stable,seq,instant,prevHash,hash⟩
  · obtain ⟨_,read,rfl⟩ := Option.map_eq_some_iff.mp assigned
    unfold AuditEvent.readUint at read
    split at read
    · rename_i fits
      obtain rfl := Option.some.inj read
      exact ⟨{stable with},fits.2,instant,prevHash,hash⟩
    · cases read
  · obtain ⟨_,read,rfl⟩ := Option.map_eq_some_iff.mp assigned
    exact ⟨{stable with id := unquote_valid read},seq,instant,prevHash,hash⟩
  · obtain ⟨_,read,rfl⟩ := Option.map_eq_some_iff.mp assigned
    exact ⟨{stable with actorID := unquote_valid read},seq,instant,prevHash,hash⟩
  · obtain ⟨_,read,rfl⟩ := Option.map_eq_some_iff.mp assigned
    exact ⟨{stable with action := unquote_valid read},seq,instant,prevHash,hash⟩
  · obtain ⟨_,read,rfl⟩ := Option.map_eq_some_iff.mp assigned
    exact ⟨{stable with resourceType := unquote_valid read},seq,instant,prevHash,hash⟩
  · obtain ⟨_,read,rfl⟩ := Option.map_eq_some_iff.mp assigned
    exact ⟨{stable with resourceID := unquote_valid read},seq,instant,prevHash,hash⟩
  · obtain ⟨_,read,rfl⟩ := Option.map_eq_some_iff.mp assigned
    exact ⟨{stable with metadata := metadata_plain stable.metadata read},seq,instant,prevHash,hash⟩
  · obtain ⟨_,read,rfl⟩ := Option.map_eq_some_iff.mp assigned
    exact ⟨{stable with},seq,scalars.instant_stable _ _ read,prevHash,hash⟩
  · obtain ⟨_,read,rfl⟩ := Option.map_eq_some_iff.mp assigned
    exact ⟨{stable with},seq,instant,unquote_valid read,hash⟩
  · obtain ⟨_,read,rfl⟩ := Option.map_eq_some_iff.mp assigned
    exact ⟨{stable with},seq,instant,prevHash,unquote_valid read⟩
  · cases assigned

theorem readMembers_settled (members : Members) (settled : Settled scalars event)
    (taken : (AuditEvent.layout scalars).readMembers event members = some next) : Settled scalars next := by
  induction members generalizing event with
  | nil =>
    obtain rfl := Option.some.inj taken
    exact settled
  | cons _ _ ih =>
    simp only [Layout.readMembers,Option.bind_eq_bind,Option.bind_eq_some_iff] at taken
    obtain ⟨_,step,later⟩ := taken
    refine ih ?_ later
    simp only [Layout.readMember,Option.bind_eq_bind,Option.bind_eq_some_iff] at step
    obtain ⟨_,_,assigned⟩ := step
    split at assigned
    · exact assign_settled settled assigned
    · obtain rfl := Option.some.inj assigned
      exact settled

theorem unmarshal_settled (read : unmarshalEvent scalars data = some event) : Settled scalars event := by
  unfold unmarshalEvent at read
  split at read
  · exact readMembers_settled _ settled_zero read
  · obtain rfl := Option.some.inj read
    exact settled_zero
  · cases read

theorem readEvents_settled (read : readEvents scalars stored = .ok events) :
    ∀ event ∈ events, Settled scalars event := by
  induction readEvents_iff.mp read with
  | nil => simp
  | cons first _ ih => exact List.forall_mem_cons.mpr ⟨unmarshal_settled first,ih (readEvents_iff.mpr ‹_›)⟩

def rechain (scalars : Scalars) (sum : Bytes → Bytes) (count : Nat) (previousHash : Bytes) :
    List AuditEvent → List AuditEvent
  | [] => []
  | event :: rest =>
    let linked := {event with seq := (count + 1) % 2^64, prevHash := previousHash}
    let hash := hashEvent scalars sum linked
    {linked with hash} :: rechain scalars sum (count+1) hash rest

theorem rechain_iff {events : List AuditEvent} : rechain scalars sum count previousHash events = events ↔
    Linked scalars sum count previousHash events := by
  induction events generalizing count previousHash with
  | nil => exact iff_of_true rfl trivial
  | cons event _ ih =>
    rw [rechain,List.cons.injEq,Linked]
    constructor
    · rintro ⟨same,later⟩
      have seq : (count + 1) % 2^64 = event.seq := congrArg AuditEvent.seq same
      have chained : previousHash = event.prevHash := congrArg AuditEvent.prevHash same
      have hashed : hashEvent scalars sum _ = event.hash := congrArg AuditEvent.hash same
      rw [hashed] at later
      rw [seq,chained] at hashed
      exact ⟨seq.symm,chained.symm,hashed.symm,ih.mp later⟩
    · rintro ⟨seq,chained,hashed,later⟩
      have linked : ({event with seq := (count + 1) % 2^64, prevHash := previousHash} : AuditEvent) = event := by
        rw [← seq,← chained]
      rw [linked,← hashed]
      exact ⟨rfl,ih.mpr later⟩

theorem lastHash_snoc (previousHash : Bytes) (events : List AuditEvent) (event : AuditEvent) :
    lastHash previousHash (events ++ [event]) = event.hash := by
  rw [lastHash,List.foldl_append]
  rfl

theorem linked_snoc (linked : Linked scalars sum count previousHash (events ++ [event])) :
    Linked scalars sum count previousHash events ∧
      event.prevHash = lastHash previousHash events ∧ event.hash = hashEvent scalars sum event := by
  induction events generalizing count previousHash with
  | nil => exact ⟨trivial,linked.2.1,linked.2.2.1⟩
  | cons _ _ ih =>
    obtain ⟨seq,chained,hashed,later⟩ := linked
    obtain ⟨front,back,own⟩ := ih later
    exact ⟨⟨seq,chained,hashed,front⟩,back,own⟩

theorem linked_lastHash_valid (linked : Linked scalars sum count previousHash events) (valid : Valid previousHash) :
    Valid (lastHash previousHash events) := by
  induction events generalizing count previousHash with
  | nil => exact valid
  | cons head _ ih =>
    obtain ⟨_,_,hashed,later⟩ := linked
    have own : Valid head.hash := hashed ▸ hashEvent_valid head
    exact ih later own

theorem Settled.reads_back (settled : Settled scalars event) :
    unmarshalEvent scalars (marshalEvent scalars event) = some event := by
  have stable := settled.stable
  rw [unmarshal_marshal settled.writable,genericMembers_plain _ stable.metadata.2,Option.map_some,
    @putAll_above _ _ _ Prod.fst [] event.metadata stable.metadata.1,List.nil_append,AuditEvent.reread,
    stable.id.repair,stable.actorID.repair,stable.action.repair,stable.resourceType.repair,
    stable.resourceID.repair,settled.prevHash.repair,settled.hash.repair]

-- An event read from the bucket with the hash of an appended event is that
-- event as the log itself reads it.
theorem same_hash_same_event (collisionFree : Function.Injective sum) {read : AuditEvent}
    (writable : event.Writable scalars) (hashed : event.hash = hashEvent scalars sum event)
    (settled : Settled scalars read) (own : read.hash = hashEvent scalars sum read) (same : read.hash = event.hash) :
    unmarshalEvent scalars (marshalEvent scalars event) = some read := by
  have texts : marshalEvent scalars {read with hash := []} = marshalEvent scalars {event with hash := []} := by
    apply collisionFree
    apply hexText_injective
    exact own.symm.trans (same.trans hashed)
  have bare : Settled scalars {read with hash := []} :=
    ⟨{settled.stable with},settled.seq,settled.instant,settled.prevHash,valid_empty⟩
  have back := bare.reads_back
  rw [texts,unmarshal_marshal (writable_unhashed writable),Option.map_eq_some_iff] at back
  obtain ⟨members,taken,shown⟩ := back
  rw [unmarshal_marshal writable,show genericMembers scalars (quoteMembers event.metadata) = some members from taken]
  have hash : repair event.hash = read.hash := by
    rw [hashed,(hashEvent_valid event).repair,← hashed,same]
  calc some (event.reread (putAll Prod.fst [] members))
      = some {({event with hash := []} : AuditEvent).reread (putAll Prod.fst [] members) with
          hash := repair event.hash} := rfl
    _ = some read := by rw [shown,hash]

theorem hashEvent_nonempty (sized : ∀ data, sum data ≠ []) (event : AuditEvent) : hashEvent scalars sum event ≠ [] := by
  intro empty
  apply sized (marshalEvent scalars {event with hash := []})
  have read := unhex_hexText (sum (marshalEvent scalars {event with hash := []}))
  rw [show hexText (sum (marshalEvent scalars {event with hash := []})) = [] from empty] at read
  exact (Option.some.inj read).symm

-- Two chains with one last hash are one chain: the events agree from the
-- newest back, each carrying the hash of the one before it.
theorem same_last_hash (collisionFree : Function.Injective sum) (sized : ∀ data, sum data ≠ [])
    (written : List AuditEvent) (linked : Linked scalars sum 0 [] written)
    (writable : ∀ event ∈ written, event.Writable scalars) (events : List AuditEvent)
    (settled : ∀ event ∈ events, Settled scalars event) (chain : Linked scalars sum 0 [] events)
    (last : lastHash [] events = lastHash [] written) :
    readEvents scalars (written.map (marshalEvent scalars)) = .ok events := by
  induction written using List.reverseRecOn generalizing events with
  | nil =>
    rcases List.eq_nil_or_concat events with rfl | ⟨front,newest,rfl⟩
    · rfl
    · rw [List.concat_eq_append] at chain last
      rw [lastHash_snoc,(linked_snoc chain).2.2] at last
      exact absurd last (hashEvent_nonempty sized newest)
  | append_singleton _ event ih =>
    obtain ⟨front,chained,hashed⟩ := linked_snoc linked
    rw [lastHash_snoc] at last
    rcases List.eq_nil_or_concat events with rfl | ⟨earlier,newest,rfl⟩
    · exact absurd (hashed.symm.trans last.symm) (hashEvent_nonempty sized event)
    · rw [List.concat_eq_append] at chain last settled ⊢
      rw [lastHash_snoc] at last
      obtain ⟨rest,back,own⟩ := linked_snoc chain
      have read := same_hash_same_event collisionFree (writable event (by simp)) hashed
        (settled newest (by simp)) own last
      have previous : newest.prevHash = event.prevHash := by
        have shown := read
        rw [unmarshal_marshal (writable event (by simp)),Option.map_eq_some_iff] at shown
        obtain ⟨_,_,same⟩ := shown
        rw [← same,AuditEvent.reread]
        exact (chained ▸ linked_lastHash_valid front valid_empty).repair
      have older := ih front (fun e member => writable e (by simp [member])) earlier
        (fun e member => settled e (by simp [member])) rest
        (back.symm.trans (previous.trans chained))
      rw [List.map_append,readEvents_iff]
      exact List.rel_append (readEvents_iff.mp older) (.cons read .nil)

def tampered (log : LogState) (events : List (Bytes × Bytes)) : LogState := {log with events}

-- Verify reports a log, whatever is stored in it, unless its list is a chain in itself.
theorem reported_iff (log : LogState) : verify scalars sum log ≠ .ok () ↔
    ∀ events, list scalars 0 log = .ok events → rechain scalars sum 0 [] events ≠ events := by
  simp only [ne_eq,verify_iff,rechain_iff,not_exists,not_and]

-- While the newest event carries the recorded last hash, no list but the
-- appended one is a chain.
theorem tampering_reported_iff (collisionFree : Function.Injective sum) (sized : ∀ data, sum data ≠ [])
    (calls : List (Call scalars)) (log : LogState)
    (accepted : appendAll sum calls LogState.empty = .ok log) (stored : List (Bytes × Bytes))
    (differs : list scalars 0 (tampered log stored) ≠ list scalars 0 log) :
    (verify scalars sum (tampered log stored) ≠ .ok () ↔
      ∀ events, list scalars 0 (tampered log stored) = .ok events →
        rechain scalars sum 0 [] events ≠ events) ∧ (calls.length < 2^64 →
      (∀ events, list scalars 0 (tampered log stored) = .ok events →
        lastHash [] events = readHash (tampered log stored)) →
      verify scalars sum (tampered log stored) ≠ .ok ()) := by
  refine ⟨reported_iff _,?_⟩
  intro few newest clean
  obtain ⟨events,read,chain⟩ := verify_iff.mp clean
  obtain ⟨keyed,⟨_,written,recorded⟩ | ⟨many,_⟩⟩ := appendAll_invariant accepted
  · apply differs
    have small : written.length < 2^64 := by
      rw [← recorded.origin.length_eq]
      exact few
    have last : lastHash [] events = lastHash [] written :=
      (newest events read).trans recorded.lastHash
    rw [read,recorded.list keyed]
    exact (same_last_hash collisionFree sized written recorded.linked (recorded.writable small) events
      (readEvents_settled read) chain last).symm
  · omega

def markedSum (data : Bytes) : Bytes := 0 :: data

theorem markedSum_injective : Function.Injective markedSum := by
  intro left right same
  exact (List.cons.inj same).2

def briefCall : Call literalScalars where
  event := ⟨ascii "1",[],ascii "a",ascii "b",[],[],[]⟩
  canceled := false
  now := ascii "t"
  fresh := none
  refused := false
  metadata_proper := ⟨List.Pairwise.nil,trivial⟩
  now_instant := by decide
  occurredAt_instant := .inl rfl
  fresh_valid := none_valid

def oneEvent : LogState := logOf markedSum [briefCall]

theorem oneEvent_appended : appendAll markedSum [briefCall] LogState.empty = .ok oneEvent := rfl

def repeated : LogState :=
  tampered oneEvent (oneEvent.events ++ oneEvent.events.map (fun entry => (seqKeyBytes 2,entry.2)))

theorem repeated_event_is_reported : verify literalScalars markedSum repeated ≠ .ok () := by
  have longer : list literalScalars 0 repeated ≠ list literalScalars 0 oneEvent := by
    intro same
    have sizes := congrArg (Except.map List.length) same
    revert sizes
    decide +kernel
  have newest : (list literalScalars 0 repeated).map (lastHash []) = .ok (readHash repeated) := by
    decide +kernel
  refine (tampering_reported_iff markedSum_injective (fun _ => List.cons_ne_nil _ _)
    [briefCall] oneEvent oneEvent_appended _ longer).2 (by decide) ?_
  intro events read
  rw [show list literalScalars 0 repeated = .ok events from read] at newest
  exact Except.ok.inj newest

-- The newest event gone, the two records of it left in the other bucket.
theorem removed_newest_is_accepted : appendAll markedSum [briefCall] LogState.empty = .ok oneEvent ∧
      (tampered oneEvent []).lastHash = oneEvent.lastHash ∧
      (tampered oneEvent []).lastSeq = oneEvent.lastSeq ∧
      (list literalScalars 0 oneEvent).map List.length = .ok 1 ∧
      (list literalScalars 0 (tampered oneEvent [])).map List.length = .ok 0 ∧
      verify literalScalars markedSum (tampered oneEvent []) = .ok () := by
  refine ⟨rfl,rfl,rfl,?_,?_,?_⟩ <;> decide +kernel

end Kronos.AuditTamper
