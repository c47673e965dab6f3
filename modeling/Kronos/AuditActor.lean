import Kronos.Accounts
import Kronos.AuditAccept

namespace Kronos.AuditActor
open ByteRange Utf8 Strings Rfc3339 Accounts AuditLog GoJson JsonValue SortedRun
open JobServer (isZero)
open AuditAccept (append_exact)

-- The values of each header, by the name the code asks for it with.
abbrev Headers := Bytes → List Bytes

def Headers.get (headers : Headers) (name : Bytes) : Bytes := (headers name).headD []

def Headers.set (headers : Headers) (name value : Bytes) : Headers := Function.update headers name [value]

def actorHeader : Bytes := ascii "X-Kronos-Actor"

def agentHeader : Bytes := ascii "X-Kronos-Agent-ID"

def requestIDHeader : Bytes := ascii "X-Kronos-Request-ID"

def authorizationHeader : Bytes := ascii "Authorization"

structure HttpRequest where
  headers : Headers
  insecureNoAuth : Option Bool
  requestID : Option Bytes

namespace HttpRequest

def header (r : HttpRequest) (name : Bytes) : Bytes := r.headers.get name

def actor (r : HttpRequest) : Bytes := r.header actorHeader

def allowInsecureNoAuth (r : HttpRequest) : Bool := r.insecureNoAuth.getD true

def contextID (r : HttpRequest) : Bytes := (r.requestID.map trimSpace).getD []

-- The letters of the scheme fold to nothing but their other ASCII case.
def bearerToken (r : HttpRequest) : Option Bytes :=
  match (trimSpace (r.header authorizationHeader)).span (fun b => b ≠ 0x20) with
  | (_,[]) => none
  | (scheme,_ :: value) =>
    if toLower scheme = ascii "bearer" ∧ trimSpace value ≠ [] then some (trimSpace value) else none

end HttpRequest

inductive Denial
  | authorizationRequired | invalidToken | storeMissing | insufficientScope | insufficientRole
  deriving DecidableEq,Repr

section
variable (hashTokenSecret : Bytes → Bytes)

-- Who is let in, and the request as the handlers see it: the token's owner
-- becomes the actor where the request names none.
def authorizeToken (stores : Stores) (now : Time) (scope secret : Bytes) (r : HttpRequest) :
    Except Denial (Option Token × HttpRequest) :=
  match verify hashTokenSecret stores.tokens secret now with
  | none => .error .invalidToken
  | some token =>
    if tokenAllowsScope token scope = false then .error .insufficientScope
    else if (userAllowsScope stores.users token.userID scope).1 = false then .error .invalidToken
    else if (userAllowsScope stores.users token.userID scope).2 = false then .error .insufficientRole
    else if r.actor = [] ∧ isZero token.userID = false then
      .ok (some token,{r with headers := r.headers.set actorHeader token.userID})
    else .ok (some token,r)

def requireScope (stores : Option Stores) (now : Time) (scope : Bytes) (r : HttpRequest) :
    Except Denial (Option Token × HttpRequest) :=
  if trimSpace (r.header authorizationHeader) = [] then
    if r.allowInsecureNoAuth then .ok (none,r) else .error .authorizationRequired
  else match r.bearerToken with
  | none => .error .invalidToken
  | some secret => match stores with
    | none => .error .storeMissing
    | some stores => authorizeToken hashTokenSecret stores now scope secret r

end

def annotate (metadata : List (Bytes × GoValue)) (key text : Bytes) : List (Bytes × GoValue) :=
  if text = [] then metadata else put Prod.fst metadata (key,.str text)

def auditMetadataWithRequest (r : HttpRequest) (metadata : List (Bytes × GoValue)) : List (Bytes × GoValue) :=
  let requestID := if r.contextID = [] then trimSpace (r.header requestIDHeader) else r.contextID
  annotate (annotate metadata (ascii "request_id") requestID) (ascii "agent_id") (trimSpace (r.header agentHeader))

variable {scalars : Scalars}

theorem properMembers_exact : ProperMembers scalars entries ↔ ∀ entry ∈ entries, Proper scalars entry.2 := by
  induction entries with
  | nil => exact ⟨fun _ _ member => absurd member List.not_mem_nil,fun _ => trivial⟩
  | cons _ _ ih =>
    rw [List.forall_mem_cons,← ih]
    exact Iff.rfl

theorem put_proper (proper : Proper scalars (.map metadata)) (key text : Bytes) :
    Proper scalars (.map (put Prod.fst metadata (key,.str text))) := by
  obtain ⟨sorted,values⟩ := proper
  refine ⟨put_ascending Prod.fst sorted _,properMembers_exact.mpr ?_⟩
  intro entry member
  rcases (SortedRun.mem_put Prod.fst).mp member with rfl | ⟨old,_⟩
  · trivial
  · exact properMembers_exact.mp values entry old

theorem annotate_proper (proper : Proper scalars (.map metadata)) (key text : Bytes) :
    Proper scalars (.map (annotate metadata key text)) := by
  unfold annotate
  split
  · exact proper
  · exact put_proper proper key text

theorem auditMetadata_proper (proper : Proper scalars (.map metadata)) (r : HttpRequest) :
    Proper scalars (.map (auditMetadataWithRequest r metadata)) :=
  annotate_proper (annotate_proper proper _ _) _ _

-- What a handler writes to the log, with what the clock, the id source, the
-- request's context and the store answer to it.
structure Entry (scalars : Scalars) where
  action : Bytes
  resourceType : Bytes
  resourceID : Bytes
  metadata : List (Bytes × GoValue)
  canceled : Bool
  now : Bytes
  fresh : Option Bytes
  refused : Bool
  metadata_proper : Proper scalars (.map metadata)
  now_instant : scalars.instant now = some now
  fresh_valid : ∀ id, fresh = some id → Valid id

def auditCall (r : HttpRequest) (entry : Entry scalars) : Call scalars where
  event := {
    id := []
    actorID := r.actor
    action := entry.action
    resourceType := entry.resourceType
    resourceID := entry.resourceID
    metadata := auditMetadataWithRequest r entry.metadata
    occurredAt := []}
  canceled := entry.canceled
  now := entry.now
  fresh := entry.fresh
  refused := entry.refused
  metadata_proper := auditMetadata_proper entry.metadata_proper r
  now_instant := entry.now_instant
  occurredAt_instant := Or.inl rfl
  fresh_valid := entry.fresh_valid

def appendAuditEvent (sum : Bytes → Bytes) (r : HttpRequest) (entry : Entry scalars) (log : LogState) :
    Except Fault (AuditEvent × LogState) :=
  append sum (auditCall r entry) log

-- A request while its handler works: it may be checked for further scopes and
-- may append events to the log, which others append to as well.
structure Handling where
  request : HttpRequest
  appended : List AuditEvent

section
variable (hashTokenSecret sum : Bytes → Bytes) (scalars : Scalars)

inductive Transition (h : Handling) : Handling → Prop
  | check {stores : Option Stores} {now : Time} {scope : Bytes} {token : Option Token} {after : HttpRequest}
      (accepted : requireScope hashTokenSecret stores now scope h.request = .ok (token,after)) :
      Transition h {h with request := after}
  | append {entry : Entry scalars} {log log' : LogState} {event : AuditEvent}
      (written : appendAuditEvent sum h.request entry log = .ok (event,log')) :
      Transition h {h with appended := event :: h.appended}

inductive Reached (r : HttpRequest) : Handling → Prop
  | start : Reached r ⟨r,[]⟩
  | step {h next : Handling} (before : Reached r h) (transition : Transition hashTokenSecret sum scalars h next) :
      Reached r next

end

section
variable {hash sum : Bytes → Bytes} {stores : Option Stores} {now : Time} {scope : Bytes} {token : Option Token}
  {r after : HttpRequest}

theorem set_actor (r : HttpRequest) (id : Bytes) :
    ({r with headers := r.headers.set actorHeader id} : HttpRequest).actor = id := by
  change (Function.update r.headers actorHeader [id] actorHeader).headD [] = id
  rfl

structure Authorized (stores : Stores) (scope : Bytes) (r : HttpRequest) (token : Token) (after : HttpRequest) : Prop where
  allowed : tokenAllowsScope token scope = true
  owner : userAllowsScope stores.users token.userID scope = (true,true)
  actor : after.actor = if r.actor = [] then token.userID else r.actor

theorem owner_named (owner : (userAllowsScope users userID scope).1 = true) : isZero userID = false := by
  unfold userAllowsScope at owner
  split at owner
  · cases owner
  · rename_i named
    exact Bool.eq_false_iff.mpr named

theorem authorizeToken_exact {stores : Stores}
    (accepted : authorizeToken hash stores now scope secret r = .ok (token,after)) :
    ∃ owned, token = some owned ∧ verify hash stores.tokens secret now = some owned ∧
      Authorized stores scope r owned after := by
  unfold authorizeToken at accepted
  split at accepted
  · cases accepted
  rename_i owned verified
  split at accepted
  · cases accepted
  rename_i allowed
  split at accepted
  · cases accepted
  rename_i exists_owner
  split at accepted
  · cases accepted
  rename_i role
  have owner : userAllowsScope stores.users owned.userID scope = (true,true) :=
    Prod.ext (Bool.eq_true_of_not_eq_false exists_owner) (Bool.eq_true_of_not_eq_false role)
  have named := owner_named (Bool.eq_true_of_not_eq_false exists_owner)
  split at accepted
  · rename_i absent
    cases accepted
    refine ⟨owned,rfl,verified,Bool.eq_true_of_not_eq_false allowed,owner,?_⟩
    rw [if_pos absent.1,set_actor]
  · rename_i given
    cases accepted
    refine ⟨owned,rfl,verified,Bool.eq_true_of_not_eq_false allowed,owner,?_⟩
    rw [if_neg (fun empty => given ⟨empty,named⟩)]

theorem requireScope_exact (accepted : requireScope hash stores now scope r = .ok (token,after)) :
    (token = none ∧ after = r) ∨ ∃ accounts secret owned, stores = some accounts ∧ r.bearerToken = some secret ∧
      token = some owned ∧ verify hash accounts.tokens secret now = some owned ∧ Authorized accounts scope r owned after := by
  unfold requireScope at accepted
  split at accepted
  · split at accepted
    · cases accepted
      exact Or.inl ⟨rfl,rfl⟩
    · cases accepted
  · split at accepted
    · cases accepted
    · rename_i secret bearer
      split at accepted
      · cases accepted
      · rename_i accounts
        obtain ⟨owned,same,verified,authorized⟩ := authorizeToken_exact accepted
        exact Or.inr ⟨accounts,secret,owned,rfl,bearer,same,verified,authorized⟩

theorem requireScope_actor (accepted : requireScope hash stores now scope r = .ok (some owned,after)) :
    after.actor = (if r.actor = [] then owned.userID else r.actor) ∧ owned.userID ≠ [] := by
  rcases requireScope_exact accepted with ⟨none_verified,_⟩ | ⟨_,_,_,_,_,same,_,authorized⟩
  · cases none_verified
  · obtain rfl := Option.some.inj same
    refine ⟨authorized.actor,?_⟩
    intro empty
    have named := owner_named (congrArg Prod.fst authorized.owner)
    rw [empty] at named
    cases named

theorem requireScope_accepts (bearer : r.bearerToken = some secret)
    (verified : verify hash accounts.tokens secret now = some owned) (allowed : tokenAllowsScope owned scope = true)
    (owner : userAllowsScope accounts.users owned.userID scope = (true,true)) (named : r.actor ≠ []) :
    requireScope hash (some accounts) now scope r = .ok (some owned,r) := by
  have header : trimSpace (r.header authorizationHeader) ≠ [] := by
    intro empty
    rw [HttpRequest.bearerToken,empty] at bearer
    cases bearer
  rw [requireScope,if_neg header]
  simp only [bearer,authorizeToken,verified,allowed,owner,Bool.true_eq_false,if_false,named,false_and]

theorem requireScope_keeps (accepted : requireScope hash stores now scope r = .ok (token,after)) (named : r.actor ≠ []) :
    after.actor = r.actor := by
  rcases requireScope_exact accepted with ⟨_,same⟩ | ⟨_,_,_,_,_,_,_,authorized⟩
  · rw [same]
  · rw [authorized.actor,if_neg named]

structure Invariant (actor : Bytes) (h : Handling) : Prop where
  request : h.request.actor = actor
  events : ∀ event ∈ h.appended, event.actorID = actor

theorem transition_preserves {actor : Bytes} (named : actor ≠ []) {h next : Handling}
    (transition : Transition hash sum scalars h next) (invariant : Invariant actor h) : Invariant actor next := by
  cases transition with
  | check accepted =>
    have known : h.request.actor ≠ [] := by
      rw [invariant.request]
      exact named
    exact ⟨(requireScope_keeps accepted known).trans invariant.request,invariant.events⟩
  | append written =>
    refine ⟨invariant.request,?_⟩
    intro event member
    rcases List.mem_cons.mp member with rfl | earlier
    · exact (append_exact written).origin.actorID.trans invariant.request
    · exact invariant.events event earlier

theorem reached_preserves {actor : Bytes} (named : actor ≠ []) {h : Handling} (first : r.actor = actor)
    (reached : Reached hash sum scalars r h) : Invariant actor h := by
  induction reached with
  | start => exact ⟨first,fun _ member => absurd member List.not_mem_nil⟩
  | step _ transition ih => exact transition_preserves named transition ih

end

def plainEntry (scalars : Scalars) : Entry scalars where
  action := ascii "audit.verified"
  resourceType := ascii "audit"
  resourceID := []
  metadata := []
  canceled := false
  now := zeroInstant
  fresh := some []
  refused := false
  metadata_proper := ⟨List.Pairwise.nil,trivial⟩
  now_instant := scalars.instant_zero
  fresh_valid := by
    intro id same
    cases same
    exact valid_empty

def TextsOnly (metadata : List (Bytes × GoValue)) : Prop := ∀ entry ∈ metadata, ∃ text, entry.2 = .str text

theorem annotate_texts (texts : TextsOnly metadata) (key text : Bytes) : TextsOnly (annotate metadata key text) := by
  unfold annotate
  split
  · exact texts
  · intro entry member
    rcases (SortedRun.mem_put Prod.fst).mp member with rfl | ⟨old,_⟩
    · exact ⟨text,rfl⟩
    · exact texts entry old

theorem texts_shape (texts : TextsOnly metadata) : ∃ members, shapeMembers metadata = some members := by
  induction metadata with
  | nil => exact ⟨[],rfl⟩
  | cons entry _ ih =>
    obtain ⟨here,later⟩ := List.forall_mem_cons.mp texts
    obtain ⟨text,same⟩ := here
    obtain ⟨members,shaped⟩ := ih later
    obtain ⟨key,value⟩ := entry
    change value = .str text at same
    refine ⟨(key,.str text) :: members,?_⟩
    rw [same,shapeMembers,shaped]
    rfl

theorem plain_appended (sum : Bytes → Bytes) (r : HttpRequest) :
    ∃ event log, appendAuditEvent sum r (plainEntry scalars) LogState.empty = .ok (event,log) := by
  have texts : TextsOnly (auditMetadataWithRequest r []) :=
    annotate_texts (annotate_texts (fun _ member => absurd member List.not_mem_nil) _ _) _ _
  obtain ⟨_,shaped⟩ := texts_shape texts
  simp only [appendAuditEvent,append,auditCall,plainEntry,shaped]
  exact ⟨_,_,rfl⟩

theorem audit_actor_iff (hash sum : Bytes → Bytes) (scalars : Scalars) {stores : Option Stores} {now : Time}
    {scope : Bytes} {token : Token} {r after : HttpRequest}
    (accepted : requireScope hash stores now scope r = .ok (some token,after)) :
    (∀ h, Reached hash sum scalars after h → ∀ event ∈ h.appended, event.actorID = token.userID) ↔
      r.actor = [] ∨ r.actor = token.userID := by
  obtain ⟨actor,owner⟩ := requireScope_actor accepted
  constructor
  · intro attributed
    by_cases absent : r.actor = []
    · exact Or.inl absent
    · obtain ⟨event,_,written⟩ := @plain_appended scalars sum after
      have recorded := attributed _ (.step .start (.append written)) event List.mem_cons_self
      have given : event.actorID = after.actor := (append_exact written).origin.actorID
      rw [actor,if_neg absent] at given
      exact Or.inr (given.symm.trans recorded)
  · intro honest h reached event member
    have same : after.actor = token.userID := by
      rcases honest with absent | own
      · rw [actor,if_pos absent]
      · rw [actor,own,ite_self]
    exact (reached_preserves owner same reached).events event member

def auditor : User := ⟨ascii "u1",ascii "auditor@example.com",ascii "Auditor",roleViewer,false,⟨1,0⟩,⟨1,0⟩⟩

def auditorToken : Token := ⟨ascii "t1",ascii "u1",ascii "audit",[ascii "audit:read"],Time.zero,⟨1,0⟩,Time.zero⟩

def accounts : Stores := ⟨RecordTable.Table.single auditor,RecordTable.Table.single ⟨auditorToken,ascii "kro_t1_s"⟩⟩

def requestFrom (actor : Bytes) : HttpRequest where
  headers := fun name =>
    if name = authorizationHeader then [ascii "Bearer kro_t1_s"] else if name = actorHeader then [actor] else []
  insecureNoAuth := some false
  requestID := none

theorem auditor_accepted {actor : Bytes} (named : (requestFrom actor).actor ≠ []) :
    requireScope id (some accounts) ⟨5,0⟩ (ascii "audit:read") (requestFrom actor) =
      .ok (some auditorToken,requestFrom actor) := by
  have bearer : (requestFrom actor).bearerToken = some (ascii "kro_t1_s") := by
    change (requestFrom []).bearerToken = some (ascii "kro_t1_s")
    decide +kernel
  exact requireScope_accepts bearer (by decide +kernel) (by decide +kernel) (by decide +kernel) named

theorem own_actor_recorded : requireScope id (some accounts) ⟨5,0⟩ (ascii "audit:read") (requestFrom (ascii "u1")) =
        .ok (some auditorToken,requestFrom (ascii "u1")) ∧
      ∀ h, Reached id id literalScalars (requestFrom (ascii "u1")) h →
        ∀ event ∈ h.appended, event.actorID = auditorToken.userID := by
  have accepted := @auditor_accepted (ascii "u1") (by decide)
  exact ⟨accepted,(audit_actor_iff id id literalScalars accepted).mpr (Or.inr (by decide))⟩

theorem forged_actor_recorded :
    requireScope id (some accounts) ⟨5,0⟩ (ascii "audit:read") (requestFrom (ascii "root")) =
        .ok (some auditorToken,requestFrom (ascii "root")) ∧
      ∃ h, Reached id id literalScalars (requestFrom (ascii "root")) h ∧
        ∃ event ∈ h.appended, event.actorID = ascii "root" ∧ event.actorID ≠ auditorToken.userID := by
  refine ⟨auditor_accepted (by decide),?_⟩
  obtain ⟨event,_,written⟩ := @plain_appended literalScalars id (requestFrom (ascii "root"))
  have recorded : event.actorID = ascii "root" := (append_exact written).origin.actorID
  refine ⟨_,.step .start (.append written),event,List.mem_cons_self,recorded,?_⟩
  rw [recorded]
  decide

end Kronos.AuditActor
