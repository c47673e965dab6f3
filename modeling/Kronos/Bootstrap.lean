import Mathlib.Data.List.Pairwise
import Kronos.Accounts
import Kronos.Mutex

namespace Kronos.Bootstrap
open ByteRange Utf8 Strings Rfc3339 RecordTable Accounts Interleaving Mutex
open JobServer (isZero)
open ScheduleStore (stampTimes)

-- The operations of the two stores, each one transaction.
inductive Op
  | listUsers | listTokens | saveUser (user : User)
  | createToken (name userID : Bytes) (scopes : List Bytes) (expiresAt : Time) (sources : Sources)
  | deleteUser (id : Bytes)

@[reducible]
def Reply : Op → Type
  | .listUsers => List User
  | .listTokens => List Token
  | .saveUser _ => Except UserRefusal Unit
  | .createToken _ _ _ _ _ => Except TokenRefusal CreatedToken
  | .deleteUser _ => Unit

def userOrder (a b : User) : Bool := if a.email = b.email then decide (a.id ≤ b.id) else decide (a.email < b.email)

def tokenOrder (a b : Token) : Bool :=
  if a.createdAt.instant = b.createdAt.instant then decide (a.id ≤ b.id)
  else decide (b.createdAt.instant < a.createdAt.instant)

section
variable (hashTokenSecret : Bytes → Bytes)

def exec : (op : Op) → Stores → Reply op × Stores
  | .listUsers,s => (s.users.rows.mergeSort userOrder,s)
  | .listTokens,s => ((s.tokens.rows.map TokenRecord.token).mergeSort tokenOrder,s)
  | .saveUser user,s =>
    match validateUser user with
    | .error cause => (.error cause,s)
    | .ok _ => (.ok (),{s with users := s.users.put user})
  | .createToken name userID scopes expiresAt sources,s =>
    match makeToken name userID scopes expiresAt sources with
    | .error cause => (.error cause,s)
    | .ok created => (.ok created,{s with tokens := s.tokens.put (record hashTokenSecret created)})
  | .deleteUser id,s => ((),{s with users := s.users.delete id})

end

abbrev Server := Program Op Reply

def ask (op : Op) : Server (Reply op) := Program.ask op

structure BootstrapAdminRequest where
  id : Bytes
  email : Bytes
  displayName : Bytes
  tokenName : Bytes
  deriving DecidableEq,Repr

-- A request with what the clock, the id and random sources and the audit log
-- answer while it is handled; a body that does not decode is none.
structure Arrival where
  bootstrapToken : Bytes
  body : Option BootstrapAdminRequest
  now : Time
  freshID : Option Bytes
  sources : Sources
  audited : Bool
  deriving DecidableEq,Repr

inductive Refusal
  | tokenRequired | tokenInvalid | complete | invalidRequest | createID | user (cause : UserRefusal)
  | token (cause : TokenRefusal) | writeAudit
  deriving DecidableEq

inductive Response
  | refused (refusal : Refusal) | created (user : User) (token : CreatedToken)
  deriving DecidableEq

def requireBootstrapToken (configured : Bytes) (arrival : Arrival) : Option Response :=
  let expected := trimSpace configured
  let got := trimSpace arrival.bootstrapToken
  if expected = [] then none
  else if got = [] then some (.refused .tokenRequired)
  else if got ≠ expected then some (.refused .tokenInvalid)
  else none

def tokenName (request : BootstrapAdminRequest) : Bytes :=
  if trimSpace request.tokenName = [] then ascii "initial-admin" else request.tokenName

def adminID (request : BootstrapAdminRequest) (freshID : Option Bytes) : Option Bytes :=
  if isZero request.id then freshID else some request.id

def adminUser (request : BootstrapAdminRequest) (id : Bytes) (now : Time) : User where
  id := id
  email := request.email
  displayName := request.displayName
  role := roleAdmin
  totpEnforced := false
  createdAt := (stampTimes Time.zero now.utc).1
  updatedAt := (stampTimes Time.zero now.utc).2

-- The token of the user that was just saved; without one the user goes again.
def grantToken (arrival : Arrival) (name : Bytes) (user : User) : Server Response := do
  match ← ask (.createToken name user.id (roleScopes roleAdmin) Time.zero arrival.sources) with
  | .error cause => do
    ask (.deleteUser user.id)
    pure (.refused (.token cause))
  | .ok created => pure (if arrival.audited then .created user created else .refused .writeAudit)

def saveAdmin (arrival : Arrival) (name : Bytes) (user : User) : Server Response := do
  match ← ask (.saveUser user) with
  | .error cause => pure (.refused (.user cause))
  | .ok _ => grantToken arrival name user

def createAdmin (arrival : Arrival) : Server Response :=
  match arrival.body with
  | none => pure (.refused .invalidRequest)
  | some request =>
    match adminID request arrival.freshID with
    | none => pure (.refused .createID)
    | some id => saveAdmin arrival (tokenName request) (adminUser request id arrival.now)

def handleBootstrapAdmin (arrival : Arrival) : Server Response := do
  let existingUsers ← ask .listUsers
  let existingTokens ← ask .listTokens
  if 0 < existingUsers.length ∨ 0 < existingTokens.length then pure (.refused .complete)
  else createAdmin arrival

abbrev BootstrapSystem := GuardedSystem Stores Arrival Op Reply Response

inductive Made : Response → Prop
  | created (user : User) (token : CreatedToken) : Made (.created user token) | unaudited : Made (.refused .writeAudit)

section
variable {hash : Bytes → Bytes} {arrival : Arrival} {s : Stores}

theorem run_ask (op : Op) (after : Reply op → Server Response) :
    (ask op >>= after).run (exec hash) s = (after (exec hash op s).1).run (exec hash) (exec hash op s).2 := rfl

theorem saveAdmin_run : (saveAdmin arrival name user).run (exec hash) s =
    match validateUser user,makeToken name user.id (roleScopes roleAdmin) Time.zero arrival.sources with
    | .error cause,_ => (.refused (.user cause),s)
    | .ok _,.error cause => (.refused (.token cause),{s with users := (s.users.put user).delete user.id})
    | .ok _,.ok created => (if arrival.audited then .created user created else .refused .writeAudit,
        ⟨s.users.put user,s.tokens.put (record hash created)⟩) := by
  rw [saveAdmin,run_ask,exec]
  cases validateUser user with
  | error => rfl
  | ok =>
    change (grantToken arrival name user).run (exec hash) {s with users := s.users.put user} = _
    rw [grantToken,run_ask,exec]
    cases makeToken name user.id (roleScopes roleAdmin) Time.zero arrival.sources <;> rfl

def Settles (s : Stores) (outcome : Response × Stores) : Prop :=
  (Made outcome.1 ∧ outcome.2.tokens.rows ≠ []) ∨ (¬ Made outcome.1 ∧ outcome.2.tokens = s.tokens)

theorem saveAdmin_settles (hash : Bytes → Bytes) (arrival : Arrival) (name : Bytes) (user : User) (s : Stores) :
    Settles s ((saveAdmin arrival name user).run (exec hash) s) := by
  rw [saveAdmin_run]
  split
  · exact Or.inr ⟨nofun,rfl⟩
  · exact Or.inr ⟨nofun,rfl⟩
  · refine Or.inl ⟨?_,List.ne_nil_of_mem (s.tokens.mem_put.mpr (Or.inl rfl))⟩
    cases arrival.audited with
    | false => exact .unaudited
    | true => exact .created _ _

section
variable (hash : Bytes → Bytes) (arrival : Arrival) (s : Stores)

theorem createAdmin_settles : Settles s ((createAdmin arrival).run (exec hash) s) := by
  unfold createAdmin
  split
  · exact Or.inr ⟨nofun,rfl⟩
  · split
    · exact Or.inr ⟨nofun,rfl⟩
    · exact saveAdmin_settles hash arrival _ _ s

theorem listed_users {users : UserTable} : 0 < (users.rows.mergeSort userOrder).length ↔ users.rows ≠ [] := by
  rw [List.length_mergeSort,List.length_pos_iff]

theorem listed_tokens {tokens : TokenTable} :
    0 < ((tokens.rows.map TokenRecord.token).mergeSort tokenOrder).length ↔ tokens.rows ≠ [] := by
  rw [List.length_mergeSort,List.length_map,List.length_pos_iff]

theorem bootstrap_run : (handleBootstrapAdmin arrival).run (exec hash) s =
      if s.users.rows ≠ [] ∨ s.tokens.rows ≠ [] then (.refused .complete,s) else (createAdmin arrival).run (exec hash) s := by
  unfold handleBootstrapAdmin
  rw [run_ask,run_ask]
  simp only [exec,listed_users,listed_tokens]
  split <;> rfl

theorem bootstrap_settles : Settles s ((handleBootstrapAdmin arrival).run (exec hash) s) := by
  rw [bootstrap_run]
  split
  · exact Or.inr ⟨nofun,rfl⟩
  · exact createAdmin_settles hash arrival s

end

theorem bootstrap_made {hash : Bytes → Bytes} (made : Made ((handleBootstrapAdmin arrival).run (exec hash) s).1) :
    s.users.rows = [] ∧ s.tokens.rows = [] := by
  rw [bootstrap_run] at made
  split at made
  · cases made
  · rename_i none_yet
    exact ⟨not_not.mp (fun some_user => none_yet (Or.inl some_user)),
      not_not.mp (fun some_token => none_yet (Or.inr some_token))⟩

theorem serial_once (serial : Serial (exec hash) handleBootstrapAdmin first order last) :
    order.Pairwise (fun a b => ¬ (Made a.2.2 ∧ Made b.2.2)) ∧ ((∃ entry ∈ order, Made entry.2.2) → last.tokens.rows ≠ []) := by
  induction serial with
  | start => exact ⟨List.Pairwise.nil,fun ⟨_,member,_⟩ => absurd member List.not_mem_nil⟩
  | next place arrival before ih =>
    rename_i order s
    obtain ⟨apart,stored⟩ := ih
    rcases bootstrap_settles hash arrival s with ⟨made,some_after⟩ | ⟨unmade,same⟩
    · refine ⟨List.pairwise_cons.mpr ⟨?_,apart⟩,fun _ => some_after⟩
      rintro entry member ⟨_,earlier⟩
      exact stored ⟨entry,member,earlier⟩ (bootstrap_made made).2
    · refine ⟨List.pairwise_cons.mpr ⟨fun entry _ both => unmade both.1,apart⟩,?_⟩
      rintro ⟨entry,member,made⟩
      rw [same]
      rcases List.mem_cons.mp member with rfl | earlier
      · exact absurd made unmade
      · exact stored ⟨entry,earlier,made⟩

theorem door_unmade (door : requireBootstrapToken configured arrival = some answer) : ¬ Made answer := by
  simp only [requireBootstrapToken] at door
  split at door
  · cases door
  · split at door
    · cases door
      exact fun made => nomatch made
    · split at door
      · cases door
        exact fun made => nomatch made
      · cases door

end

theorem bootstrap_once (hash : Bytes → Bytes) {configured : Bytes} {first : Stores} {s : BootstrapSystem}
    (reached : Reached (guardedExec (exec hash)) (handle (requireBootstrapToken configured) handleBootstrapAdmin)
      Exclusive ⟨first,false⟩ s) {a b : Nat} {one other : Arrival} {answer response : Response}
    (first_done : s.tasks a = some (one,.done answer)) (first_made : Made answer)
    (second_done : s.tasks b = some (other,.done response)) (second_made : Made response) : a = b := by
  obtain ⟨_,_,serial,listed⟩ := reached_serial reached
  obtain ⟨apart,_⟩ := serial_once serial
  rcases listed a one answer first_done with door | here
  · exact absurd first_made (door_unmade door)
  rcases listed b other response second_done with door | there
  · exact absurd second_made (door_unmade door)
  by_contra differ
  have entries : ((a,one,answer) : Nat × Arrival × Response) ≠ (b,other,response) :=
    fun same => differ (congrArg Prod.fst same)
  have symmetric : Std.Symm (fun a b : Nat × Arrival × Response => ¬ (Made a.2.2 ∧ Made b.2.2)) :=
    ⟨fun _ _ apart both => apart ⟨both.2,both.1⟩⟩
  exact apart.forall here there entries ⟨first_made,second_made⟩

def rootRequest : BootstrapAdminRequest := ⟨ascii "root",ascii "root@example.com",ascii "Root",[]⟩

def rootArrival : Arrival := ⟨ascii "open",some rootRequest,⟨5,0⟩,none,⟨⟨6,0⟩,some (ascii "t1"),some (ascii "s1")⟩,true⟩

def rootToken : CreatedToken where
  token := ⟨ascii "t1",ascii "root",ascii "initial-admin",[adminScope],Time.zero,⟨6,0⟩,Time.zero⟩
  secret := ascii "kro_t1_s1"

theorem root_token : makeToken (tokenName rootRequest) (ascii "root") (roleScopes roleAdmin) Time.zero
    rootArrival.sources = .ok rootToken := by
  have collected : (roleScopes roleAdmin).foldl addScope [] = [adminScope] := by decide +kernel
  have scopes : normalizeScopes (roleScopes roleAdmin) = [adminScope] := by
    rw [normalizeScopes,collected,List.mergeSort_singleton]
  decide +kernel

theorem root_created (hash : Bytes → Bytes) :
    (handleBootstrapAdmin rootArrival).run (exec hash) ⟨Table.empty,Table.empty⟩ =
      (.created (adminUser rootRequest (ascii "root") ⟨5,0⟩) rootToken,
        ⟨Table.empty.put (adminUser rootRequest (ascii "root") ⟨5,0⟩),Table.empty.put (record hash rootToken)⟩) := by
  have none_yet : ¬ ((Table.empty : UserTable).rows ≠ [] ∨ (Table.empty : TokenTable).rows ≠ []) :=
    fun some_row => some_row.elim (fun differ => differ rfl) (fun differ => differ rfl)
  have valid : validateUser (adminUser rootRequest (ascii "root") rootArrival.now) = .ok () := by decide +kernel
  rw [bootstrap_run,if_neg none_yet]
  change (saveAdmin rootArrival (tokenName rootRequest) (adminUser rootRequest (ascii "root") rootArrival.now)).run _ _ = _
  rw [saveAdmin_run,valid,show makeToken _ (adminUser rootRequest (ascii "root") rootArrival.now).id _ _ _ = _ from root_token]
  rfl

-- Two requests are there before either is handled; the first one goes through.
theorem one_bootstrap_wins : ∃ s : BootstrapSystem, Reached (guardedExec (exec id))
        (handle (requireBootstrapToken (ascii "open")) handleBootstrapAdmin) Exclusive
        ⟨⟨Table.empty,Table.empty⟩,false⟩ s ∧
      s.tasks 0 = some (rootArrival,.done (.created (adminUser rootRequest (ascii "root") ⟨5,0⟩) rootToken)) ∧
      ∀ place arrival response, s.tasks place = some (arrival,.done response) → Made response → place = 0 := by
  have opens : handle (requireBootstrapToken (ascii "open")) handleBootstrapAdmin rootArrival =
      guarded (handleBootstrapAdmin rootArrival) := handle_admitted (by decide +kernel)
  have idle : Reached (guardedExec (exec id)) (handle (requireBootstrapToken (ascii "open")) handleBootstrapAdmin)
      Exclusive ⟨⟨Table.empty,Table.empty⟩,false⟩ ⟨⟨⟨Table.empty,Table.empty⟩,false⟩,row [],[]⟩ := Reached.none
  have both := (idle.accepts rootArrival (fun _ same => nomatch same)).accepts rootArrival (fun _ same => nomatch same)
  obtain ⟨s,finished,_,tasks⟩ := @waiting_finishes _ _ _ _ _ (exec id) (requireBootstrapToken (ascii "open"))
    handleBootstrapAdmin _ 0 rootArrival _ both rfl (congrArg (fun program => some (rootArrival,program)) opens)
  have answer := congrArg Prod.fst (root_created id)
  have won : s.tasks 0 = some (rootArrival,.done (.created (adminUser rootRequest (ascii "root") ⟨5,0⟩) rootToken)) :=
    (congrFun tasks 0).trans ((Function.update_self _ _ _).trans
      (congrArg (fun answer => some (rootArrival,Program.done answer)) answer))
  refine ⟨s,finished,won,?_⟩
  intro place arrival response done_there made
  exact bootstrap_once id finished done_there made won (.created _ _)

end Kronos.Bootstrap
