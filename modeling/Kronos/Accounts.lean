import Kronos.JobServer

namespace Kronos.Accounts
open ByteRange Utf8 Strings Rfc3339 RecordTable
open JobServer (isZero)

structure User where
  id : Bytes
  email : Bytes
  displayName : Bytes
  role : Bytes
  totpEnforced : Bool
  createdAt : Time
  updatedAt : Time
  deriving DecidableEq,Repr

structure Token where
  id : Bytes
  userID : Bytes
  name : Bytes
  scopes : List Bytes
  expiresAt : Time
  createdAt : Time
  revokedAt : Time
  deriving DecidableEq,Repr

structure TokenRecord where
  token : Token
  secretHash : Bytes
  deriving DecidableEq,Repr

structure CreatedToken where
  token : Token
  secret : Bytes
  deriving DecidableEq,Repr

def TokenRecord.id (record : TokenRecord) : Bytes := record.token.id

abbrev UserTable := Table User.id

abbrev TokenTable := Table TokenRecord.id

structure Stores where
  users : UserTable
  tokens : TokenTable

def roleAdmin : Bytes := ascii "admin"

def roleOperator : Bytes := ascii "operator"

def roleViewer : Bytes := ascii "viewer"

def everyScope : Bytes := ascii "*"

def adminScope : Bytes := ascii "admin:*"

def operatorScopes : List Bytes := [
  ascii "agent:read",
  ascii "audit:read",
  ascii "backup:*",
  ascii "job:*",
  ascii "metrics:read",
  ascii "notification:*",
  ascii "restore:*",
  ascii "retention:*",
  ascii "schedule:read",
  ascii "storage:read",
  ascii "target:read"]

def viewerScopes : List Bytes := [
  ascii "agent:read",
  ascii "audit:read",
  ascii "backup:read",
  ascii "job:read",
  ascii "metrics:read",
  ascii "notification:read",
  ascii "restore:read",
  ascii "retention:read",
  ascii "schedule:read",
  ascii "storage:read",
  ascii "target:read"]

def roleScopes (role : Bytes) : List Bytes :=
  if role = roleAdmin then [adminScope]
  else if role = roleOperator then operatorScopes
  else if role = roleViewer then viewerScopes
  else []

def grants (scope required : Bytes) : Bool :=
  if scope = [] then false
  else if scope = everyScope ∨ scope = adminScope ∨ scope = required then true
  else if (ascii ":*").isSuffixOf scope then scope.dropLast.isPrefixOf required
  else false

def scopeSetAllows (scopes : List Bytes) (required : Bytes) : Bool :=
  if required = [] then true
  else scopes.any (fun scope => grants (trimSpace scope) required)

-- A role that is none of the three gives nothing, not even the empty scope.
def roleAllowsScope (role required : Bytes) : Bool :=
  if role = roleAdmin ∨ role = roleOperator ∨ role = roleViewer then scopeSetAllows (roleScopes role) required
  else false

def tokenAllowsScope (token : Token) (required : Bytes) : Bool := scopeSetAllows token.scopes required

def addScope (out : List Bytes) (scope : Bytes) : List Bytes :=
  if trimSpace scope = [] ∨ trimSpace scope ∈ out then out else out ++ [trimSpace scope]

def normalizeScopes (scopes : List Bytes) : List Bytes :=
  (scopes.foldl addScope []).mergeSort (fun a b => decide (a ≤ b))

inductive ScopeRefusal
  | keyRequired | notFound (userID : Bytes) | exceeds (scope role : Bytes)
  deriving DecidableEq,Repr

def validateTokenUserScopes (users : Option UserTable) (userID : Bytes) (scopes : List Bytes) :
    Except ScopeRefusal Unit :=
  match users with
  | none => .ok ()
  | some users =>
    if userID = [] then .error .keyRequired
    else match users.get userID with
    | none => .error (.notFound userID)
    | some user => match scopes.find? (fun scope => !roleAllowsScope user.role scope) with
      | some scope => .error (.exceeds scope user.role)
      | none => .ok ()

inductive UserRefusal
  | field (refusal : ScheduleStore.Refusal) | role (role : Bytes) | totpEnforced
  deriving DecidableEq

def validRole (role : Bytes) : Bool := role = roleAdmin ∨ role = roleOperator ∨ role = roleViewer

def validateUser (user : User) : Except UserRefusal Unit := do
  (ScheduleStore.validateResourceID "user id" user.id).mapError .field
  if user.email = [] then .error (.field (.required "user email"))
  else if user.displayName = [] then .error (.field (.required "user display name"))
  else if validRole user.role = false then .error (.role user.role)
  else if user.totpEnforced then .error .totpEnforced
  else .ok ()

inductive TokenRefusal
  | nameRequired | userRequired | scopeRequired | expired | idUnavailable | secretUnavailable
  deriving DecidableEq,Repr

-- What the clock and the random source answer while a token is made: an id and
-- the letters of a secret, unless a source fails.
structure Sources where
  now : Time
  id : Option Bytes
  letters : Option Bytes
  deriving DecidableEq,Repr

def tokenSecret (id letters : Bytes) : Bytes := ascii "kro_" ++ id ++ ascii "_" ++ letters

def makeToken (name userID : Bytes) (scopes : List Bytes) (expiresAt : Time) (sources : Sources) :
    Except TokenRefusal CreatedToken :=
  if name = [] then .error .nameRequired
  else if isZero userID then .error .userRequired
  else if normalizeScopes scopes = [] then .error .scopeRequired
  else if expiresAt.isZero = false ∧ expiresAt.instant ≤ sources.now.instant then .error .expired
  else match sources.id,sources.letters with
  | none,_ => .error .idUnavailable
  | some _,none => .error .secretUnavailable
  | some id,some letters => .ok {
      token := {
        id
        userID
        name
        scopes := normalizeScopes scopes
        expiresAt := if expiresAt.isZero then expiresAt else expiresAt.utc
        createdAt := sources.now.utc
        revokedAt := Time.zero}
      secret := tokenSecret id letters}

def parseTokenID (secret : Bytes) : Option Bytes :=
  if (ascii "kro_").isPrefixOf secret then
    match (secret.drop 4).span (fun b => b ≠ 95) with
    | (_,[]) => none
    | (id,_ :: _) => if id = [] then none else some id
  else none

section
variable (hashTokenSecret : Bytes → Bytes)

def record (created : CreatedToken) : TokenRecord := ⟨created.token,hashTokenSecret created.secret⟩

def expired (token : Token) (now : Time) : Bool :=
  token.expiresAt.isZero = false ∧ token.expiresAt.instant ≤ now.instant

def verify (tokens : TokenTable) (secret : Bytes) (now : Time) : Option Token :=
  match parseTokenID secret with
  | none => none
  | some id => match tokens.get id with
    | none => none
    | some record =>
      if record.secretHash ≠ hashTokenSecret secret then none
      else if record.token.revokedAt.isZero = false ∨ expired record.token now then none
      else some record.token

end

def userAllowsScope (users : UserTable) (userID required : Bytes) : Bool × Bool :=
  if isZero userID then (false,false)
  else match users.get userID with
  | none => (false,false)
  | some user => (true,roleAllowsScope user.role required)

end Kronos.Accounts
