import Kronos.GoJson
import Kronos.JsonStruct
import Kronos.ScheduleStore

namespace Kronos.StorageOptions
open ByteRange Utf8 Strings JsonString JsonText JsonValue GoJson JsonStruct Rfc3339 RecordTable

structure EncryptedOptionValue where
  marker : Bytes
  algorithm : Bytes
  nonce : Bytes
  ciphertext : Bytes
  deriving DecidableEq,Repr

-- An option value: what JSON or the configuration gave, or what the protector
-- made of it.
inductive OptionValue
  | any (value : GoValue) | encrypted (value : EncryptedOptionValue)

abbrev Options := Table (Prod.fst : Bytes × OptionValue → Bytes)

def optionOf (options : Options) (key : Bytes) : Option OptionValue := (options.get key).map Prod.snd

structure Storage where
  id : Bytes
  name : Bytes
  kind : Bytes
  uri : Bytes
  options : Options
  createdAt : Time
  updatedAt : Time
  labels : Table (Prod.fst : Bytes × Bytes → Bytes)

abbrev StorageTable := Table Storage.id

def kindLocal : Bytes := ascii "local"

def kindS3 : Bytes := ascii "s3"

def kindSFTP : Bytes := ascii "sftp"

def kindAzure : Bytes := ascii "azure"

def kindGCS : Bytes := ascii "gcs"

def storageKinds : List Bytes := [kindLocal,kindS3,kindSFTP,kindAzure,kindGCS]

def storageOptionKeys : List Bytes := [
  ascii "accessKey",ascii "access_key",ascii "aws_access_key_id",ascii "aws_secret_access_key",
  ascii "account",ascii "accountKey",ascii "accountName",ascii "account_key",ascii "account_name",
  ascii "accessToken",ascii "access_token",ascii "apiKey",ascii "api_key",ascii "aws_session_token",
  ascii "bearerToken",ascii "bearer_token",ascii "bucket",ascii "container",ascii "credentials",
  ascii "credentials_provider",ascii "endpoint",
  ascii "force_path_style",ascii "imds_endpoint",ascii "region",ascii "secretKey",ascii "secret_key",
  ascii "sas",ascii "sasToken",ascii "sas_token",ascii "sessionToken",ascii "session_token",
  ascii "agent_socket",ascii "insecure_ignore_host_key",ascii "knownHosts",ascii "known_hosts",
  ascii "passphrase",ascii "password",ascii "privateKey",ascii "privateKeyPassphrase",
  ascii "private_key",ascii "private_key_passphrase",ascii "private_key_path",ascii "ssh_agent_socket",
  ascii "prefix",ascii "user",ascii "username"]

def secretMarkers : List Bytes := [
  ascii "password",ascii "secret",ascii "token",ascii "passphrase",ascii "credential",ascii "private_key",
  ascii "access_key",ascii "session_key",ascii "encryption_key",ascii "api_key",ascii "apikey"]

def contains (text part : Bytes) : Bool := text.tails.any (fun rest => part.isPrefixOf rest)

-- The redaction reads dashes and dots as underscores, the protector does not.
def isSecretOptionKey (key : Bytes) : Bool :=
  let normalized := toLower (key.map (fun b => if b = 45 ∨ b = 46 then 95 else b))
  secretMarkers.any (fun marker => contains normalized marker)

def sensitiveOptionKey (key : Bytes) : Bool := secretMarkers.any (fun marker => contains (toLower key) marker)

inductive Fault
  | field (refusal : ScheduleStore.Refusal) | kind (kind : Bytes) | controlCharacters | uri | scheme (text : String)
  | localHost | localPath | place (text : String) | option (key : Bytes) | scalar (key : Bytes) | marshal (key : Bytes)
  | nonce
  deriving DecidableEq

-- The parts of a parsed URL that are read.
structure URL where
  scheme : Bytes
  host : Bytes
  path : Bytes
  password : Option Bytes
  deriving DecidableEq,Repr

def hasControlChars (text : Bytes) : Bool := text.any (fun b => b < 0x20 || b = 0x7F)

def schemeAndHost (schemes : List Bytes) (scheme host : String) (url : URL) : Except Fault Unit :=
  if url.scheme ∉ schemes then .error (.scheme scheme)
  else if url.host = [] then .error (.place host)
  else .ok ()

def validateStorageURI (parseURL : Bytes → Option URL) (kind raw : Bytes) : Except Fault Unit :=
  if hasControlChars raw then .error .controlCharacters
  else match parseURL raw with
  | none => .error .uri
  | some url =>
    if kind = kindLocal then
      if url.scheme = [] then .ok ()
      else if url.scheme ≠ ascii "file" then .error (.scheme "local storage uri must use file scheme")
      else if url.host ≠ [] then .error .localHost
      else if url.path = [] then .error .localPath
      else .ok ()
    else if kind = kindS3 then
      schemeAndHost [ascii "s3"] "s3 storage uri must use s3 scheme" "s3 storage uri bucket is required" url
    else if kind = kindSFTP then
      schemeAndHost [ascii "sftp"] "sftp storage uri must use sftp scheme" "sftp storage uri host is required" url
    else if kind = kindAzure then do
      schemeAndHost [ascii "azure",ascii "azblob"] "azure storage uri must use azure or azblob scheme"
        "azure storage uri account is required" url
      if url.path.all (fun b => b = 47) then .error (.place "azure storage uri container is required") else .ok ()
    else if kind = kindGCS then
      schemeAndHost [ascii "gcs",ascii "gs"] "gcs storage uri must use gcs or gs scheme"
        "gcs storage uri bucket is required" url
    else .ok ()

def scalarValue : OptionValue → Bool
  | .any .absent | .any (.bool _) | .any (.int _) | .any (.float _) | .any (.str _) => true
  | _ => false

-- Which of several faulty options is named is left to the order of the map.
def validateOptions (options : Options) : Except Fault Unit :=
  match options.rows.find? (fun entry => decide (entry.1 ∉ storageOptionKeys)) with
  | some entry => .error (.option entry.1)
  | none => match options.rows.find? (fun entry => !scalarValue entry.2) with
    | some entry => .error (.scalar entry.1)
    | none => .ok ()

def validateStorage (parseURL : Bytes → Option URL) (storage : Storage) : Except Fault Unit := do
  (ScheduleStore.validateResourceID "storage id" storage.id).mapError .field
  if storage.name = [] then .error (.field (.required "storage name"))
  else if storage.kind = [] then .error (.field (.required "storage kind"))
  else if storage.kind ∉ storageKinds then .error (.kind storage.kind)
  else if storage.uri = [] then .error (.field (.required "storage uri"))
  else do
    validateStorageURI parseURL storage.kind storage.uri
    validateOptions storage.options

def encryptedOptionMarker : Bytes := ascii "kronos-state-secret:v1"

inductive EncryptedField
  | marker | algorithm | nonce | ciphertext
  deriving DecidableEq,Repr

def encryptedLayout : Layout EncryptedOptionValue EncryptedField where
  fields := [.marker,.algorithm,.nonce,.ciphertext]
  name := fun
    | .marker => ascii "_kronos_secret"
    | .algorithm => ascii "algorithm"
    | .nonce => ascii "nonce"
    | .ciphertext => ascii "ciphertext"
  value := fun value field => some (.str (match field with
    | .marker => value.marker
    | .algorithm => value.algorithm
    | .nonce => value.nonce
    | .ciphertext => value.ciphertext))
  assign := fun value field json => match json,field with
    | .null,_ => some value
    | .str token,.marker => (unquote token).map (fun marker => {value with marker})
    | .str token,.algorithm => (unquote token).map (fun algorithm => {value with algorithm})
    | .str token,.nonce => (unquote token).map (fun nonce => {value with nonce})
    | .str token,.ciphertext => (unquote token).map (fun ciphertext => {value with ciphertext})
    | _,_ => none

def marshalValue (value : GoValue) : Option Bytes := (shape value).map (fun json => write compact 0 (quoteAll json))

def encryptedOptionFromAny : OptionValue → Option EncryptedOptionValue
  | .encrypted value => some value
  | .any (.map entries) =>
    match (marshalValue (.map entries)).bind decode with
    | some (.obj members) => encryptedLayout.readMembers ⟨[],[],[],[]⟩ members
    | _ => none
  | _ => none

def isEncryptedOptionValue (value : OptionValue) : Bool :=
  match encryptedOptionFromAny value with
  | some encrypted => encrypted.marker = encryptedOptionMarker
  | none => false

-- The cipher of a protector, the nonce it draws for each option and the text
-- form of bytes.
structure StateSecretProtector where
  algorithm : Bytes
  newNonce : Bytes → Option Bytes
  sealWith : Bytes → Bytes → Bytes → Bytes
  encodeToString : Bytes → Bytes

def protectValue (p : StateSecretProtector) (key : Bytes) (value : OptionValue) : Except Fault EncryptedOptionValue :=
  let plaintext := match value with
    | .any value => marshalValue value
    | .encrypted value => some (write compact 0 (quoteAll (.obj (encryptedLayout.members value))))
  match plaintext,p.newNonce key with
  | none,_ => .error (.marshal key)
  | some _,none => .error .nonce
  | some plaintext,some nonce => .ok {
      marker := encryptedOptionMarker
      algorithm := p.algorithm
      nonce := p.encodeToString nonce
      ciphertext := p.encodeToString (p.sealWith nonce plaintext key)}

def protectOption (p : Option StateSecretProtector) (key : Bytes) (value : OptionValue) : Except Fault OptionValue :=
  if sensitiveOptionKey key = false then .ok value
  else if isEncryptedOptionValue value then .ok value
  else match p with
  | none => .ok value
  | some p => (protectValue p key value).map .encrypted

def optionFault (p : Option StateSecretProtector) (entry : Bytes × OptionValue) : Option Fault :=
  match protectOption p entry.1 entry.2 with
  | .error fault => some fault
  | .ok _ => none

def protectedEntry (p : Option StateSecretProtector) (entry : Bytes × OptionValue) : Bytes × OptionValue :=
  match protectOption p entry.1 entry.2 with
  | .error _ => entry
  | .ok value => (entry.1,value)

theorem protectedEntry_key (p : Option StateSecretProtector) (entry : Bytes × OptionValue) :
    (protectedEntry p entry).1 = entry.1 := by
  unfold protectedEntry
  split <;> rfl

def protectOptions (p : Option StateSecretProtector) (options : Options) : Except Fault Options :=
  match options.rows.findSome? (optionFault p) with
  | some fault => .error fault
  | none => .ok (options.rewrite (protectedEntry p) (protectedEntry_key p))

-- StorageStore.Save.
def save (parseURL : Bytes → Option URL) (p : Option StateSecretProtector) (table : StorageTable) (storage : Storage) :
    Except Fault StorageTable := do
  validateStorage parseURL storage
  let options ← protectOptions p storage.options
  return table.put {storage with options}

def redacted : OptionValue := .any (.str (ascii "***REDACTED***"))

def redactEntry (entry : Bytes × OptionValue) : Bytes × OptionValue :=
  (entry.1,if isSecretOptionKey entry.1 then redacted else entry.2)

def redactOptions (options : Options) : Options := options.rewrite redactEntry (fun _ => rfl)

def redactStorage (storage : Storage) : Storage := {storage with options := redactOptions storage.options}

-- The agent. The option keys it reads each credential from, in their order.
def s3AccessKey : List Bytes := [ascii "access_key",ascii "accessKey",ascii "aws_access_key_id"]

def s3SecretKey : List Bytes := [ascii "secret_key",ascii "secretKey",ascii "aws_secret_access_key"]

def s3SessionToken : List Bytes := [ascii "session_token",ascii "sessionToken",ascii "aws_session_token"]

def s3Provider : List Bytes := [ascii "credentials",ascii "credentials_provider"]

def sftpPassword : List Bytes := [ascii "password"]

def sftpPrivateKey : List Bytes := [ascii "private_key",ascii "privateKey"]

def sftpPassphrase : List Bytes := [ascii "passphrase",ascii "private_key_passphrase",ascii "privateKeyPassphrase"]

def azureAccountKey : List Bytes := [ascii "account_key",ascii "accountKey"]

def azureSASToken : List Bytes := [ascii "sas_token",ascii "sasToken",ascii "sas"]

def gcsBearerToken : List Bytes :=
  [ascii "bearer_token",ascii "bearerToken",ascii "access_token",ascii "accessToken"]

def gcsAPIKey : List Bytes := [ascii "api_key",ascii "apiKey"]

def credentialKeys (kind : Bytes) : List Bytes :=
  if kind = kindS3 then s3AccessKey ++ s3SecretKey ++ s3SessionToken ++ s3Provider
  else if kind = kindSFTP then sftpPassword ++ sftpPrivateKey ++ sftpPassphrase
  else if kind = kindAzure then azureAccountKey ++ azureSASToken
  else if kind = kindGCS then gcsBearerToken ++ gcsAPIKey
  else []

structure Credentials where
  accessKey : Bytes
  secretKey : Bytes
  sessionToken : Bytes
  deriving DecidableEq,Repr

inductive CredentialField
  | accessKey | accessKeyID | awsAccessKeyID | secretKey | secretAccessKey | awsSecretKey | sessionToken
  | awsSessionToken | token
  deriving DecidableEq,Repr

def CredentialField.name : CredentialField → Bytes
  | .accessKey => ascii "access_key"
  | .accessKeyID => ascii "access_key_id"
  | .awsAccessKeyID => ascii "aws_access_key_id"
  | .secretKey => ascii "secret_key"
  | .secretAccessKey => ascii "secret_access_key"
  | .awsSecretKey => ascii "aws_secret_access_key"
  | .sessionToken => ascii "session_token"
  | .awsSessionToken => ascii "aws_session_token"
  | .token => ascii "token"

def credentialLayout : Layout (CredentialField → Bytes) CredentialField where
  fields := [.accessKey,.accessKeyID,.awsAccessKeyID,.secretKey,.secretAccessKey,.awsSecretKey,.sessionToken,
    .awsSessionToken,.token]
  name := CredentialField.name
  value := fun raw field => some (.str (raw field))
  assign := fun raw field json => match json with
    | .null => some raw
    | .str token => (unquote token).map (fun text => Function.update raw field text)
    | _ => none

def firstNonEmpty (values : List Bytes) : Bytes := (values.find? (fun value => decide (value ≠ []))).getD []

def parseS3Credentials (value : Bytes) : Option Credentials := do
  let raw ← match ← decode value with
    | .obj members => credentialLayout.readMembers (fun _ => []) members
    | .null => some (fun _ => [])
    | _ => none
  let creds : Credentials := {
    accessKey := firstNonEmpty [raw .accessKey,raw .accessKeyID,raw .awsAccessKeyID]
    secretKey := firstNonEmpty [raw .secretKey,raw .secretAccessKey,raw .awsSecretKey]
    sessionToken := firstNonEmpty [raw .sessionToken,raw .awsSessionToken,raw .token]}
  if creds.accessKey = [] ∨ creds.secretKey = [] then none else some creds

inductive S3Source
  | static (credentials : Credentials) | env | imds (endpoint : Bytes)
  deriving DecidableEq,Repr

section
variable (sprint : OptionValue → Bytes)

-- A value that is no string is shown as fmt.Sprint shows it; nil is skipped.
def shown : OptionValue → Option Bytes
  | .any .absent => none
  | .any (.str text) => some text
  | value => some (sprint value)

def optionString (options : Options) (keys : List Bytes) : Bytes :=
  (keys.findSome? (fun key => (optionOf options key).bind (shown sprint))).getD []

def s3Credentials (options : Options) : Option S3Source :=
  let accessKey := optionString sprint options s3AccessKey
  if accessKey ≠ [] then
    some (.static ⟨accessKey,optionString sprint options s3SecretKey,optionString sprint options s3SessionToken⟩)
  else
    let credentials := trimSpace (optionString sprint options s3Provider)
    if toLower credentials ∈ [[],ascii "env",ascii "aws",ascii "aws_env"] then some .env
    else if toLower credentials ∈ [ascii "imds",ascii "instance_metadata"] then
      some (.imds (optionString sprint options [ascii "imds_endpoint"]))
    else (parseS3Credentials credentials).map .static

def sftpPasswordOf (url : URL) (options : Options) : Bytes :=
  let password := optionString sprint options sftpPassword
  if password = [] then url.password.getD [] else password

-- The secrets of the backend configuration that the agent makes of a storage.
def agentSecrets (kind : Bytes) (url : URL) (options : Options) : List Bytes :=
  if kind = kindS3 then
    match s3Credentials sprint options with
    | some (.static creds) => [creds.accessKey,creds.secretKey,creds.sessionToken]
    | _ => []
  else if kind = kindSFTP then
    [sftpPasswordOf sprint url options,optionString sprint options sftpPrivateKey,
      optionString sprint options sftpPassphrase]
  else if kind = kindAzure then
    [optionString sprint options azureAccountKey,optionString sprint options azureSASToken]
  else if kind = kindGCS then
    [optionString sprint options gcsBearerToken,optionString sprint options gcsAPIKey]
  else []

end
end Kronos.StorageOptions
