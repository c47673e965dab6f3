import Kronos.ManifestFormat
import Kronos.ObjectStore

namespace Kronos.ManifestCommit
open ByteRange Utf8 JsonText JsonValue Rfc3339 Hex Decimal Calendar ObjectStore ManifestFormat

-- The signature scheme: what a key signs is accepted under its public key.
structure Ed25519 where
  publicKey : Bytes → Bytes
  sign : Bytes → Bytes → Bytes
  verify : Bytes → Bytes → Bytes → Bool
  publicKey_size : ∀ key, key.length = 64 → (publicKey key).length = 32
  sign_size : ∀ key message, key.length = 64 → (sign key message).length = 64
  accepts : ∀ key message, key.length = 64 → verify (publicKey key) message (sign key message) = true

-- What the code runs against: float64 and time texts, the signature scheme, and
-- the keys and entity tags of the backend.
structure Environment where
  scalars : Scalars
  lenient : Bytes → Option Time
  scheme : Ed25519
  acceptsKey : Bytes → Bool
  etag : Bytes → Bytes
  ratio : Int → Int → Bytes
  ratio_stable : ∀ part whole, scalars.number (ratio part whole) = some (ratio part whole)
  zero_stable : scalars.number (ascii "0") = some (ascii "0")

inductive Fault
  | backupIDRequired | targetRequired | privateKeySize | time | invalidKey (key : Bytes) | conflict (key : Bytes)
  | notFound (key : Bytes) | keyRequired | tooLarge (key : Bytes) | unreadable | version (got : Int64) | publicKeySize
  | signatureMissing | algorithm (name : Bytes) | signatureHex | signatureMismatch
  deriving DecidableEq

structure ObjectInfo where
  key : Bytes
  size : Nat
  etag : Bytes
  deriving DecidableEq

structure CommitOptions where
  backupID : Bytes
  target : Bytes
  driver : Driver
  type : Bytes
  parentID : Option Bytes
  startedAt : Time
  finishedAt : Time
  encryption : Encryption
  privateKey : Bytes

structure BackupResult where
  chunks : List Chunk.ChunkRef
  stats : Chunk.Stats

structure CommitResult where
  manifest : Manifest
  key : Bytes
  info : ObjectInfo

def maxManifestBytes : Nat := 64 * 1024 * 1024

def manifestVersion : Int64 := 1

def chunkFromPipeline (ref : Chunk.ChunkRef) : ChunkRef where
  hash := ref.hash.text
  key := ref.key
  offset := Int64.ofInt ref.offset
  size := Int64.ofInt ref.size
  storedSize := Int64.ofInt ref.storedSize
  etag := ref.etag
  compression := ref.compression
  encryption := ref.encryption
  keyID := ref.keyID

section
variable (env : Environment)

def dedupRatio (stats : Chunk.Stats) : Bytes :=
  if stats.chunks = 0 then ascii "0" else env.ratio stats.dedupedChunks stats.chunks

def unsigned (backup : BackupResult) (opts : CommitOptions) : Manifest where
  version := manifestVersion
  backupID := opts.backupID
  target := opts.target
  driver := opts.driver
  type := opts.type
  parentID := opts.parentID
  startedAt := opts.startedAt
  finishedAt := opts.finishedAt
  compression := []
  encryption := opts.encryption
  stats := ⟨Int64.ofInt backup.stats.bytesIn,Int64.ofInt backup.stats.bytesUploaded,
    Int64.ofInt backup.stats.chunks,dedupRatio env backup.stats⟩
  objects := some [⟨[],ascii "stream",some (backup.chunks.map chunkFromPipeline)⟩]
  streams := []
  signature := none

def marshal (style : Style) (m : Manifest) : Except Fault Bytes :=
  if Shown m.startedAt ∧ Shown m.finishedAt then
    .ok ((Manifest.codec env.scalars env.lenient).marshal style m)
  else .error .time

def canonicalJSON (m : Manifest) : Except Fault Bytes := marshal env compact {m with signature := none}

def sign (m : Manifest) (privateKey : Bytes) : Except Fault Manifest :=
  if privateKey.length ≠ 64 then .error .privateKeySize
  else do
    let canonical ← canonicalJSON env m
    return {m with signature := some ⟨ascii "ed25519",hexText (env.scheme.sign privateKey canonical)⟩}

def verifySignature (m : Manifest) (publicKey : Bytes) (signature : Signature) : Except Fault Unit :=
  if signature.algorithm ≠ ascii "ed25519" then .error (.algorithm signature.algorithm)
  else match unhex signature.value with
    | none => .error .signatureHex
    | some sig => do
      let canonical ← canonicalJSON env m
      if env.scheme.verify publicKey canonical sig = false then .error .signatureMismatch else .ok ()

def verify (m : Manifest) (publicKey : Bytes) : Except Fault Unit :=
  if publicKey.length ≠ 32 then .error .publicKeySize
  else match m.signature with
    | none => .error .signatureMissing
    | some signature => verifySignature env m publicKey signature

def parse (data : Bytes) : Except Fault Manifest :=
  match (Manifest.codec env.scalars env.lenient).unmarshal data with
  | none => .error .unreadable
  | some m => if m.version ≠ manifestVersion then .error (.version m.version) else .ok m

def info (key data : Bytes) : ObjectInfo := ⟨key,data.length,env.etag data⟩

def putObject (key data : Bytes) (store : Store) : Except Fault (ObjectInfo × Store) :=
  if env.acceptsKey key = false then .error (.invalidKey key)
  else if (store.get key).isSome then .error (.conflict key)
  else .ok (info env key data,store.put key data)

def getObject (key : Bytes) (store : Store) : Except Fault (Bytes × ObjectInfo) :=
  if env.acceptsKey key = false then .error (.invalidKey key)
  else match store.get key with
    | none => .error (.notFound key)
    | some data => .ok (data,info env key data)

-- Year, month and day of the end in UTC; a zero time stands for the clock's.
def manifestKey (now finishedAt : Time) (backupID : Bytes) : Bytes :=
  let day := (if finishedAt.isZero then now else finishedAt).utc.day
  ascii "manifests/" ++ atLeast 4 (yearOf day) ++ ascii "/" ++ atLeast 2 (monthOf day) ++ ascii "/" ++
    atLeast 2 (dayOf day) ++ ascii "/" ++ backupID ++ ascii ".manifest"

def commitManifest (now : Time) (store : Store) (backup : BackupResult) (opts : CommitOptions) :
    Except Fault (CommitResult × Store) :=
  if opts.backupID = [] then .error .backupIDRequired
  else if opts.target = [] then .error .targetRequired
  else do
    let m ← sign env (unsigned env backup opts) opts.privateKey
    let data ← marshal env indented m
    let (info,store) ← putObject env (manifestKey now opts.finishedAt opts.backupID) data store
    return (⟨m,manifestKey now opts.finishedAt opts.backupID,info⟩,store)

def loadManifest (store : Store) (key publicKey : Bytes) : Except Fault (Manifest × ObjectInfo) :=
  if key = [] then .error .keyRequired
  else do
    let (data,info) ← getObject env key store
    if maxManifestBytes < data.length then .error (.tooLarge key)
    else do
      let m ← parse env data
      verify env m publicKey
      return (m,info)

end
end Kronos.ManifestCommit
