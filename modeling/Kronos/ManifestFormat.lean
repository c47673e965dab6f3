import Kronos.Chunk
import Kronos.JsonCodec

namespace Kronos.ManifestFormat
open ByteRange Utf8 JsonValue JsonCodec Rfc3339

structure Driver where
  name : Bytes
  version : Bytes
  sourceTZ : Bytes
  deriving DecidableEq

structure Encryption where
  algorithm : Bytes
  keyID : Bytes
  kdf : Bytes
  deriving DecidableEq

-- The ratio is a float64, held as its text.
structure Stats where
  logicalSizeBytes : Int64
  storedSizeBytes : Int64
  chunkCount : Int64
  dedupRatio : Bytes
  deriving DecidableEq

structure ChunkRef where
  hash : Bytes
  key : Bytes
  offset : Int64
  size : Int64
  storedSize : Int64
  etag : Bytes
  compression : Bytes
  encryption : Bytes
  keyID : Bytes
  deriving DecidableEq

-- A slice that is nil is told apart from an empty one.
structure Object where
  schema : Bytes
  name : Bytes
  chunks : Option (List ChunkRef)
  deriving DecidableEq

structure Signature where
  algorithm : Bytes
  value : Bytes
  deriving DecidableEq

structure Manifest where
  version : Int64
  backupID : Bytes
  target : Bytes
  driver : Driver
  type : Bytes
  parentID : Option Bytes
  startedAt : Time
  finishedAt : Time
  compression : Bytes
  encryption : Encryption
  stats : Stats
  objects : Option (List Object)
  streams : List (Bytes × Bytes)
  signature : Option Signature
  deriving DecidableEq

def Driver.back (driver : Driver) : Driver :=
  ⟨repair driver.name,repair driver.version,repair driver.sourceTZ⟩

def Encryption.back (encryption : Encryption) : Encryption :=
  ⟨repair encryption.algorithm,repair encryption.keyID,repair encryption.kdf⟩

def ChunkRef.back (ref : ChunkRef) : ChunkRef :=
  {ref with hash := repair ref.hash, key := repair ref.key, etag := repair ref.etag, compression := repair ref.compression, encryption := repair ref.encryption, keyID := repair ref.keyID}

def Object.back (object : Object) : Object :=
  ⟨repair object.schema,repair object.name,object.chunks.map (List.map ChunkRef.back)⟩

def Signature.back (signature : Signature) : Signature := ⟨repair signature.algorithm,repair signature.value⟩

def Manifest.back (m : Manifest) : Manifest where
  version := m.version
  backupID := repair m.backupID
  target := repair m.target
  driver := m.driver.back
  type := repair m.type
  parentID := m.parentID.map repair
  startedAt := wholeMinutes m.startedAt
  finishedAt := wholeMinutes m.finishedAt
  compression := repair m.compression
  encryption := m.encryption.back
  stats := m.stats
  objects := m.objects.map (List.map Object.back)
  streams := SortedRun.putAll Prod.fst [] (m.streams.map repairPair)
  signature := m.signature.map Signature.back

def Driver.fields : List (StructField Driver) :=
  [.always (ascii "name") text Driver.name (fun name driver => {driver with name}),
   .always (ascii "version") text Driver.version (fun version driver => {driver with version}),
   .omitempty (ascii "source_tz") Driver.sourceTZ (fun sourceTZ driver => {driver with sourceTZ})]

def Driver.codec : Codec Driver := struct ⟨[],[],[]⟩ Driver.fields Driver.back
  (layout_named [ascii "name",ascii "version",ascii "source_tz"] rfl (by decide) (by decide))
  (fun _ => ⟨rfl,rfl,rfl,rfl,rfl,rfl,rfl⟩)

def Encryption.fields : List (StructField Encryption) :=
  [.always (ascii "algo") text Encryption.algorithm (fun algorithm encryption => {encryption with algorithm}),
   .always (ascii "key_id") text Encryption.keyID (fun keyID encryption => {encryption with keyID}),
   .omitempty (ascii "kdf") Encryption.kdf (fun kdf encryption => {encryption with kdf})]

def Encryption.codec : Codec Encryption := struct ⟨[],[],[]⟩ Encryption.fields Encryption.back
  (layout_named [ascii "algo",ascii "key_id",ascii "kdf"] rfl (by decide) (by decide))
  (fun _ => ⟨rfl,rfl,rfl,rfl,rfl,rfl,rfl⟩)

def ChunkRef.fields : List (StructField ChunkRef) :=
  [.always (ascii "hash") text ChunkRef.hash (fun hash ref => {ref with hash}),
   .always (ascii "key") text ChunkRef.key (fun key ref => {ref with key}),
   .always (ascii "offset") int ChunkRef.offset (fun offset ref => {ref with offset}),
   .always (ascii "size") int ChunkRef.size (fun size ref => {ref with size}),
   .always (ascii "stored_size") int ChunkRef.storedSize (fun storedSize ref => {ref with storedSize}),
   .omitempty (ascii "etag") ChunkRef.etag (fun etag ref => {ref with etag}),
   .omitempty (ascii "compression") ChunkRef.compression (fun compression ref => {ref with compression}),
   .omitempty (ascii "encryption") ChunkRef.encryption (fun encryption ref => {ref with encryption}),
   .omitempty (ascii "key_id") ChunkRef.keyID (fun keyID ref => {ref with keyID})]

def ChunkRef.codec : Codec ChunkRef := struct ⟨[],[],0,0,0,[],[],[],[]⟩ ChunkRef.fields ChunkRef.back
  (layout_named [ascii "hash",ascii "key",ascii "offset",ascii "size",ascii "stored_size",ascii "etag",
    ascii "compression",ascii "encryption",ascii "key_id"] rfl (by decide) (by decide))
  (fun _ => ⟨rfl,rfl,rfl,rfl,rfl,rfl,rfl,rfl,rfl,rfl,rfl,rfl,rfl,rfl,rfl,rfl,rfl,rfl,rfl⟩)

def Object.fields : List (StructField Object) :=
  [.omitempty (ascii "schema") Object.schema (fun schema object => {object with schema}),
   .always (ascii "name") text Object.name (fun name object => {object with name}),
   .always (ascii "chunks") (slice ChunkRef.codec) Object.chunks (fun chunks object => {object with chunks})]

def Object.codec : Codec Object := struct ⟨[],[],none⟩ Object.fields Object.back
  (layout_named [ascii "schema",ascii "name",ascii "chunks"] rfl (by decide) (by decide))
  (fun _ => ⟨rfl,rfl,rfl,rfl,rfl,rfl,rfl⟩)

def Signature.fields : List (StructField Signature) :=
  [.always (ascii "algo") text Signature.algorithm (fun algorithm signature => {signature with algorithm}),
   .always (ascii "value") text Signature.value (fun value signature => {signature with value})]

def Signature.codec : Codec Signature := struct ⟨[],[]⟩ Signature.fields Signature.back
  (layout_named [ascii "algo",ascii "value"] rfl (by decide) (by decide)) (fun _ => ⟨rfl,rfl,rfl,rfl,rfl⟩)

section
variable (scalars : Scalars) (lenient : Bytes → Option Time)

def Stats.fields : List (StructField Stats) :=
  [.always (ascii "logical_size_bytes") int Stats.logicalSizeBytes
    (fun logicalSizeBytes stats => {stats with logicalSizeBytes}),
   .always (ascii "stored_size_bytes") int Stats.storedSizeBytes
    (fun storedSizeBytes stats => {stats with storedSizeBytes}),
   .always (ascii "chunk_count") int Stats.chunkCount (fun chunkCount stats => {stats with chunkCount}),
   .always (ascii "dedup_ratio") (float scalars) Stats.dedupRatio
    (fun dedupRatio stats => {stats with dedupRatio})]

def Stats.codec : Codec Stats := struct ⟨0,0,0,ascii "0"⟩ (Stats.fields scalars) id
  (layout_named [ascii "logical_size_bytes",ascii "stored_size_bytes",ascii "chunk_count",
    ascii "dedup_ratio"] rfl (by decide) (by decide))
  (fun _ => ⟨rfl,rfl,rfl,rfl,rfl,rfl,rfl,rfl,rfl⟩)

def Manifest.zero : Manifest :=
  ⟨0,[],[],⟨[],[],[]⟩,[],none,Time.zero,Time.zero,[],⟨[],[],[]⟩,⟨0,0,0,ascii "0"⟩,none,[],none⟩

def Manifest.fields : List (StructField Manifest) :=
  [.always (ascii "kronos_manifest") int Manifest.version (fun version m => {m with version}),
   .always (ascii "backup_id") text Manifest.backupID (fun backupID m => {m with backupID}),
   .always (ascii "target") text Manifest.target (fun target m => {m with target}),
   .always (ascii "driver") Driver.codec Manifest.driver (fun driver m => {m with driver}),
   .always (ascii "type") text Manifest.type (fun type m => {m with type}),
   .always (ascii "parent_id") (pointer text (by simp [text])) Manifest.parentID
    (fun parentID m => {m with parentID}),
   .always (ascii "started_at") (time lenient) Manifest.startedAt (fun startedAt m => {m with startedAt}),
   .always (ascii "finished_at") (time lenient) Manifest.finishedAt (fun finishedAt m => {m with finishedAt}),
   .omitempty (ascii "compression") Manifest.compression (fun compression m => {m with compression}),
   .always (ascii "encryption") Encryption.codec Manifest.encryption (fun encryption m => {m with encryption}),
   .always (ascii "stats") (Stats.codec scalars) Manifest.stats (fun stats m => {m with stats}),
   .always (ascii "objects") (slice Object.codec) Manifest.objects (fun objects m => {m with objects}),
   ⟨ascii "streams",_,strings,Manifest.streams,fun streams m => {m with streams},List.isEmpty,
    by simp [strings,SortedRun.putAll]⟩,
   ⟨ascii "signature",_,pointer Signature.codec (by simp [Signature.codec,struct]),Manifest.signature,
    fun signature m => {m with signature},Option.isNone,by simp [pointer]⟩]

def Manifest.codec : Codec Manifest := struct Manifest.zero (Manifest.fields scalars lenient) Manifest.back
  (layout_named [ascii "kronos_manifest",ascii "backup_id",ascii "target",ascii "driver",ascii "type",
    ascii "parent_id",ascii "started_at",ascii "finished_at",ascii "compression",ascii "encryption",
    ascii "stats",ascii "objects",ascii "streams",ascii "signature"] rfl (by decide) (by decide))
  (fun _ => ⟨rfl,rfl,rfl,rfl,rfl,rfl,rfl,rfl,rfl,rfl,rfl,rfl,rfl,rfl,rfl,rfl,rfl,rfl,rfl,rfl,rfl,rfl,rfl,rfl,
    rfl,rfl,rfl,rfl,rfl⟩)

theorem Object.fits (object : Object) : Object.codec.Fits object :=
  ⟨trivial,trivial,fun _ _ => ⟨trivial,trivial,trivial,trivial,trivial,trivial,trivial,trivial,trivial,trivial⟩,
    trivial⟩

-- A manifest can be written as soon as its times can; the ratio is a number.
theorem Manifest.fits (started : Shown m.startedAt) (finished : Shown m.finishedAt)
    (ratio : scalars.number m.stats.dedupRatio = some m.stats.dedupRatio) : (Manifest.codec scalars lenient).Fits m :=
  ⟨trivial,trivial,trivial,⟨trivial,trivial,trivial,trivial⟩,trivial,fun _ _ => trivial,started,finished,trivial,
    ⟨trivial,trivial,trivial,trivial⟩,⟨trivial,trivial,trivial,ratio,trivial⟩,fun object _ => object.fits,trivial,
    fun _ _ => ⟨trivial,trivial,trivial⟩,trivial⟩

end
end Kronos.ManifestFormat
