import Kronos.Chunker
import Kronos.Envelope
import Kronos.ManifestCommit
import Kronos.WorkerPool

namespace Kronos.ChunkPipeline
open ByteRange Utf8 Chunk Chunker Envelope ObjectStore WorkerPool

-- A compressor under its name; either direction can report an error.
structure Compressor where
  algorithm : Bytes
  compress : Bytes → Option Bytes
  decompress : Bytes → Option Bytes

def noneCompressor : Compressor := ⟨ascii "none",some,some⟩

-- What the pipeline takes from its libraries and from the machine it runs on.
structure Platform where
  hashBytes : Bytes → Hash
  gzip : Compressor
  zstd : Compressor
  gomaxprocs : Nat

inductive Cause
  | context | read (message : Bytes) | unsupportedCompression (name : Bytes) | compressing | cipherRequired
  | keyIDRequired | envelope (fault : Envelope.Fault) | backendRequired | storage (fault : ManifestCommit.Fault)
  | backend (message : Bytes)
  deriving DecidableEq

inductive Fault
  | input (cause : Cause) | hash (sequence : Nat) (cause : Cause) | encode (sequence : Nat) (cause : Cause)
  | upload (sequence : Nat) (cause : Cause)
  deriving DecidableEq

structure Pipeline where
  chunker : Option FastCDC
  compressor : Option Compressor
  cipher : Option Cipher
  keyID : Bytes
  backend : Option ManifestCommit.Environment
  index : Option (List Hash)
  concurrency : Int
  channelCapacity : Int

structure PipelineChunk where
  sequence : Nat
  offset : Nat
  data : Bytes
  deriving DecidableEq

structure HashedChunk where
  chunk : PipelineChunk
  hash : Hash
  duplicate : Bool
  deriving DecidableEq

structure EncodedChunk where
  hashed : HashedChunk
  key : Bytes
  compression : Bytes
  encryption : Bytes
  keyID : Bytes
  payload : Bytes
  deriving DecidableEq

def contentKey (hash : Hash) : Bytes :=
  ascii "data/" ++ hash.text.take 2 ++ ascii "/" ++ (hash.text.drop 2).take 2 ++ ascii "/" ++ hash.text

def newCompressor (platform : Platform) (algorithm : Bytes) : Except Cause Compressor :=
  if algorithm = ascii "none" then .ok noneCompressor
  else if algorithm = ascii "gzip" then .ok platform.gzip
  else if algorithm = ascii "zstd" then .ok platform.zstd
  else .error (.unsupportedCompression algorithm)

def defaultMaxPipelineWorkers : Nat := 8

section
variable (platform : Platform) (p : Pipeline)

def workerCount : Nat :=
  if 0 < p.concurrency then p.concurrency.toNat
  else if platform.gomaxprocs < 1 then 1
  else if defaultMaxPipelineWorkers < platform.gomaxprocs then defaultMaxPipelineWorkers
  else platform.gomaxprocs

def channelCapacity (workers : Nat) : Nat :=
  if 0 < p.channelCapacity then p.channelCapacity.toNat
  else (if workers < 1 then 1 else workers) * 2

def capacity : Nat := channelCapacity p (workerCount platform p)

theorem workerCount_positive : 0 < workerCount platform p := by
  unfold workerCount defaultMaxPipelineWorkers
  split
  · omega
  · split
    · exact Nat.one_pos
    · split <;> omega

theorem capacity_positive : 0 < capacity platform p := by
  unfold capacity channelCapacity
  split
  · omega
  · split <;> omega

def chunkerOf : FastCDC := p.chunker.getD newDefaultFastCDC

def compressorOf : Compressor := p.compressor.getD noneCompressor

def number (chunks : List Chunker.Chunk) : List PipelineChunk :=
  chunks.mapIdx (fun sequence chunk => ⟨sequence,chunk.offset,chunk.data⟩)

def chunksOf (reader : Reader) : List PipelineChunk := number ((chunkerOf p).forEach reader).1

-- The hash, and whether it was seen before: an index stands in for the set that
-- a pipeline without one makes for itself.
def hashChunk (seen : List Hash) (chunk : PipelineChunk) : HashedChunk × List Hash :=
  let hash := platform.hashBytes chunk.data
  if hash ∈ seen then (⟨chunk,hash,true⟩,seen) else (⟨chunk,hash,false⟩,hash :: seen)

def encodeChunk (nonce : Option Bytes) (hashed : HashedChunk) : Except Cause EncodedChunk :=
  if hashed.duplicate then
    .ok ⟨hashed,contentKey hashed.hash,(compressorOf p).algorithm,
      (p.cipher.map Cipher.algorithm).getD [],if p.cipher.isSome then p.keyID else [],[]⟩
  else match p.cipher with
    | none => .error .cipherRequired
    | some cipher =>
      if p.keyID = [] then .error .keyIDRequired
      else match (compressorOf p).compress hashed.chunk.data with
        | none => .error .compressing
        | some compressed =>
          match sealEnvelope (some cipher) p.keyID nonce compressed hashed.hash.bytes with
          | .error fault => .error (.envelope fault)
          | .ok payload => .ok ⟨hashed,contentKey hashed.hash,(compressorOf p).algorithm,
              cipher.algorithm,p.keyID,payload⟩

def refOf (encoded : EncodedChunk) : ChunkRef where
  sequence := encoded.hashed.chunk.sequence
  hash := encoded.hashed.hash
  key := encoded.key
  offset := encoded.hashed.chunk.offset
  size := encoded.hashed.chunk.data.length
  storedSize := 0
  etag := []
  compression := encoded.compression
  encryption := encoded.encryption
  keyID := encoded.keyID
  duplicate := encoded.hashed.duplicate

def uploadChunk (store : Store) (encoded : EncodedChunk) : Except Cause (ChunkRef × Store) :=
  if encoded.hashed.duplicate then .ok (refOf encoded,store)
  else match p.backend with
    | none => .error .backendRequired
    | some backend =>
      match ManifestCommit.putObject backend encoded.key encoded.payload store with
      | .error fault => .error (.storage fault)
      | .ok (info,store) => .ok ({refOf encoded with storedSize := info.size,etag := info.etag},store)

end

def Stats.zero : Stats := ⟨0,0,0,0,0⟩

def count (stats : Stats) (ref : ChunkRef) : Stats :=
  let stats := {stats with chunks := stats.chunks + 1,bytesIn := stats.bytesIn + ref.size}
  if ref.duplicate then {stats with dedupedChunks := stats.dedupedChunks + 1}
  else {stats with
    uploadedChunks := stats.uploadedChunks + 1
    bytesUploaded := stats.bytesUploaded + ref.storedSize}

def sortRefs (refs : List ChunkRef) : List ChunkRef := refs.mergeSort (fun a b => decide (a.sequence ≤ b.sequence))

inductive Main
  | collecting (refs : List ChunkRef) (stats : Stats) | draining (stats : Stats) (fault : Fault)
  | returned (stats : Stats) (result : Except Fault (List ChunkRef))
  deriving DecidableEq

structure State where
  pending : List PipelineChunk
  chunking : Bool
  chunkCh : Channel PipelineChunk
  hashers : List (Worker PipelineChunk HashedChunk)
  hashCh : Channel HashedChunk
  encoders : List (Worker HashedChunk EncodedChunk)
  encodeCh : Channel EncodedChunk
  uploaders : List (Worker EncodedChunk ChunkRef)
  refCh : Channel ChunkRef
  seen : List Hash
  cancelled : Bool
  firstErr : Option Fault
  errCh : Option Fault
  main : Main
  store : Store

-- The first error is kept, sent to the caller and cancels the context.
def State.fail (s : State) (fault : Fault) : State :=
  if s.firstErr.isSome then s
  else {s with firstErr := some fault,errCh := some fault,cancelled := true}

def State.failIf (s : State) : Option Fault → State
  | none => s
  | some fault => s.fail fault

def State.hashStage (s : State) : Stage PipelineChunk HashedChunk := ⟨s.chunkCh,s.hashers,s.hashCh⟩

def State.encodeStage (s : State) : Stage HashedChunk EncodedChunk := ⟨s.hashCh,s.encoders,s.encodeCh⟩

def State.uploadStage (s : State) : Stage EncodedChunk ChunkRef := ⟨s.encodeCh,s.uploaders,s.refCh⟩

-- What a step is apart from the program's own course: a worker that leaves with
-- an item because the context is done, the caller's cancel, or a failure of the
-- backend or of the random source.
inductive Event
  | plain | abandoned | cancel | fault
  deriving DecidableEq

section
variable (platform : Platform) (p : Pipeline) (reader : Reader)

def inputFault : Option Fault :=
  ((chunkerOf p).forEach reader).2.error.map (fun message => .input (.read message))

def start (store : Store) : State where
  pending := chunksOf p reader
  chunking := true
  chunkCh := Channel.empty
  hashers := List.replicate (workerCount platform p) .idle
  hashCh := Channel.empty
  encoders := List.replicate (workerCount platform p) .idle
  encodeCh := Channel.empty
  uploaders := List.replicate (workerCount platform p) .idle
  refCh := Channel.empty
  seen := p.index.getD []
  cancelled := false
  firstErr := none
  errCh := none
  main := .collecting [] Stats.zero
  store := store

-- A nonce of the size the cipher asks for, or none when the random source fails.
def Drawn (nonce : Option Bytes) : Prop :=
  ∀ fresh, nonce = some fresh → ∀ cipher, p.cipher = some cipher → fresh.length = cipher.nonceSize

inductive Step (s : State) : Event → State → Prop
  -- The chunker hands its next chunk on, stops at a cancelled context, or ends.
  | sendChunk (chunk : PipelineChunk) (rest : List PipelineChunk) (next : s.pending = chunk :: rest)
      (alive : s.chunking = true) (room : s.chunkCh.queue.length < capacity platform p) :
      Step s .plain {s with pending := rest,chunkCh := ⟨s.chunkCh.queue ++ [chunk],false⟩}
  | stopChunk (next : s.pending ≠ []) (alive : s.chunking = true) (done : s.cancelled = true) :
      Step s .plain (State.fail {s with chunking := false,chunkCh := ⟨s.chunkCh.queue,true⟩} (.input .context))
  | endChunk (last : s.pending = []) (alive : s.chunking = true) :
      Step s .plain (State.failIf {s with chunking := false,chunkCh := ⟨s.chunkCh.queue,true⟩} (inputFault p reader))
  -- A stage moves an item or closes its channel.
  | hashing (stage : Stage PipelineChunk HashedChunk) (move : Move (capacity platform p) s.hashStage stage) :
      Step s .plain {s with chunkCh := stage.input,hashers := stage.workers,hashCh := stage.output}
  | encoding (stage : Stage HashedChunk EncodedChunk) (move : Move (capacity platform p) s.encodeStage stage) :
      Step s .plain {s with hashCh := stage.input,encoders := stage.workers,encodeCh := stage.output}
  | uploading (stage : Stage EncodedChunk ChunkRef) (move : Move (capacity platform p) s.uploadStage stage) :
      Step s .plain {s with encodeCh := stage.input,uploaders := stage.workers,refCh := stage.output}
  -- Workers look at the context before they hash, encode or put.
  | enterHash (chunk : PipelineChunk) (workers : List (Worker PipelineChunk HashedChunk))
      (turn : Turns (.holding chunk) (.working chunk) s.hashers workers) (live : s.cancelled = false) :
      Step s .plain {s with hashers := workers}
  | refuseHash (chunk : PipelineChunk) (workers : List (Worker PipelineChunk HashedChunk))
      (turn : Turns (.holding chunk) .gone s.hashers workers) (done : s.cancelled = true) :
      Step s .plain (State.fail {s with hashers := workers} (.hash chunk.sequence .context))
  | enterEncode (hashed : HashedChunk) (workers : List (Worker HashedChunk EncodedChunk))
      (turn : Turns (.holding hashed) (.working hashed) s.encoders workers) (live : s.cancelled = false) :
      Step s .plain {s with encoders := workers}
  | refuseEncode (hashed : HashedChunk) (workers : List (Worker HashedChunk EncodedChunk))
      (turn : Turns (.holding hashed) .gone s.encoders workers) (done : s.cancelled = true) :
      Step s .plain (State.fail {s with encoders := workers} (.encode hashed.chunk.sequence .context))
  | enterUpload (encoded : EncodedChunk) (workers : List (Worker EncodedChunk ChunkRef))
      (turn : Turns (.holding encoded) (.working encoded) s.uploaders workers)
      (live : encoded.hashed.duplicate = true ∨ s.cancelled = false) :
      Step s .plain {s with uploaders := workers}
  | refuseUpload (encoded : EncodedChunk) (worker : Worker EncodedChunk ChunkRef)
      (workers : List (Worker EncodedChunk ChunkRef)) (busy : worker = .holding encoded ∨ worker = .working encoded)
      (turn : Turns worker .gone s.uploaders workers) (fresh : encoded.hashed.duplicate = false)
      (done : s.cancelled = true) :
      Step s .plain (State.fail {s with uploaders := workers} (.upload encoded.hashed.chunk.sequence .context))
  | hash (chunk : PipelineChunk) (workers : List (Worker PipelineChunk HashedChunk))
      (turn : Turns (.working chunk) (.sending (hashChunk platform s.seen chunk).1) s.hashers workers) :
      Step s .plain {s with hashers := workers,seen := (hashChunk platform s.seen chunk).2}
  | encode (hashed : HashedChunk) (nonce : Option Bytes) (encoded : EncodedChunk)
      (workers : List (Worker HashedChunk EncodedChunk)) (drawn : Drawn p nonce)
      (made : encodeChunk p nonce hashed = .ok encoded)
      (turn : Turns (.working hashed) (.sending encoded) s.encoders workers) :
      Step s .plain {s with encoders := workers}
  | encodeFails (hashed : HashedChunk) (nonce : Option Bytes) (cause : Cause)
      (workers : List (Worker HashedChunk EncodedChunk)) (drawn : Drawn p nonce)
      (made : encodeChunk p nonce hashed = .error cause)
      (turn : Turns (.working hashed) .gone s.encoders workers) :
      Step s (if nonce.isSome then .plain else .fault)
        (State.fail {s with encoders := workers} (.encode hashed.chunk.sequence cause))
  | upload (encoded : EncodedChunk) (ref : ChunkRef) (store : Store) (workers : List (Worker EncodedChunk ChunkRef))
      (made : uploadChunk p s.store encoded = .ok (ref,store))
      (turn : Turns (.working encoded) (.sending ref) s.uploaders workers) :
      Step s .plain {s with uploaders := workers,store := store}
  | uploadFails (encoded : EncodedChunk) (cause : Cause) (workers : List (Worker EncodedChunk ChunkRef))
      (made : uploadChunk p s.store encoded = .error cause)
      (turn : Turns (.working encoded) .gone s.uploaders workers) :
      Step s .plain (State.fail {s with uploaders := workers} (.upload encoded.hashed.chunk.sequence cause))
  -- A put can fail before or after the object is in place.
  | uploadBreaks (encoded : EncodedChunk) (message : Bytes) (store : Store)
      (workers : List (Worker EncodedChunk ChunkRef)) (fresh : encoded.hashed.duplicate = false)
      (backed : p.backend.isSome = true)
      (left : store = s.store ∨ ∃ ref, uploadChunk p s.store encoded = .ok (ref,store))
      (turn : Turns (.working encoded) .gone s.uploaders workers) :
      Step s .fault (State.fail {s with uploaders := workers,store := store}
        (.upload encoded.hashed.chunk.sequence (.backend message)))
  -- A worker leaves with its result when the context is done; no error is recorded.
  | abandonHash (hashed : HashedChunk) (workers : List (Worker PipelineChunk HashedChunk))
      (turn : Turns (.sending hashed) .gone s.hashers workers) (done : s.cancelled = true) :
      Step s .abandoned {s with hashers := workers}
  | abandonEncode (encoded : EncodedChunk) (workers : List (Worker HashedChunk EncodedChunk))
      (turn : Turns (.sending encoded) .gone s.encoders workers) (done : s.cancelled = true) :
      Step s .abandoned {s with encoders := workers}
  | abandonUpload (ref : ChunkRef) (workers : List (Worker EncodedChunk ChunkRef))
      (turn : Turns (.sending ref) .gone s.uploaders workers) (done : s.cancelled = true) :
      Step s .abandoned {s with uploaders := workers}
  -- The caller of Feed collects references until the channel is closed or an
  -- error arrives.
  | collect (ref : ChunkRef) (rest refs : List ChunkRef) (stats : Stats) (next : s.refCh.queue = ref :: rest)
      (main : s.main = .collecting refs stats) :
      Step s .plain {s with
        refCh := ⟨rest,s.refCh.closed⟩
        main := .collecting (refs ++ [ref]) (count stats ref)}
  | finish (refs : List ChunkRef) (stats : Stats) (drained : s.refCh.queue = []) (closed : s.refCh.closed = true)
      (main : s.main = .collecting refs stats) :
      Step s .plain {s with main := .returned stats (match s.firstErr with
        | some fault => .error fault
        | none => .ok (sortRefs refs))}
  | takeErr (fault : Fault) (refs : List ChunkRef) (stats : Stats) (sent : s.errCh = some fault)
      (main : s.main = .collecting refs stats) :
      Step s .plain {s with errCh := none,cancelled := true,main := .draining stats fault}
  | drain (ref : ChunkRef) (rest : List ChunkRef) (stats : Stats) (fault : Fault)
      (next : s.refCh.queue = ref :: rest) (main : s.main = .draining stats fault) :
      Step s .plain {s with refCh := ⟨rest,s.refCh.closed⟩}
  | drained (stats : Stats) (fault : Fault) (drained : s.refCh.queue = []) (closed : s.refCh.closed = true)
      (main : s.main = .draining stats fault) :
      Step s .plain {s with main := .returned stats (.error fault)}
  | cancel (live : s.cancelled = false) : Step s .cancel {s with cancelled := true}

inductive Reached (allowed : State → Event → Prop) (store : Store) : State → Prop
  | start : Reached allowed store (start platform p reader store)
  | step {s next : State} {event : Event} (before : Reached allowed store s)
      (step : Step platform p reader s event next) (may : allowed s event) : Reached allowed store next

end
end Kronos.ChunkPipeline
