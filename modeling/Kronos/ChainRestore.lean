import Kronos.PipelineRestore
import Kronos.Strings

namespace Kronos.ChainRestore
open Effect ByteRange Utf8 Hex Strings Chunk ObjectStore ManifestCommit ChunkPipeline PipelineRestore MergedStreams

inductive HashFault
  | hex | size (got : Nat)
  deriving DecidableEq

inductive ChainFault
  | idRequired | load (fault : ManifestCommit.Fault) | hash (chunk : Nat) (fault : HashFault)
  deriving DecidableEq

structure RestoreReport where
  objects : Int
  chunks : Int
  storedBytes : Int64
  deriving DecidableEq

def parseHash (value : Bytes) : Except HashFault Hash :=
  match unhex value with
  | none => .error .hex
  | some data => if sized : data.length = 32 then .ok ⟨data,sized⟩ else .error (.size data.length)

def pipelineRef (i : Nat) (ref : ManifestFormat.ChunkRef) : Except ChainFault ChunkRef := do
  let hash ← (parseHash ref.hash).mapError (ChainFault.hash i)
  return {
    sequence := i
    hash := hash
    key := ref.key
    offset := ref.offset.toInt
    size := ref.size.toInt
    storedSize := ref.storedSize.toInt
    etag := ref.etag
    compression := ref.compression
    encryption := ref.encryption
    keyID := ref.keyID
    duplicate := false}

def pipelineRefsFrom : Nat → List ManifestFormat.ChunkRef → Except ChainFault (List ChunkRef)
  | _,[] => .ok []
  | i,ref :: rest => do
    let first ← pipelineRef i ref
    let later ← pipelineRefsFrom (i + 1) rest
    return first :: later

def pipelineRefs (refs : List ManifestFormat.ChunkRef) : Except ChainFault (List ChunkRef) := pipelineRefsFrom 0 refs

def objectRefs (object : ManifestFormat.Object) : Except ChainFault (List ChunkRef) :=
  pipelineRefs (object.chunks.getD [])

def manifestRefsOf : List ManifestFormat.Object → Except ChainFault (List ChunkRef)
  | [] => .ok []
  | object :: rest => do
    let refs ← objectRefs object
    let later ← manifestRefsOf rest
    return refs ++ later

def manifestRefs (m : ManifestFormat.Manifest) : Except ChainFault (List ChunkRef) :=
  manifestRefsOf (m.objects.getD [])

section
variable (backend : Environment) (store : Store) (publicKey : Bytes)

def loadChained (id : Bytes) : Except ChainFault ManifestFormat.Manifest :=
  if trimSpace id = [] then .error .idRequired
  else ((loadManifest backend store id publicKey).mapError ChainFault.load).map Prod.fst

def restoreRefsFrom : List Bytes → List ChunkRef → RestoreReport → Except ChainFault (List ChunkRef × RestoreReport)
  | [],refs,report => .ok (refs,{report with chunks := refs.length})
  | id :: rest,refs,report => do
    let committed ← loadChained backend store publicKey id
    let found ← manifestRefs committed
    restoreRefsFrom rest (refs ++ found) {report with
      objects := report.objects + (committed.objects.getD []).length
      storedBytes := found.foldl (fun total ref => total + Int64.ofInt ref.storedSize) report.storedBytes}

def restoreRefs (ids : List Bytes) : Except ChainFault (List ChunkRef × RestoreReport) :=
  restoreRefsFrom backend store publicKey ids [] ⟨0,0,0⟩

def chainStreams : List Bytes → Except ChainFault (List (List ChunkRef))
  | [] => .ok []
  | id :: rest => do
    let committed ← loadChained backend store publicKey id
    let streams ← (committed.objects.getD []).mapM objectRefs
    let later ← chainStreams rest
    return streams ++ later

end

section
variable {backend : Environment} {store : Store} {publicKey : Bytes} {streams : List (List ChunkRef)}

theorem pipelineRef_sequence (made : pipelineRef i ref = .ok out) : out.sequence = i := by
  obtain ⟨_,_,returned⟩ := bind_ok_iff.mp made
  cases returned
  rfl

theorem pipelineRefsFrom_sequences (i : Nat) (made : pipelineRefsFrom i refs = .ok out) :
    out.map ChunkRef.sequence = (List.range' i out.length).map (fun i : Nat => (i : Int)) := by
  induction refs generalizing i out with
  | nil =>
    cases made
    rfl
  | cons _ _ ih =>
    obtain ⟨_,head,made⟩ := bind_ok_iff.mp made
    obtain ⟨_,tail,returned⟩ := bind_ok_iff.mp made
    cases returned
    rw [List.map_cons,List.length_cons,List.range'_succ,List.map_cons,pipelineRef_sequence head,ih (i + 1) tail]

theorem pipelineRefs_numbered (made : pipelineRefs refs = .ok out) : Numbered ChunkRef.sequence out := by
  rw [Numbered,pipelineRefsFrom_sequences 0 made,List.range_eq_range']

theorem objects_flatten (read : objects.mapM objectRefs = .ok streams) :
    manifestRefsOf objects = .ok streams.flatten := by
  induction objects generalizing streams with
  | nil =>
    cases read
    rfl
  | cons _ _ ih =>
    rw [List.mapM_cons] at read
    obtain ⟨_,first,read⟩ := bind_ok_iff.mp read
    obtain ⟨_,others,returned⟩ := bind_ok_iff.mp read
    cases returned
    rw [manifestRefsOf,first,ih others]
    rfl

theorem objects_numbered {objects : List ManifestFormat.Object} (read : objects.mapM objectRefs = .ok streams) :
    ∀ stream ∈ streams, Numbered ChunkRef.sequence stream := by
  induction objects generalizing streams with
  | nil =>
    cases read
    simp
  | cons _ _ ih =>
    rw [List.mapM_cons] at read
    obtain ⟨_,first,read⟩ := bind_ok_iff.mp read
    obtain ⟨_,others,returned⟩ := bind_ok_iff.mp read
    cases returned
    exact List.forall_mem_cons.mpr ⟨pipelineRefs_numbered first,ih others⟩

theorem chainStreams_numbered {ids : List Bytes} (chain : chainStreams backend store publicKey ids = .ok streams) :
    ∀ stream ∈ streams, Numbered ChunkRef.sequence stream := by
  induction ids generalizing streams with
  | nil =>
    cases chain
    simp
  | cons _ _ ih =>
    obtain ⟨_,_,chain⟩ := bind_ok_iff.mp chain
    obtain ⟨_,read,chain⟩ := bind_ok_iff.mp chain
    obtain ⟨_,others,returned⟩ := bind_ok_iff.mp chain
    cases returned
    exact List.forall_mem_append.mpr ⟨objects_numbered read,ih others⟩

theorem restoreRefsFrom_streams (chain : chainStreams backend store publicKey ids = .ok streams)
    (refs : List ChunkRef) (report : RestoreReport) : ∃ final,
      restoreRefsFrom backend store publicKey ids refs report = .ok (refs ++ streams.flatten,final) := by
  induction ids generalizing streams refs report with
  | nil =>
    cases chain
    exact ⟨_,by rw [List.flatten_nil,List.append_nil]; rfl⟩
  | cons _ _ ih =>
    obtain ⟨committed,loaded,chain⟩ := bind_ok_iff.mp chain
    obtain ⟨own,read,chain⟩ := bind_ok_iff.mp chain
    obtain ⟨_,others,returned⟩ := bind_ok_iff.mp chain
    cases returned
    have found : manifestRefs committed = .ok own.flatten := objects_flatten read
    rw [restoreRefsFrom,loaded,List.flatten_append,← List.append_assoc]
    change ∃ final, (manifestRefs committed >>= _) = _
    rw [found]
    exact ih others _ _

def written (platform : Platform) (p : Pipeline) (backend : Environment) (store : Store) (ref : ChunkRef) : Bytes :=
  (restoreChunk platform p backend store ref).1

variable {platform : Platform} {p : Pipeline}

theorem restore_ordered {cipher : Envelope.Cipher} {refs : List ChunkRef} (backed : p.backend = some backend)
    (keyed : p.cipher = some cipher) (restores : ∀ ref ∈ refs, (restoreChunk platform p backend store ref).2 = none) :
    restore platform p store refs = ((refs.map (written platform p backend store)).flatten,
      ⟨refs.length,(refs.map (written platform p backend store)).flatten.length,0,0,0⟩,none) := by
  have each : List.Forall₂ (fun ref data => restoreChunk platform p backend store ref = (data,none)) refs
      (refs.map (written platform p backend store)) := by
    rw [List.forall₂_map_right_iff,List.forall₂_same]
    intro ref member
    exact Prod.ext rfl (restores ref member)
  unfold restore
  simp only [backed,keyed,Option.isNone_some,Bool.false_eq_true,if_false]
  rw [restoreLoop_whole each]
  simp [Stats.zero]

def chainBytes (platform : Platform) (p : Pipeline) (backend : Environment) (store : Store)
    (streams : List (List ChunkRef)) : Bytes :=
  (streams.map (fun stream => (stream.map (written platform p backend store)).flatten)).flatten

theorem chainBytes_flatten : chainBytes platform p backend store streams =
    (streams.flatten.map (written platform p backend store)).flatten := by
  rw [chainBytes,List.map_flatten,List.flatten_flatten,List.map_map]
  rfl

-- A chain restores stream by stream just when at most one stream has chunks, or
-- no stream has two and their chunks give the same bytes in every order.
theorem chain_restores_iff {ids : List Bytes} {cipher : Envelope.Cipher}
    (chain : chainStreams backend store publicKey ids = .ok streams) (backed : p.backend = some backend)
    (keyed : p.cipher = some cipher)
    (restores : ∀ ref ∈ streams.flatten, (restoreChunk platform p backend store ref).2 = none) :
    (∃ report, restoreRefs backend store publicKey ids = .ok (streams.flatten,report) ∧
        ∀ ordered, ordered.Perm (tagged streams) → Ascending ChunkRef.sequence ordered →
          (∃ stats, restore platform p store (ordered.map Prod.snd) =
            (chainBytes platform p backend store streams,stats,none)) ∧ Separate ordered) ↔
      OneFilled streams ∨ Commuting (written platform p backend store) streams := by
  rw [← keeps_iff (chainStreams_numbered chain)]
  obtain ⟨report,built⟩ := restoreRefsFrom_streams chain [] ⟨0,0,0⟩
  have run {ordered : List (Nat × ChunkRef)} (same : ordered.Perm (tagged streams)) : ∃ stats,
      restore platform p store (ordered.map Prod.snd) =
        (contents (written platform p backend store) ordered,stats,none) := by
    have result := @restore_ordered backend store platform p cipher (ordered.map Prod.snd) backed keyed (by
      intro ref member
      apply restores
      rw [← tagged_items]
      exact (same.map Prod.snd).subset member)
    rw [List.map_map] at result
    exact ⟨_,result⟩
  constructor
  · rintro ⟨_,_,all⟩ ordered same ascending
    obtain ⟨⟨_,result⟩,separate⟩ := all ordered same ascending
    obtain ⟨_,ran⟩ := run same
    rw [ran,chainBytes_flatten] at result
    exact ⟨(Prod.mk.inj result).1,separate⟩
  · intro keeps
    refine ⟨report,built,?_⟩
    intro ordered same ascending
    obtain ⟨whole,separate⟩ := keeps ordered same ascending
    rw [chainBytes_flatten,← whole]
    exact ⟨run same,separate⟩

end

section
open ManifestLoad PipelineComplete

def twoChunks : BackupResult := ⟨[byteRef 0 7,byteRef 1 8],⟨2,2,2,0,46⟩⟩

def fullOptions : CommitOptions := optionsFor (ascii "db")

def incrementalOptions : CommitOptions :=
  {optionsFor (ascii "db") with backupID := ascii "b2",type := ascii "incr",parentID := some (ascii "b1")}

def fullKey : Bytes := manifestKey noon fullOptions.finishedAt fullOptions.backupID

def incrementalKey : Bytes := manifestKey noon incrementalOptions.finishedAt incrementalOptions.backupID

def fullStore : Store := byteStore.put fullKey (stored plainEnvironment twoChunks fullOptions)

def chainStore (increment : BackupResult) : Store :=
  fullStore.put incrementalKey (stored plainEnvironment increment incrementalOptions)

-- An incremental backup without chunks after a full one of two.
theorem quiet_increment_restores :
    chainStreams plainEnvironment (chainStore nothing) signer [fullKey,incrementalKey] = .ok [[byteRef 0 7,byteRef 1 8],[]] ∧
    ∃ report, restoreRefs plainEnvironment (chainStore nothing) signer [fullKey,incrementalKey] =
        .ok ([byteRef 0 7,byteRef 1 8],report) ∧
      ∀ ordered, ordered.Perm (tagged [[byteRef 0 7,byteRef 1 8],[]]) → Ascending ChunkRef.sequence ordered →
        (∃ stats, restore samplePlatform samplePipeline (chainStore nothing) (ordered.map Prod.snd) =
          (chainBytes samplePlatform samplePipeline plainEnvironment (chainStore nothing) [[byteRef 0 7,byteRef 1 8],[]],
            stats,none)) ∧ Separate ordered := by
  have streams : chainStreams plainEnvironment (chainStore nothing) signer [fullKey,incrementalKey] =
      .ok [[byteRef 0 7,byteRef 1 8],[]] := by decide +kernel
  refine ⟨streams,(chain_restores_iff streams rfl rfl (by decide +kernel)).mpr (Or.inl ?_)⟩
  intro i j one other first second some more
  rcases i with _ | _ | _ <;> rcases j with _ | _ | _ <;> simp_all

-- A full backup and an incremental one, both of the bytes 7 and 8: the chain
-- restores the first chunks of both and then the second ones.
theorem chain_interleaved : ∃ full incremental report,
    commitManifest plainEnvironment noon byteStore twoChunks fullOptions = .ok (full,fullStore) ∧
      commitManifest plainEnvironment noon fullStore twoChunks incrementalOptions = .ok (incremental,chainStore twoChunks) ∧
      restoreRefs plainEnvironment (chainStore twoChunks) signer [full.key,incremental.key] =
        .ok ([byteRef 0 7,byteRef 1 8,byteRef 0 7,byteRef 1 8],report) ∧
      ∀ ordered, Sorts [byteRef 0 7,byteRef 1 8,byteRef 0 7,byteRef 1 8] ordered →
        restore samplePlatform samplePipeline (chainStore twoChunks) ordered = ([7,7,8,8],⟨4,4,0,0,0⟩,none) := by
  have named : ascii "b1" ≠ [] ∧ ascii "b2" ≠ [] ∧ ascii "db" ≠ [] := by decide
  have sized : (List.replicate 64 (7 : UInt8)).length = 64 := List.length_replicate
  have streams : chainStreams plainEnvironment (chainStore twoChunks) signer [fullKey,incrementalKey] =
      .ok [[byteRef 0 7,byteRef 1 8],[byteRef 0 7,byteRef 1 8]] := by decide +kernel
  obtain ⟨report,built⟩ := restoreRefsFrom_streams streams [] ⟨0,0,0⟩
  refine ⟨_,_,report,commit_iff.mpr ⟨named.1,named.2.2,sized,noon_shown,noon_shown,rfl,by decide +kernel,rfl,rfl⟩,
    commit_iff.mpr ⟨named.2.1,named.2.2,sized,noon_shown,noon_shown,rfl,by decide +kernel,rfl,rfl⟩,built,?_⟩
  intro ordered sorts
  have exact : ordered = [byteRef 0 7,byteRef 0 7,byteRef 1 8,byteRef 1 8] := by
    have swap : ([byteRef 0 7,byteRef 1 8,byteRef 0 7,byteRef 1 8] : List ChunkRef).Perm
        [byteRef 0 7,byteRef 0 7,byteRef 1 8,byteRef 1 8] := (List.Perm.swap _ _ _).cons _
    refine List.Perm.eq_of_pairwise ?_ sorts.ascending (by decide) (sorts.same.trans swap)
    intro a b inA inB up down
    have two : ∀ ref ∈ ([byteRef 0 7,byteRef 1 8,byteRef 0 7,byteRef 1 8] : List ChunkRef),
        ref = byteRef 0 7 ∨ ref = byteRef 1 8 := by decide
    have apart : ¬ (byteRef 1 8).sequence ≤ (byteRef 0 7).sequence := by decide
    rcases two a (sorts.same.subset inA) with rfl | rfl <;> rcases two b (swap.mem_iff.mpr inB) with rfl | rfl
    · rfl
    · exact absurd down apart
    · exact absurd up apart
    · rfl
  rw [exact]
  decide +kernel

end

end Kronos.ChainRestore
