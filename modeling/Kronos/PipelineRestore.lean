import Kronos.MergedStreams
import Kronos.PipelineProgress

namespace Kronos.PipelineRestore
open ByteRange Utf8 Chunk Chunker ObjectStore ChunkPipeline PipelineFlow PipelineComplete PipelineDedup
  PipelineProgress

inductive RestoreFault
  | backendRequired | cipherRequired | keyEmpty (sequence : Int) | get (sequence : Int) (fault : ManifestCommit.Fault)
  | decrypt (sequence : Int) (fault : Envelope.Fault) | compressor (sequence : Int) (cause : Cause)
  | restore (sequence : Int) | hashMismatch (sequence : Int) | sizeMismatch (sequence : Int) (got want : Int)
  deriving DecidableEq

section
variable (platform : Platform) (p : Pipeline)

def compressorFor (algorithm : Bytes) : Except Cause Compressor :=
  if algorithm = [] then .ok (compressorOf p) else newCompressor platform algorithm

-- Reading, opening and unpacking a chunk. What is unpacked is written while it is
-- hashed, so a chunk that fails a check has been written.
def restoreChunk (backend : ManifestCommit.Environment) (store : Store) (ref : ChunkRef) :
    Bytes × Option RestoreFault :=
  if ref.key = [] then ([],some (.keyEmpty ref.sequence))
  else match ManifestCommit.getObject backend ref.key store with
    | .error fault => ([],some (.get ref.sequence fault))
    | .ok (envelope,_) =>
      match Envelope.openEnvelope p.cipher envelope ref.hash.bytes with
      | .error fault => ([],some (.decrypt ref.sequence fault))
      | .ok (compressed,_) =>
        match compressorFor platform p ref.compression with
        | .error cause => ([],some (.compressor ref.sequence cause))
        | .ok compressor =>
          match compressor.decompress compressed with
          | none => ([],some (.restore ref.sequence))
          | some data =>
            if platform.hashBytes data ≠ ref.hash then (data,some (.hashMismatch ref.sequence))
            else if 0 ≤ ref.size ∧ (data.length : Int) ≠ ref.size then
              (data,some (.sizeMismatch ref.sequence data.length ref.size))
            else (data,none)

def restoreLoop (backend : ManifestCommit.Environment) (store : Store) :
    List ChunkRef → Bytes → Stats → Bytes × Stats × Option RestoreFault
  | [],written,stats => (written,stats,none)
  | ref :: rest,written,stats =>
    let result := restoreChunk platform p backend store ref
    match result.2 with
    | some fault => (written ++ result.1,stats,some fault)
    | none => restoreLoop backend store rest (written ++ result.1)
        {stats with chunks := stats.chunks + 1,bytesIn := stats.bytesIn + result.1.length}

def restore (store : Store) (ordered : List ChunkRef) : Bytes × Stats × Option RestoreFault :=
  match p.backend with
  | none => ([],Stats.zero,some .backendRequired)
  | some backend =>
    if p.cipher.isNone then ([],Stats.zero,some .cipherRequired)
    else restoreLoop platform p backend store ordered [] Stats.zero

end

-- What sort.Slice may leave: references of one sequence number in any order.
structure Sorts (refs ordered : List ChunkRef) : Prop where
  same : ordered.Perm refs
  ascending : ordered.Pairwise (fun a b => a.sequence ≤ b.sequence)

section
variable (platform : Platform) (p : Pipeline)

-- What the named compressor unpacks is what the pipeline's compressor packed.
def RoundTrips : Prop :=
  ∀ data packed, (compressorOf p).compress data = some packed →
    ∃ compressor, compressorFor platform p (compressorOf p).algorithm = .ok compressor ∧
      compressor.decompress packed = some data

-- The store holds some bytes as a chunk the pipeline made of them.
def Holds (store : Store) (data : Bytes) : Prop :=
  ∃ item, item.hashed.chunk.data = data ∧ item.hashed.hash = platform.hashBytes data ∧
    item.hashed.duplicate = false ∧ (∃ nonce, Drawn p nonce ∧ encodeChunk p nonce item.hashed = .ok item) ∧
    (∃ backend, p.backend = some backend ∧ backend.acceptsKey item.key = true) ∧
    store.get item.key = some item.payload

variable {platform p} {reader : Reader} {s next : State} {event : Event} {store : Store} {chunks : List PipelineChunk}

theorem encodeChunk_sealed (made : encodeChunk p nonce item = .ok result) (fresh : item.duplicate = false) :
    ∃ cipher packed, p.cipher = some cipher ∧ (compressorOf p).compress item.chunk.data = some packed ∧
      Envelope.sealEnvelope (some cipher) p.keyID nonce packed item.hash.bytes = .ok result.payload := by
  unfold encodeChunk at made
  rw [if_neg (by simp [fresh])] at made
  cases configured : p.cipher with
  | none => simp only [configured] at made; cases made
  | some cipher =>
    simp only [configured] at made
    split at made
    · cases made
    · cases compressed : (compressorOf p).compress item.chunk.data with
      | none => simp only [compressed] at made; cases made
      | some packed =>
        simp only [compressed] at made
        cases sealed : Envelope.sealEnvelope (some cipher) p.keyID nonce packed item.hash.bytes with
        | error => simp only [sealed] at made; cases made
        | ok =>
          simp only [sealed] at made
          cases made
          exact ⟨cipher,packed,rfl,rfl,sealed⟩

theorem contentKey_some (hash : Hash) : contentKey hash ≠ [] := by
  intro empty
  have length := congrArg List.length empty
  simp only [contentKey,List.length_append,List.length_nil] at length
  have head : (ascii "data/").length = 5 := by decide
  omega

theorem holds_restores {ref : ChunkRef} (holds : Holds platform p store data) (roundTrips : RoundTrips platform p)
    (backed : p.backend = some backend) (key : ref.key = contentKey (platform.hashBytes data))
    (hash : ref.hash = platform.hashBytes data) (size : ref.size = data.length)
    (compression : ref.compression = (compressorOf p).algorithm) :
    restoreChunk platform p backend store ref = (data,none) := by
  obtain ⟨item,same,itemHash,fresh,⟨_,drawn,made⟩,⟨_,configuredBackend,accepted⟩,found⟩ := holds
  rw [backed] at configuredBackend
  cases configuredBackend
  obtain ⟨_,packed,configured,compressed,sealed⟩ := encodeChunk_sealed made fresh
  obtain ⟨_,itemKey,_⟩ := encodeChunk_exact made
  obtain ⟨_,_,drew,_,_,nonceSome,_⟩ := Envelope.sealEnvelope_parts sealed
  subst nonceSome
  rw [itemKey,itemHash,← key] at found accepted
  rw [same] at compressed
  obtain ⟨_,named,unpacked⟩ := roundTrips data packed compressed
  rw [itemHash,← hash] at sealed
  obtain ⟨_,opened⟩ := Envelope.open_seal sealed (by
    intro aead is
    rw [← configured] at is
    exact drawn drew rfl aead is)
  have present : ManifestCommit.getObject backend ref.key store =
      .ok (item.payload,ManifestCommit.info backend ref.key item.payload) := by
    unfold ManifestCommit.getObject
    rw [if_neg (by simp [accepted]),found]
  unfold restoreChunk
  rw [if_neg (by rw [key]; exact contentKey_some _),present]
  simp only [configured,opened,compression,named,unpacked]
  rw [if_neg (by simp [hash]),if_neg (by simp [size])]

-- Every uploaded chunk is in the store.
variable (platform p chunks) in
def Put (s : State) : Prop :=
  ∀ ref ∈ stored s, ref.duplicate = false →
    ∃ item, Encodes platform p chunks item ∧ Refers ref item ∧
      (∃ backend, p.backend = some backend ∧ backend.acceptsKey item.key = true) ∧
      s.store.get item.key = some item.payload

theorem effect_put (effect : Effect platform p s next) (origins : Origins platform p chunks s)
    (put : Put platform p chunks s) : Put platform p chunks next := by
  cases effect with
  | quiet _ _ _ storeds _ store | hash _ _ _ _ storeds _ store | encode _ _ _ _ _ _ _ _ storeds _ store =>
    intro ref member
    rw [store]
    exact put ref (storeds.mem_iff.mp member)
  | upload item _ made _ _ encodeds storeds =>
    intro other member fresh
    rcases List.mem_cons.mp (storeds.mem_iff.mp member) with rfl | old
    · have refers := uploadChunk_refers made
      rw [(refers_mark refers).2.1] at fresh
      rcases uploadChunk_store made with ⟨duplicate,_⟩ | stores
      · rw [fresh] at duplicate
        cases duplicate
      · refine ⟨item,origins.encoded item (encodeds.mem_iff.mpr (List.mem_cons_self ..)),refers,stores.accepted,?_⟩
        rw [stores.after,Store.get_put,if_pos rfl]
    · obtain ⟨earlier,encodes,refers,accepted,found⟩ := put other old fresh
      exact ⟨earlier,encodes,refers,accepted,uploadChunk_keeps made found⟩

theorem reached_put (reached : Reached platform p reader Careful store s) (fine : s.firstErr = none) :
    Put platform p (chunksOf p reader) s := by
  refine reached_fine ?_ ?_ reached fine
  · intro ref member
    rw [(start_items platform p reader store).2.2.2] at member
    cases member
  · intro s next before fine effect put
    exact effect_put effect ((reached_course before).origins fine) put

theorem holds_later (holds : Holds platform p store data)
    (keeps : ∀ key object, store.get key = some object → after.get key = some object) :
    Holds platform p after data := by
  obtain ⟨item,same,hash,fresh,made,accepted,found⟩ := holds
  exact ⟨item,same,hash,fresh,made,accepted,keeps _ _ found⟩

theorem reached_keeps {allowed : State → Event → Prop} (reached : Reached platform p reader allowed store s)
    (key object : Bytes) (found : store.get key = some object) : s.store.get key = some object := by
  induction reached with
  | start => exact found
  | step _ step _ ih => exact step_keeps step ih

-- No two different chunks of the input have the same hash.
variable (platform chunks) in
def CollisionFree : Prop :=
  ∀ a ∈ chunks, ∀ b ∈ chunks, platform.hashBytes a.data = platform.hashBytes b.data → a.data = b.data

-- The chunks that the index knows are stored.
variable (platform p reader store) in
def Indexed : Prop :=
  ∀ chunk ∈ chunksOf p reader, platform.hashBytes chunk.data ∈ p.index.getD [] → Holds platform p store chunk.data

theorem put_holds (put : Put platform p chunks s) (collisionFree : CollisionFree platform chunks)
    (member : ref ∈ stored s) (fresh : ref.duplicate = false) (known : chunk ∈ chunks)
    (hash : ref.hash = platform.hashBytes chunk.data) : Holds platform p s.store chunk.data := by
  obtain ⟨item,encodes,refers,accepted,found⟩ := put ref member fresh
  obtain ⟨refHash,duplicate,_⟩ := refers_mark refers
  have itemHash : item.hashed.hash = platform.hashBytes chunk.data := refHash.symm.trans hash
  refine ⟨item,?_,itemHash,duplicate.symm.trans fresh,encodes.made,accepted,found⟩
  exact collisionFree _ encodes.hashed.chunk _ known (encodes.hashed.hash.symm.trans itemHash)

theorem all_held (reached : Reached platform p reader Careful store s) (fine : s.firstErr = none)
    (collisionFree : CollisionFree platform (chunksOf p reader)) (indexed : Indexed platform p reader store)
    (main : s.main = .collecting unsorted stats) (drained : s.refCh.queue = []) (closed : s.refCh.closed = true) :
    ∀ chunk ∈ chunksOf p reader, Holds platform p s.store chunk.data := by
  intro chunk known
  have course := reached_course reached
  rcases uploaded_first course (reached_dedup reached fine) fine main drained closed known with ⟨_,member,fresh,hash⟩ | listed
  · exact put_holds (reached_put reached fine) collisionFree member fresh known hash
  · exact holds_later (indexed chunk known listed) (reached_keeps reached)

theorem feed_held (reached : Reached platform p reader Careful store s)
    (collisionFree : CollisionFree platform (chunksOf p reader)) (indexed : Indexed platform p reader store)
    (returned : s.main = .returned stats (.ok refs)) :
    ∀ chunk ∈ chunksOf p reader, Holds platform p s.store chunk.data := by
  induction reached with
  | start => cases returned
  | step before step _ ih =>
    intro chunk known
    rcases step_returns step returned with earlier | ⟨_,main,_,drained,closed,fine⟩
    · exact holds_later (ih earlier chunk known) (fun _ _ found => step_keeps step found)
    · have held := all_held before fine collisionFree indexed main drained closed chunk known
      exact holds_later held (fun _ _ found => step_keeps step found)

theorem sorts_unique (numbered : refs.map ChunkRef.sequence = (List.range refs.length).map (fun i : Nat => (i : Int)))
    (anyOrder : given.Perm refs) (sorts : Sorts given ordered) : ordered = refs :=
  MergedStreams.numbered_unique numbered (sorts.same.trans anyOrder) sorts.ascending

theorem restoreLoop_whole {pieces : List Bytes}
    (restored : List.Forall₂ (fun ref data => restoreChunk platform p backend store ref = (data,none)) refs pieces)
    (written : Bytes) (stats : Stats) : restoreLoop platform p backend store refs written stats =
      (written ++ pieces.flatten,{stats with
        chunks := stats.chunks + refs.length
        bytesIn := stats.bytesIn + pieces.flatten.length},none) := by
  induction restored generalizing written stats with
  | nil => simp [restoreLoop]
  | cons entry _ ih =>
    simp only [restoreLoop,entry,ih,List.flatten_cons,List.append_assoc,List.length_cons,List.length_append,
      Int.natCast_add,Int.natCast_one,Int.add_assoc,Prod.mk.injEq,Stats.mk.injEq,and_true,true_and]
    omega

theorem number_data (chunks : List Chunker.Chunk) :
    (number chunks).map PipelineChunk.data = chunks.map Chunker.Chunk.data := by
  apply List.ext_getElem
  · simp [number]
  · intro i _ _
    simp only [number,List.getElem_map,List.getElem_mapIdx]

def Restorable (platform : Platform) (p : Pipeline) (backend : ManifestCommit.Environment) (store : Store)
    (refs : List ChunkRef) (data : Bytes) : Prop :=
  refs.map ChunkRef.sequence = (List.range refs.length).map (fun i : Nat => (i : Int)) ∧
    ∃ pieces : List Bytes, pieces.flatten = data ∧
      List.Forall₂ (fun ref piece => restoreChunk platform p backend store ref = (piece,none)) refs pieces

theorem restorable_restores (restorable : Restorable platform p backend store refs data)
    (backed : p.backend = some backend) (keyed : p.cipher = some cipher) (anyOrder : given.Perm refs)
    (sorts : Sorts given ordered) : restore platform p store ordered = (data,⟨refs.length,data.length,0,0,0⟩,none) := by
  obtain ⟨numbered,_,whole,restored⟩ := restorable
  rw [sorts_unique numbered anyOrder sorts]
  unfold restore
  simp only [backed,keyed,Option.isNone_some,Bool.false_eq_true,if_false]
  rw [restoreLoop_whole restored,whole]
  simp [Stats.zero]

theorem feed_restorable (reached : Reached platform p reader (fun _ event => event ≠ .cancel) store s)
    (returned : s.main = .returned stats (.ok refs)) (fed : (chunkerOf p).Fed reader)
    (backed : p.backend = some backend) (roundTrips : RoundTrips platform p)
    (collisionFree : CollisionFree platform (chunksOf p reader)) (indexed : Indexed platform p reader store) :
    Restorable platform p backend s.store refs (input reader) := by
  have careful := (reached_careful (fun _ _ allowed => allowed) reached).1
  obtain ⟨read,described⟩ := feed_returned careful returned
  have held := feed_held careful collisionFree indexed returned
  refine ⟨described_numbers described,(chunksOf p reader).map PipelineChunk.data,?_,?_⟩
  · rw [chunksOf,number_data]
    exact (chunkerOf p).forEach_whole reader (ended_finished fed read)
  · rw [List.forall₂_map_right_iff]
    refine List.Forall₂.imp ?_ described
    rintro _ chunk ⟨item,encodes,is,refers⟩
    obtain ⟨_,_,made⟩ := encodes.made
    obtain ⟨_,itemKey,compression⟩ := encodeChunk_exact made
    obtain ⟨hash,_,key,refCompression⟩ := refers_mark refers
    have itemHash : item.hashed.hash = platform.hashBytes chunk.data := by rw [encodes.hashed.hash,is]
    refine holds_restores (held chunk (is ▸ encodes.hashed.chunk)) roundTrips backed ?_ ?_ ?_ ?_
    · rw [key,itemKey,itemHash]
    · rw [hash,itemHash]
    · rw [(refers_sequence refers).2.2,is]
    · rw [refCompression,compression]

-- Feed and Restore are inverse.
theorem feed_restores {backend : ManifestCommit.Environment} {cipher : Envelope.Cipher} {stats : Stats}
    {refs given ordered : List ChunkRef} (reached : Reached platform p reader (fun _ event => event ≠ .cancel) store s)
    (returned : s.main = .returned stats (.ok refs)) (fed : (chunkerOf p).Fed reader)
    (backed : p.backend = some backend) (keyed : p.cipher = some cipher) (roundTrips : RoundTrips platform p)
    (collisionFree : CollisionFree platform (chunksOf p reader)) (indexed : Indexed platform p reader store)
    (anyOrder : given.Perm refs) (sorts : Sorts given ordered) : restore platform p s.store ordered =
      (input reader,⟨refs.length,(input reader).length,0,0,0⟩,none) :=
  restorable_restores (feed_restorable reached returned fed backed roundTrips collisionFree indexed)
    backed keyed anyOrder sorts

end

theorem twice_able : Able samplePipeline (sampleReader [7,7]) where
  unindexed := rfl
  read := by decide +kernel
  cipher := ⟨sampleCipher,Envelope.algorithmAES256GCM,rfl,by decide +kernel,by decide,by decide⟩
  key := by decide
  compresses := fun data => ⟨data,rfl⟩
  backend := ⟨ManifestLoad.plainEnvironment,rfl,fun _ => rfl⟩

theorem plain_round_trips (plain : compressorOf p = noneCompressor) : RoundTrips samplePlatform p := by
  intro data packed compressed
  rw [plain] at compressed ⊢
  cases compressed
  exact ⟨noneCompressor,by rfl,rfl⟩

theorem repeated_chunk_restores : ∃ s stats refs,
    Reached samplePlatform samplePipeline (sampleReader [7,7]) (fun _ event => event ≠ .cancel) Store.empty s ∧
      s.main = .returned stats (.ok refs) ∧
      restore samplePlatform samplePipeline s.store (sortRefs refs.reverse) = ([7,7],⟨refs.length,2,0,0,0⟩,none) := by
  have chunks : chunksOf samplePipeline (sampleReader [7,7]) = [⟨0,0,[7]⟩,⟨1,1,[7]⟩] := by decide +kernel
  have absent (chunk : PipelineChunk) (_ : chunk ∈ chunksOf samplePipeline (sampleReader [7,7])) :
      Store.empty.get (contentKey (samplePlatform.hashBytes chunk.data)) = none := rfl
  have equal : CollisionFree samplePlatform (chunksOf samplePipeline (sampleReader [7,7])) := by
    rw [chunks]
    intro a inLeft b inRight _
    simp only [List.mem_cons,List.not_mem_nil,or_false] at inLeft inRight
    rcases inLeft with rfl | rfl <;> rcases inRight with rfl | rfl <;> rfl
  obtain ⟨s,_,reached,stats,refs,returned⟩ := (feed_inevitable twice_able absent).reaches
  have uncancelled := reached_mono (fun _ _ own => own.1) reached
  refine ⟨s,stats,refs,uncancelled,returned,?_⟩
  exact feed_restores uncancelled returned (FastCDC.busy_fed _ _ (sample_busy _)) rfl rfl (plain_round_trips rfl) equal
    (fun _ _ => nofun) (List.reverse_perm refs) ⟨List.mergeSort_perm _ _,sortRefs_ordered _⟩

end Kronos.PipelineRestore
