import Kronos.GarbageCollect
import Kronos.PipelineRestore

namespace Kronos.GarbageRace
open ByteRange Utf8 Chunk Chunker ObjectStore ManifestCommit ObjectListing ChunkPipeline PipelineFlow PipelineComplete
  PipelineDedup PipelineRestore

-- A backup and a collection of one repository: the backup's Feed with the store,
-- the collection, and how the commit of the backup went.
structure World where
  feed : State
  collector : GarbageCollect.Collector
  result : Option (Except ManifestCommit.Fault CommitResult)

def World.store (w : World) : Store := w.feed.store

def World.at (w : World) (store : Store) : World := {w with feed := {w.feed with store := store}}

inductive Move
  | feed (event : Event) | collect | commit

section
variable (platform : Platform) (p : Pipeline) (reader : Reader) (env : Environment) (pageSize : Nat)
  (publicKey : Bytes) (dryRun : Bool)

inductive Step (w : World) : Move → World → Prop
  | feed (event : Event) (next : State) (step : ChunkPipeline.Step platform p reader w.feed event next) :
      Step w (.feed event) {w with feed := next}
  | collect (after : Store) (next : GarbageCollect.Collector)
      (step : GarbageCollect.Step env pageSize publicKey dryRun w.store w.collector after next) :
      Step w .collect {w.at after with collector := next}
  | commit (now : Rfc3339.Time) (opts : CommitOptions) (stats : Stats) (refs : List ChunkRef) (result : CommitResult)
      (after : Store) (returned : w.feed.main = .returned stats (.ok refs)) (pending : w.result = none)
      (committed : commitManifest env now w.store ⟨refs,stats⟩ opts = .ok (result,after)) :
      Step w .commit {w.at after with result := some (.ok result)}
  | commitFails (now : Rfc3339.Time) (opts : CommitOptions) (stats : Stats) (refs : List ChunkRef)
      (fault : ManifestCommit.Fault) (returned : w.feed.main = .returned stats (.ok refs)) (pending : w.result = none)
      (refused : commitManifest env now w.store ⟨refs,stats⟩ opts = .error fault) :
      Step w .commit {w with result := some (.error fault)}

inductive Reached (allowed : World → Move → Prop) (store : Store) : World → Prop
  | start : Reached allowed store ⟨start platform p reader store,GarbageCollect.start (some env),none⟩
  | step {w next : World} {move : Move} (before : Reached allowed store w)
      (step : Step platform p reader env pageSize publicKey dryRun w move next) (may : allowed w move) : Reached allowed store next

def ChunkKey (key : Bytes) : Prop := ∃ chunk ∈ chunksOf p reader, key = contentKey (platform.hashBytes chunk.data)

-- Whenever the collection lists the chunks, those of the backup that are in the
-- repository are marked; no worker of Feed leaves with an item before an error.
def Settled (w : World) : Move → Prop
  | .feed event => Careful w.feed event
  | .collect => ∀ token, w.collector.task = .data (.ask token) → dryRun = false →
      ∀ key data, ChunkKey platform p reader key → w.store.get key = some data → key ∈ w.collector.marked
  | .commit => True

end

section
variable {platform : Platform} {p : Pipeline} {reader : Reader} {env : Environment} {pageSize : Nat}
  {publicKey : Bytes} {dryRun : Bool} {w next : World} {move : Move} {store : Store}

theorem course_at (course : Course platform p reader w.feed) (after : Store) :
    Course platform p reader (w.at after).feed :=
  ⟨⟨course.protocol.chunkOver,course.protocol.hashOver,course.protocol.encodeOver,course.protocol.uploadOver,
      course.protocol.hashers,course.protocol.encoders,course.protocol.uploaders,course.protocol.sent,
      course.protocol.draining,course.protocol.unfailed⟩,
    fun fine => ⟨(course.clean fine).chunked,(course.clean fine).hashDrained,(course.clean fine).encodeDrained,
      (course.clean fine).uploadDrained⟩,
    fun fine => ⟨(course.origins fine).tags,(course.origins fine).raw,(course.origins fine).hashed,
      (course.origins fine).encoded,(course.origins fine).stored⟩⟩

variable (platform p reader) in
def Present (w : World) (key : Bytes) : Prop :=
  ChunkKey platform p reader key ∧ ∃ data, w.store.get key = some data

variable (platform p reader dryRun) in
structure Invariant (w : World) : Prop where
  course : Course platform p reader w.feed
  dedup : w.feed.firstErr = none → Dedup p w.feed
  put : w.feed.firstErr = none → Put platform p (chunksOf p reader) w.feed
  indexed : ∀ chunk ∈ chunksOf p reader, platform.hashBytes chunk.data ∈ p.index.getD [] →
    ∃ data, w.store.get (contentKey (platform.hashBytes chunk.data)) = some data
  returned : ∀ stats refs, w.feed.main = .returned stats (.ok refs) → ∀ ref ∈ refs, Present platform p reader w ref.key
  committed : ∀ result, w.result = some (.ok result) →
    ∀ key ∈ GarbageCollect.keys result.manifest, Present platform p reader w key
  swept : ∀ rest token, w.collector.task = .data (.visit rest token) → dryRun = false →
    ∀ object ∈ rest, object.key ∉ w.collector.marked → ¬ ChunkKey platform p reader object.key

theorem step_keeps_chunks (step : Step platform p reader env pageSize publicKey dryRun w move next)
    (valid : Invariant platform p reader dryRun w) :
    ∀ key data, ChunkKey platform p reader key → w.store.get key = some data → next.store.get key = some data := by
  intro key data chunk found
  cases step with
  | feed _ _ step => exact step_keeps step found
  | collect _ _ step =>
    rcases GarbageCollect.step_store step with rfl | ⟨object,_,_,task,unmarked,wet,rfl⟩
    · exact found
    · have apart : key ≠ object.key := by
        rintro rfl
        exact valid.swept _ _ task wet object List.mem_cons_self unmarked chunk
      change (w.store.delete object.key).get key = _
      rw [Store.get_delete,if_neg apart]
      exact found
  | commit _ _ _ _ _ _ _ _ committed =>
    exact ManifestLoad.commit_keeps committed found
  | commitFails => exact found

theorem encodes_key (encodes : Encodes platform p (chunksOf p reader) item) :
    item.key = contentKey (platform.hashBytes item.hashed.chunk.data) := by
  obtain ⟨_,_,made⟩ := encodes.made
  rw [(encodeChunk_exact made).2.1,encodes.hashed.hash]

theorem put_at (put : Put platform p (chunksOf p reader) w.feed)
    (keeps : ∀ key data, ChunkKey platform p reader key → w.store.get key = some data → after.get key = some data) :
    Put platform p (chunksOf p reader) (w.at after).feed := by
  intro ref member fresh
  obtain ⟨item,encodes,refers,accepted,found⟩ := put ref member fresh
  exact ⟨item,encodes,refers,accepted,keeps _ _ ⟨_,encodes.hashed.chunk,encodes_key encodes⟩ found⟩

theorem all_present (valid : Invariant platform p reader dryRun w) (fine : w.feed.firstErr = none)
    (main : w.feed.main = .collecting unsorted stats) (drained : w.feed.refCh.queue = [])
    (closed : w.feed.refCh.closed = true) : ∀ ref ∈ sortRefs unsorted, Present platform p reader w ref.key := by
  obtain ⟨_,described⟩ := returned_aligned valid.course main drained closed fine
  intro ref member
  obtain ⟨i,bound,rfl⟩ := List.getElem_of_mem member
  obtain ⟨lengths,entries⟩ := List.forall₂_iff_get.mp described
  obtain ⟨item,encodes,_,refers⟩ := entries i bound (lengths ▸ bound)
  have key : ((sortRefs unsorted).get ⟨i,bound⟩).key = contentKey (platform.hashBytes item.hashed.chunk.data) := by
    rw [(refers_mark refers).2.2.1,encodes_key encodes]
  have known := encodes.hashed.chunk
  change Present platform p reader w ((sortRefs unsorted).get ⟨i,bound⟩).key
  rw [key]
  refine ⟨⟨_,known,rfl⟩,?_⟩
  rcases uploaded_first valid.course (valid.dedup fine) fine main drained closed known with
    ⟨other,inStored,fresh,hash⟩ | listed
  · obtain ⟨_,firstEncodes,firstRefers,_,found⟩ := valid.put fine other inStored fresh
    obtain ⟨firstHash,_,_,_⟩ := refers_mark firstRefers
    rw [encodes_key firstEncodes,← firstEncodes.hashed.hash,← firstHash,hash] at found
    exact ⟨_,found⟩
  · exact valid.indexed _ known listed

theorem present_later
    (keeps : ∀ key data, ChunkKey platform p reader key → w.store.get key = some data → next.store.get key = some data)
    (present : Present platform p reader w key) : Present platform p reader next key := by
  obtain ⟨chunk,data,found⟩ := present
  exact ⟨chunk,data,keeps key data chunk found⟩

theorem keys_signed (env : Environment) (backup : BackupResult) (opts : CommitOptions) :
    GarbageCollect.keys (ManifestLoad.signed env backup opts) = backup.chunks.map ChunkRef.key := by
  change (([⟨[],ascii "stream",some (backup.chunks.map chunkFromPipeline)⟩] : List ManifestFormat.Object)).flatMap _ = _
  rw [List.flatMap_singleton]
  change (backup.chunks.map chunkFromPipeline).map _ = _
  rw [List.map_map]
  rfl

theorem collect_swept (step : GarbageCollect.Step env pageSize publicKey dryRun w.store w.collector after collector)
    (settled : Settled platform p reader dryRun w .collect) (valid : Invariant platform p reader dryRun w) :
    ∀ rest token, collector.task = .data (.visit rest token) → dryRun = false →
      ∀ object ∈ rest, object.key ∉ collector.marked → ¬ ChunkKey platform p reader object.key := by
  intro rest token task wet object member unmarked
  cases step with
  | listData earlier asked =>
    cases task
    intro chunk
    obtain ⟨⟨data,found⟩,_⟩ := list_member member
    exact unmarked (settled earlier asked wet _ data chunk found)
  | keep _ _ _ visited | spare _ _ _ visited | delete _ _ _ _ visited _ wet =>
    cases task
    exact valid.swept _ _ visited wet object (List.mem_cons_of_mem _ member) unmarked
  | nextManifests | nextData =>
    split at task <;> cases task
  | listManifests | load | loadFails | deleteFails | listBreaks | loadBreaks | deleteBreaks => cases task

theorem step_preserves (step : Step platform p reader env pageSize publicKey dryRun w move next)
    (settled : Settled platform p reader dryRun w move) (valid : Invariant platform p reader dryRun w) :
    Invariant platform p reader dryRun next := by
  have keeps := step_keeps_chunks step valid
  have indexed : ∀ chunk ∈ chunksOf p reader, platform.hashBytes chunk.data ∈ p.index.getD [] →
      ∃ data, next.store.get (contentKey (platform.hashBytes chunk.data)) = some data := by
    intro chunk known listed
    obtain ⟨data,found⟩ := valid.indexed chunk known listed
    exact ⟨data,keeps _ data ⟨chunk,known,rfl⟩ found⟩
  have returned : ∀ stats refs, w.feed.main = .returned stats (.ok refs) →
      ∀ ref ∈ refs, Present platform p reader next ref.key :=
    fun stats refs returned ref member => present_later keeps (valid.returned stats refs returned ref member)
  have stored : ∀ result, w.result = some (.ok result) →
      ∀ key ∈ GarbageCollect.keys result.manifest, Present platform p reader next key :=
    fun result is key member => present_later keeps (valid.committed result is key member)
  cases step with
  | feed _ _ step =>
    refine ⟨step_course valid.course step settled,?_,?_,indexed,?_,stored,valid.swept⟩
    · intro fine
      exact effect_dedup (step_effective valid.course step settled fine) (valid.dedup (step_firstErr step fine))
    · intro fine
      have before := step_firstErr step fine
      exact effect_put (step_effective valid.course step settled fine) (valid.course.origins before) (valid.put before)
    · intro stats refs ended ref member
      rcases step_returns step ended with earlier | ⟨_,main,sorted,drained,closed,fine⟩
      · exact returned stats refs earlier ref member
      · rw [sorted] at member
        exact present_later keeps (all_present valid fine main drained closed ref member)
  | collect after _ step =>
    refine ⟨course_at valid.course after,?_,fun fine => put_at (valid.put fine) keeps,indexed,returned,stored,
      collect_swept step settled valid⟩
    exact fun fine => ⟨(valid.dedup fine).seen,(valid.dedup fine).repeated⟩
  | commit _ _ stats refs _ after ended _ committed =>
    refine ⟨course_at valid.course after,?_,fun fine => put_at (valid.put fine) keeps,indexed,returned,?_,valid.swept⟩
    · exact fun fine => ⟨(valid.dedup fine).seen,(valid.dedup fine).repeated⟩
    · intro other is key member
      cases is
      rw [(ManifestLoad.commit_iff.mp committed).returned,keys_signed,List.mem_map] at member
      obtain ⟨ref,inRefs,rfl⟩ := member
      exact returned stats refs ended ref inRefs
  | commitFails _ _ _ _ _ returned =>
    refine ⟨valid.course,valid.dedup,valid.put,indexed,valid.returned,?_,valid.swept⟩
    intro other is
    cases is

theorem reached_invariant
    (reached : Reached platform p reader env pageSize publicKey dryRun (Settled platform p reader dryRun) store w)
    (indexed : ∀ chunk ∈ chunksOf p reader, platform.hashBytes chunk.data ∈ p.index.getD [] →
      ∃ data, store.get (contentKey (platform.hashBytes chunk.data)) = some data) :
    Invariant platform p reader dryRun w := by
  induction reached with
  | start =>
    refine ⟨reached_course .start,fun _ => start_dedup store,?_,indexed,?_,?_,?_⟩
    · exact fun fine => reached_put .start fine
    · intro stats refs returned
      cases returned
    · intro result is
      cases is
    · intro rest token task
      cases task
  | step _ step may ih => exact step_preserves step may ih

-- A committed backup keeps its chunks.
theorem committed_backup_kept {result : CommitResult}
    (reached : Reached platform p reader env pageSize publicKey dryRun (Settled platform p reader dryRun) store w)
    (indexed : ∀ chunk ∈ chunksOf p reader, platform.hashBytes chunk.data ∈ p.index.getD [] →
      ∃ data, store.get (contentKey (platform.hashBytes chunk.data)) = some data)
    (committed : w.result = some (.ok result)) :
    ∀ key ∈ GarbageCollect.keys result.manifest, ∃ data, w.store.get key = some data := by
  intro key member
  exact ((reached_invariant reached indexed).committed result committed key member).2

theorem feed_after {allowed : World → Move → Prop} {plain : State → Event → Prop}
    (base : Reached platform p reader env pageSize publicKey dryRun allowed store
      ⟨start platform p reader current,c,none⟩) (may : ∀ s event, plain s event → allowed ⟨s,c,none⟩ (.feed event))
    (run : ChunkPipeline.Reached platform p reader plain current s) :
    Reached platform p reader env pageSize publicKey dryRun allowed store ⟨s,c,none⟩ := by
  induction run with
  | start => exact base
  | step _ step does ih => exact ih.step (.feed _ _ step) (may _ _ does)

variable (env pageSize publicKey dryRun) in
def World.collect (w : World) (turns : Nat) : World :=
  let next := GarbageCollect.advanceBy env pageSize publicKey dryRun turns (w.store,w.collector)
  {w.at next.1 with collector := next.2}

theorem collect_after {allowed : World → Move → Prop}
    (base : Reached platform p reader env pageSize publicKey dryRun allowed store w)
    (may : ∀ turn < turns, allowed (w.collect env pageSize publicKey dryRun turn) .collect) :
    Reached platform p reader env pageSize publicKey dryRun allowed store
      (w.collect env pageSize publicKey dryRun turns) := by
  induction turns generalizing w with
  | zero => exact base
  | succ turns ih =>
    cases moved : GarbageCollect.advance env pageSize publicKey dryRun w.store w.collector with
    | inr ended =>
      have same : w.collect env pageSize publicKey dryRun (turns + 1) = w := by
        simp only [World.collect,GarbageCollect.advanceBy,moved]
        rfl
      rwa [same]
    | inl next =>
      have same (turn : Nat) : w.collect env pageSize publicKey dryRun (turn + 1) =
          World.collect env pageSize publicKey dryRun {w.at next.1.1 with collector := next.1.2} turn := by
        simp only [World.collect,GarbageCollect.advanceBy,moved]
        rfl
      rw [same]
      refine ih (base.step (.collect _ _ next.2) (may 0 (Nat.succ_pos _))) ?_
      intro turn before
      rw [← same]
      exact may _ (Nat.succ_lt_succ before)

end

section
open ManifestLoad

-- Backups of the bytes 7 and 8, and collections by pages of one object.
def SampleReached (allowed : World → Move → Prop) (store : Store) (w : World) : Prop :=
  Reached samplePlatform samplePipeline (sampleReader [7,8]) plainEnvironment 1 signer false allowed store w

def pairRefs : List ChunkRef := [byteRef 0 7,byteRef 1 8]

def backupKey : Bytes := manifestKey noon noon (ascii "b1")

def collected (turns : Nat) (s : Store × GarbageCollect.Collector) : Store × GarbageCollect.Collector :=
  GarbageCollect.advanceBy plainEnvironment 1 signer false turns s

-- The collection goes on for some turns and then the backup is committed.
theorem backup_commits (backed : SampleReached allowed store ⟨s,c,none⟩)
    (may : ∀ turn < turns, allowed (World.collect plainEnvironment 1 signer false ⟨s,c,none⟩ turn) .collect)
    (ends : ∀ w, allowed w .commit) (returned : s.main = .returned stats (.ok pairRefs)) (saved : s.store = before)
    (free : (collected turns (before,c)).1.get backupKey = none) :
    ∃ last result, SampleReached allowed store last ∧ last.collector = (collected turns (before,c)).2 ∧
      last.result = some (.ok result) ∧ GarbageCollect.keys result.manifest = pairRefs.map ChunkRef.key ∧
      last.store = (collected turns (before,c)).1.put backupKey
        (stored plainEnvironment ⟨pairRefs,stats⟩ (optionsFor (ascii "db"))) := by
  subst saved
  have named : ascii "b1" ≠ [] ∧ ascii "db" ≠ [] := by decide
  have ended := collect_after backed may
  exact ⟨_,_,ended.step (.commit noon (optionsFor (ascii "db")) _ _ _ _ returned rfl (commit_iff.mpr
    ⟨named.1,named.2,List.length_replicate,noon_shown,noon_shown,rfl,free,rfl,rfl⟩)) (ends _),rfl,rfl,keys_signed _ _ _,rfl⟩

def orphanStore : Store := Store.empty.put (contentKey (sampleHash [9])) (sealedByte 9)

def savedStore : Store :=
  (orphanStore.put (contentKey (sampleHash [7])) (sealedByte 7)).put (contentKey (sampleHash [8])) (sealedByte 8)

def listed : GarbageCollect.Collector := (collected 3 (orphanStore,GarbageCollect.start (some plainEnvironment))).2

-- A backup begins after the collection has listed an orphan and ends before it is deleted.
theorem backup_during_collection_kept : ∃ w result,
    SampleReached (Settled samplePlatform samplePipeline (sampleReader [7,8]) false) orphanStore w ∧
      w.collector.task = .done ∧ w.result = some (.ok result) ∧
      GarbageCollect.keys result.manifest = pairRefs.map ChunkRef.key ∧
      (∀ key ∈ GarbageCollect.keys result.manifest, ∃ data, w.store.get key = some data) ∧
      orphanStore.get (contentKey (sampleHash [9])) ≠ none ∧ w.store.get (contentKey (sampleHash [9])) = none := by
  have begun : SampleReached (Settled samplePlatform samplePipeline (sampleReader [7,8]) false) orphanStore
      (World.collect plainEnvironment 1 signer false
        ⟨start samplePlatform samplePipeline (sampleReader [7,8]) orphanStore,
          GarbageCollect.start (some plainEnvironment),none⟩ 3) := by
    refine collect_after .start ?_
    have absent : ∀ turn < 3, ∀ chunk ∈ chunksOf samplePipeline (sampleReader [7,8]),
        (collected turn (orphanStore,GarbageCollect.start (some plainEnvironment))).1.get
          (contentKey (sampleHash chunk.data)) = none := by
      decide +kernel
    rintro turn before _ _ _ _ _ ⟨chunk,known,rfl⟩ found
    cases (absent turn before chunk known).symm.trans found
  have same : (collected 3 (orphanStore,GarbageCollect.start (some plainEnvironment))).1 = orphanStore := by
    decide +kernel
  have fed : ∃ s, ChunkPipeline.Reached samplePlatform samplePipeline (sampleReader [7,8]) Careful orphanStore s ∧
      Gathered pairRefs ⟨2,2,2,0,46⟩ [sampleHash [8],sampleHash [7]] savedStore s :=
    turns_find (by simp [passage,ending,Turn.event,Careful]) (by decide +kernel :
      (takeTurns samplePlatform samplePipeline (sampleReader [7,8]) sample_drawn (passage ++ passage ++ ending) _).any _ =
        true)
  obtain ⟨_,fed,gathered⟩ := fed
  obtain ⟨s,fed,returned,saved⟩ := gathered_returns gathered fed (fun same => by cases same) (by decide)
  rw [← same] at fed
  have backed := feed_after begun (fun _ _ careful => careful) fed
  -- A walk that asks for a page weighs three.
  have past : ∀ turn < 2, GarbageCollect.weight savedStore (collected turn (savedStore,listed)).2.task < 3 := by
    decide +kernel
  have may : ∀ turn < 2, Settled samplePlatform samplePipeline (sampleReader [7,8]) false
      (World.collect plainEnvironment 1 signer false ⟨s,listed,none⟩ turn) .collect := by
    intro turn before token asks
    have light := past turn before
    rw [← saved,show (collected turn (s.store,listed)).2.task = _ from asks,GarbageCollect.weight,
      GarbageCollect.walkWeight] at light
    omega
  obtain ⟨last,result,reached,collector,committed,keys,after⟩ :=
    backup_commits backed may (fun _ => trivial) returned saved (by decide +kernel)
  refine ⟨last,result,reached,?_,committed,keys,?_,by decide +kernel,?_⟩
  · rw [collector]
    decide +kernel
  · exact committed_backup_kept reached (fun _ _ listed => by cases listed) committed
  · rw [after]
    decide +kernel

-- A collection between the upload of the chunks and the commit of their manifest.
theorem collected_backup_lost : ∃ w result, SampleReached (fun _ move => move ≠ .feed .cancel) Store.empty w ∧
      w.collector.task = .done ∧ w.result = some (.ok result) ∧
      GarbageCollect.keys result.manifest = pairRefs.map ChunkRef.key ∧
      ∀ ref ∈ pairRefs, w.store.get ref.key = none := by
  obtain ⟨s,fed,returned,saved⟩ := @pair_fed (fun _ event => event ≠ .cancel) (fun _ same => nomatch same)
  have backed : SampleReached (fun _ move => move ≠ .feed .cancel) Store.empty
      ⟨s,GarbageCollect.start (some plainEnvironment),none⟩ :=
    feed_after .start (fun _ _ plain same => plain (Move.feed.inj same)) fed
  have may : ∀ turn < 12, Move.collect ≠ .feed .cancel := fun _ _ same => nomatch same
  obtain ⟨last,result,reached,collector,committed,keys,after⟩ :=
    backup_commits backed may (fun _ same => nomatch same) returned saved (by decide +kernel)
  refine ⟨last,result,reached,?_,committed,keys,?_⟩
  · rw [collector]
    decide +kernel
  · rw [after]
    decide +kernel

end
end Kronos.GarbageRace
