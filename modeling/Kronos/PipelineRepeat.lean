import Kronos.PipelineRestore

namespace Kronos.PipelineRepeat
open ByteRange Utf8 Chunk Chunker ObjectStore Termination WorkerPool ChunkPipeline PipelineFlow PipelineComplete
  PipelineDedup PipelineProgress PipelineRestore

-- The pipeline of an agent's backup: default sizes and no index.
def agentPipeline (keyID : Bytes) (compressor : Compressor) (cipher : Envelope.Cipher)
    (backend : ManifestCommit.Environment) : Pipeline where
  chunker := none
  compressor := some compressor
  cipher := some cipher
  keyID := keyID
  backend := some backend
  index := none
  concurrency := 0
  channelCapacity := 0

-- A repository filled by Feeds of one pipeline: the references and the input of
-- those that returned references, and what other runs and objects added.
inductive History (platform : Platform) (p : Pipeline) : Store → List (List ChunkRef × Bytes) → Prop
  | empty : History platform p Store.empty []
  | object {store : Store} {feeds : List (List ChunkRef × Bytes)} (key data : Bytes)
      (before : History platform p store feeds) (absent : store.get key = none) :
      History platform p (store.put key data) feeds
  | feed {store : Store} {feeds : List (List ChunkRef × Bytes)} (reader : Reader) (s : State) (stats : Stats)
      (refs : List ChunkRef) (before : History platform p store feeds) (fed : (chunkerOf p).Fed reader)
      (distinct : CollisionFree platform (chunksOf p reader))
      (reached : Reached platform p reader (fun _ event => event ≠ .cancel) store s)
      (returned : s.main = .returned stats (.ok refs)) : History platform p s.store ((refs,input reader) :: feeds)
  | other {store : Store} {feeds : List (List ChunkRef × Bytes)} (reader : Reader) (s : State)
      (allowed : State → Event → Prop) (before : History platform p store feeds)
      (reached : Reached platform p reader allowed store s) : History platform p s.store feeds

def Restores (platform : Platform) (p : Pipeline) (store : Store) (refs : List ChunkRef) (data : Bytes) : Prop :=
  ∀ given ordered, given.Perm refs → Sorts given ordered →
    restore platform p store ordered = (data,⟨refs.length,data.length,0,0,0⟩,none)

section
variable {platform : Platform} {p : Pipeline} {reader : Reader} {s next : State} {event : Event}
  {store after : Store} {backend : ManifestCommit.Environment} {cipher : Envelope.Cipher}

theorem restoreChunk_later (restored : restoreChunk platform p backend store ref = (data,none))
    (keeps : ∀ key object, store.get key = some object → after.get key = some object) :
    restoreChunk platform p backend after ref = (data,none) := by
  have same : ∀ read, ManifestCommit.getObject backend ref.key store = .ok read →
      ManifestCommit.getObject backend ref.key after = .ok read := by
    intro read found
    unfold ManifestCommit.getObject at found ⊢
    split at found
    · cases found
    · rename_i accepted
      rw [if_neg accepted]
      cases present : store.get ref.key with
      | none => simp only [present] at found; cases found
      | some =>
        simp only [present] at found
        rw [keeps _ _ present]
        exact found
  unfold restoreChunk at restored ⊢
  split at restored
  · cases restored
  · rename_i keySome
    rw [if_neg keySome]
    cases got : ManifestCommit.getObject backend ref.key store with
    | error => simp only [got] at restored; cases restored
    | ok read =>
      rw [same read got]
      simp only [got] at restored
      exact restored

theorem restorable_later (restorable : Restorable platform p backend store refs data)
    (keeps : ∀ key object, store.get key = some object → after.get key = some object) :
    Restorable platform p backend after refs data := by
  obtain ⟨numbered,pieces,whole,restored⟩ := restorable
  exact ⟨numbered,pieces,whole,List.Forall₂.imp (fun _ _ entry => restoreChunk_later entry keeps) restored⟩

theorem history_restorable (history : History platform p store feeds) (unindexed : p.index = none)
    (backed : p.backend = some backend) (roundTrips : RoundTrips platform p) :
    ∀ entry ∈ feeds, Restorable platform p backend store entry.1 entry.2 := by
  have none (reader : Reader) (store : Store) : Indexed platform p reader store := by
    intro chunk _ member
    rw [unindexed] at member
    cases member
  induction history with
  | empty => exact nofun
  | object key data before absent ih =>
    intro entry member
    refine restorable_later (ih entry member) ?_
    intro other object found
    rw [Store.get_put]
    split
    · rename_i same
      rw [same,absent] at found
      cases found
    · exact found
  | feed _ _ _ _ _ fed distinct reached returned ih =>
    intro entry member
    rcases List.mem_cons.mp member with rfl | earlier
    · exact feed_restorable reached returned fed backed roundTrips distinct (none _ _)
    · exact restorable_later (ih entry earlier) (reached_keeps reached)
  | other _ _ _ _ reached ih =>
    intro entry member
    exact restorable_later (ih entry member) (reached_keeps reached)

theorem stored_absent (reached : Reached platform p reader Careful store s) (fine : s.firstErr = none) :
    ∀ ref ∈ stored s, ref.duplicate = false → store.get (contentKey ref.hash) = none := by
  refine reached_fine ?_ ?_ reached fine
  · intro ref member
    rw [(start_items platform p reader store).2.2.2] at member
    cases member
  · intro s next before fine effect absent
    cases effect with
    | quiet _ _ _ storeds | hash _ _ _ _ storeds | encode _ _ _ _ _ _ _ _ storeds => exact moved_all storeds absent
    | upload item ref made _ _ encodeds storeds =>
      refine added_all storeds (fun fresh => ?_) absent
      obtain ⟨hash,duplicate,_⟩ := refers_mark (uploadChunk_refers made)
      rcases uploadChunk_store made with ⟨repeats,_⟩ | stores
      · rw [← duplicate,fresh] at repeats
        cases repeats
      · have encodes := (taken_all encodeds ((reached_course before).origins fine).encoded).1
        have free := stores.absent
        rw [encodes_key encodes,← hash] at free
        cases present : store.get (contentKey ref.hash) with
        | none => rfl
        | some =>
          rw [reached_keeps before _ _ present] at free
          cases free

theorem returned_absent (reached : Reached platform p reader Careful store s) (unindexed : p.index = none)
    (returned : s.main = .returned stats (.ok refs)) :
    ∀ chunk ∈ chunksOf p reader, store.get (contentKey (platform.hashBytes chunk.data)) = none := by
  induction reached with
  | start => cases returned
  | step before step _ ih =>
    rcases step_returns step returned with earlier | ⟨_,main,_,drained,closed,fine⟩
    · exact ih earlier
    · intro chunk known
      rcases uploaded_first (reached_course before) (reached_dedup before fine) fine main drained
        closed known with ⟨ref,member,fresh,hash⟩ | listed
      · rw [← hash]
        exact stored_absent before fine ref member fresh
      · rw [unindexed] at listed
        cases listed

theorem path_reached (path : Relation.ReflTransGen (OwnStep platform p reader) (start platform p reader store) s) :
    Reached platform p reader (fun _ event => Own event) store s := by
  induction path with
  | refl => exact .start
  | tail _ taken ih =>
    obtain ⟨_,own,step⟩ := taken
    exact ih.step step own

theorem repeated_feed_iff {keyID : Bytes} {compressor : Compressor} {feeds : List (List ChunkRef × Bytes)}
    (history : History platform (agentPipeline keyID compressor cipher backend) store feeds)
    (able : Able (agentPipeline keyID compressor cipher backend) reader)
    (fed : (chunkerOf (agentPipeline keyID compressor cipher backend)).Fed reader)
    (roundTrips : RoundTrips platform (agentPipeline keyID compressor cipher backend))
    (distinct : CollisionFree platform (chunksOf (agentPipeline keyID compressor cipher backend) reader)) :
    Inevitable (OwnStep platform (agentPipeline keyID compressor cipher backend) reader)
        (fun s => ∃ stats refs, s.main = .returned stats (.ok refs) ∧
          ∀ entry ∈ (refs,input reader) :: feeds,
            Restores platform (agentPipeline keyID compressor cipher backend) s.store entry.1 entry.2)
        (start platform (agentPipeline keyID compressor cipher backend) reader store) ↔
      ∀ chunk ∈ chunksOf (agentPipeline keyID compressor cipher backend) reader,
        store.get (contentKey (platform.hashBytes chunk.data)) = none := by
  constructor
  · intro ends
    obtain ⟨s,path,stats,refs,returned,_⟩ := ends.reaches
    exact returned_absent (own_careful (path_reached path)).1 rfl returned
  · intro absent
    refine (feed_inevitable able absent).mono ?_
    rintro s ⟨reached,stats,refs,returned⟩
    have later := History.feed reader s stats refs history fed distinct
      (reached_mono (fun _ _ own => own.1) reached) returned
    refine ⟨stats,refs,returned,?_⟩
    intro entry member given ordered anyOrder sorts
    exact restorable_restores (history_restorable later rfl rfl roundTrips entry member) rfl rfl anyOrder sorts

theorem stored_chunk_fails (unindexed : p.index = none) (known : chunk ∈ chunksOf p reader)
    (present : store.get (contentKey (platform.hashBytes chunk.data)) ≠ none) :
    Inevitable (OwnStep platform p reader) (fun s => ∃ stats fault, s.main = .returned stats (.error fault))
      (start platform p reader store) := by
  have protocol {s : State} (reached : Reached platform p reader (fun _ event => Own event) store s) : Protocol s :=
    (reached_course (own_careful reached).1).protocol
  apply by_weight load (fun s => Reached platform p reader (fun _ event => Own event) store s)
  · rintro s next reached ⟨_,_,step⟩
    exact step_lighter step (protocol reached)
  · rintro s next reached ⟨_,own,step⟩
    exact reached.step step own
  · intro s reached
    by_cases ended : ∃ stats result, s.main = .returned stats result
    · obtain ⟨stats,result,returned⟩ := ended
      cases result with
      | error fault => exact Or.inl ⟨stats,fault,returned⟩
      | ok => exact absurd (returned_absent (own_careful reached).1 unindexed returned chunk known) present
    · obtain ⟨next,step⟩ := @feed_moves platform p reader s (protocol reached)
        (fun stats result returned => ended ⟨stats,result,returned⟩)
      exact Or.inr ⟨next,.plain,own_plain,step⟩
  · exact .start

end

def sampleAgent : Pipeline := agentPipeline (ascii "k") noneCompressor sampleCipher ManifestLoad.plainEnvironment

theorem agent_able : Able sampleAgent (sampleReader [7]) where
  unindexed := rfl
  read := by decide +kernel
  cipher := ⟨sampleCipher,Envelope.algorithmAES256GCM,rfl,by decide +kernel,by decide,by decide⟩
  key := by decide
  compresses := fun data => ⟨data,rfl⟩
  backend := ⟨ManifestLoad.plainEnvironment,rfl,fun _ => rfl⟩

def agentStore : Store := Store.empty.put (contentKey (sampleHash [8])) (sealedByte 8)

theorem agent_fed {allowed : State → Event → Prop} (plain : ∀ s, allowed s .plain) : ∃ s,
    Reached samplePlatform sampleAgent (sampleReader [8]) allowed Store.empty s ∧
      s.main = .returned ⟨1,1,1,0,23⟩ (.ok [byteRef 0 8]) ∧ s.store = agentStore := by
  have run : ∃ s, Reached samplePlatform sampleAgent (sampleReader [8]) allowed Store.empty s ∧
      Gathered [byteRef 0 8] ⟨1,1,1,0,23⟩ [sampleHash [8]] agentStore s :=
    turns_find (by simp [passage,ending,Turn.event,plain]) (by decide +kernel :
      (takeTurns samplePlatform sampleAgent (sampleReader [8]) sample_drawn (passage ++ ending) _).any _ = true)
  obtain ⟨s,reached,gathered⟩ := run
  exact gathered_returns gathered reached (plain s) (by decide)

-- A stream is fed after another one; both can be restored.
theorem later_feed_returns : ∃ earlier, History samplePlatform sampleAgent agentStore [(earlier,[8])] ∧
    Inevitable (OwnStep samplePlatform sampleAgent (sampleReader [7]))
      (fun s => ∃ stats refs, s.main = .returned stats (.ok refs) ∧
        ∀ entry ∈ [(refs,[7]),(earlier,[8])], Restores samplePlatform sampleAgent s.store entry.1 entry.2)
      (start samplePlatform sampleAgent (sampleReader [7]) agentStore) := by
  obtain ⟨s,reached,returned,stored⟩ := @agent_fed (fun _ event => event ≠ .cancel) (fun _ same => nomatch same)
  have distinct : ∀ data ∈ [[7],[8]], CollisionFree samplePlatform (chunksOf sampleAgent (sampleReader data)) := by
    unfold CollisionFree
    decide +kernel
  have history := History.feed _ s _ _ .empty (FastCDC.busy_fed _ _ (sample_busy _)) (distinct [8] (by simp)) reached returned
  rw [stored] at history
  refine ⟨_,history,?_⟩
  exact (repeated_feed_iff history agent_able (FastCDC.busy_fed _ _ (sample_busy _)) (plain_round_trips rfl)
    (distinct [7] (by simp))).mpr (by decide +kernel)

-- The same stream fed a second time: the first Feed returns, the second fails.
theorem second_feed_fails : ∃ s stats refs,
    Reached samplePlatform sampleAgent (sampleReader [8]) (fun _ event => Own event) Store.empty s ∧
      s.main = .returned stats (.ok refs) ∧
      Inevitable (OwnStep samplePlatform sampleAgent (sampleReader [8]))
        (fun later => ∃ stats fault, later.main = .returned stats (.error fault))
        (start samplePlatform sampleAgent (sampleReader [8]) s.store) := by
  obtain ⟨s,reached,returned,stored⟩ := @agent_fed (fun _ event => Own event) (fun _ => own_plain)
  refine ⟨s,_,_,reached,returned,?_⟩
  have known : ⟨0,0,[8]⟩ ∈ chunksOf sampleAgent (sampleReader [8]) := by decide +kernel
  refine stored_chunk_fails rfl known ?_
  rw [stored]
  decide +kernel

end Kronos.PipelineRepeat
