import Kronos.Termination
import Kronos.PipelineDedup

namespace Kronos.PipelineProgress
open ByteRange Chunk Chunker ObjectStore WorkerPool Termination ChunkPipeline PipelineFlow PipelineComplete
  PipelineDedup

def mainLoad : Main → Nat
  | .collecting _ _ => 2
  | .draining _ _ => 1
  | .returned _ _ => 0

-- What a run still has before it: every step takes something off.
def load (s : State) : Nat :=
  14 * s.pending.length + s.chunkCh.weight 13 + weight 9 s.hashers + s.hashCh.weight 9 + weight 5 s.encoders +
    s.encodeCh.weight 5 + weight 1 s.uploaders + s.refCh.weight 1 + mainLoad s.main + if s.cancelled then 0 else 1

section
variable {platform : Platform} {p : Pipeline} {reader : Reader} {s next : State} {event : Event}

theorem fail_load (s : State) (fault : Fault) : load (s.fail fault) ≤ load s := by
  unfold State.fail
  split
  · exact Nat.le_refl _
  · simp only [load,if_true]
    omega

theorem turn_lighter {old new : Worker α β} {before after : List (Worker α β)} (turn : Turns old new before after)
    {k : Nat} (less : new.weight k < old.weight k) : weight k after < weight k before := by
  have moved := turn.weight (Worker.weight k)
  unfold weight
  omega

theorem step_lighter (step : Step platform p reader s event next) (protocol : Protocol s) : load next < load s := by
  cases step with
  | sendChunk _ _ following alive =>
    have unclosed : s.chunkCh.closed = false := by rw [protocol.chunkOver,alive]; rfl
    simp only [load,following,Channel.weight,unclosed,List.length_cons,List.length_append,List.length_nil]
    omega
  | stopChunk _ alive =>
    have unclosed : s.chunkCh.closed = false := by rw [protocol.chunkOver,alive]; rfl
    refine Nat.lt_of_le_of_lt (fail_load _ _) ?_
    simp only [load,Channel.weight,unclosed,if_true,Bool.false_eq_true,if_false]
    omega
  | endChunk _ alive =>
    have unclosed : s.chunkCh.closed = false := by rw [protocol.chunkOver,alive]; rfl
    have closed : load {s with chunking := false,chunkCh := ⟨s.chunkCh.queue,true⟩} < load s := by
      simp only [load,Channel.weight,unclosed,if_true,Bool.false_eq_true,if_false]
      omega
    cases inputFault p reader with
    | none => exact closed
    | some => exact Nat.lt_of_le_of_lt (fail_load _ _) closed
  | hashing _ move =>
    have less := move.lighter 9
    simp only [State.hashStage,Nat.reduceAdd] at less
    simp only [load]
    omega
  | encoding _ move =>
    have less := move.lighter 5
    simp only [State.encodeStage,Nat.reduceAdd] at less
    simp only [load]
    omega
  | uploading _ move =>
    have less := move.lighter 1
    simp only [State.uploadStage,Nat.reduceAdd] at less
    simp only [load]
    omega
  | enterHash _ _ turn | hash _ _ turn | abandonHash _ _ turn =>
    have less := turn_lighter turn (k := 9) (by simp [Worker.weight])
    simp only [load]
    omega
  | refuseHash _ _ turn =>
    have less := turn_lighter turn (k := 9) (by simp [Worker.weight])
    refine Nat.lt_of_le_of_lt (fail_load _ _) ?_
    simp only [load]
    omega
  | enterEncode _ _ turn | encode _ _ _ _ _ _ turn | abandonEncode _ _ turn =>
    have less := turn_lighter turn (k := 5) (by simp [Worker.weight])
    simp only [load]
    omega
  | refuseEncode _ _ turn | encodeFails _ _ _ _ _ _ turn =>
    have less := turn_lighter turn (k := 5) (by simp [Worker.weight])
    refine Nat.lt_of_le_of_lt (fail_load _ _) ?_
    simp only [load]
    omega
  | enterUpload _ _ turn | upload _ _ _ _ _ turn | abandonUpload _ _ turn =>
    have less := turn_lighter turn (k := 1) (by simp [Worker.weight])
    simp only [load]
    omega
  | refuseUpload _ _ _ busy turn =>
    have less := turn_lighter turn (k := 1) (by rcases busy with rfl | rfl <;> simp [Worker.weight])
    refine Nat.lt_of_le_of_lt (fail_load _ _) ?_
    simp only [load]
    omega
  | uploadFails _ _ _ _ turn | uploadBreaks _ _ _ _ _ _ _ turn =>
    have less := turn_lighter turn (k := 1) (by simp [Worker.weight])
    refine Nat.lt_of_le_of_lt (fail_load _ _) ?_
    simp only [load]
    omega
  | collect _ _ _ _ following main =>
    simp only [load,Channel.weight,following,main,mainLoad,List.length_cons]
    omega
  | finish _ _ _ _ main | drained _ _ _ _ main =>
    simp only [load,main,mainLoad]
    omega
  | takeErr _ _ _ _ main =>
    simp only [load,main,mainLoad,if_true]
    omega
  | drain _ _ _ _ following =>
    simp only [load,Channel.weight,following,List.length_cons]
    omega
  | cancel live =>
    simp only [load,live,if_true,Bool.false_eq_true,if_false]
    omega

-- A step that neither the caller nor a failure of the surroundings takes.
def Own (event : Event) : Prop := event ≠ .cancel ∧ event ≠ .fault

theorem own_plain : Own .plain := ⟨nofun,nofun⟩

theorem drawn_exists (p : Pipeline) : ∃ fresh, Drawn p (some fresh) := by
  cases keyed : p.cipher with
  | none =>
    refine ⟨[],?_⟩
    intro _ _ cipher configured
    rw [keyed] at configured
    cases configured
  | some cipher =>
    refine ⟨List.replicate cipher.nonceSize 0,?_⟩
    intro fresh same other configured
    cases same
    rw [keyed] at configured
    cases configured
    exact List.length_replicate

theorem chunker_moves (protocol : Protocol s) (empty : s.chunkCh.queue = []) (unclosed : s.chunkCh.closed = false) :
    ∃ next, Step platform p reader s .plain next := by
  have alive : s.chunking = true := by
    have shut := protocol.chunkOver
    rw [unclosed] at shut
    cases chunking : s.chunking with
    | true => rfl
    | false => rw [chunking] at shut; cases shut
  cases following : s.pending with
  | nil => exact ⟨_,.endChunk following alive⟩
  | cons chunk rest =>
    exact ⟨_,.sendChunk chunk rest following alive (by rw [empty]; exact capacity_positive platform p)⟩

theorem hash_moves (protocol : Protocol s) (empty : s.hashCh.queue = []) (unclosed : s.hashCh.closed = false) :
    ∃ next, Step platform p reader s .plain next := by
  rcases @moves _ _ (capacity platform p) s.hashStage (capacity_positive platform p) empty unclosed with
    ⟨stage,move⟩ | ⟨item,holding⟩ | ⟨item,working⟩ | ⟨noInput,more⟩
  · exact ⟨_,.hashing stage move⟩
  · cases done : s.cancelled with
    | false =>
      obtain ⟨workers,turn⟩ := turns_of_mem holding (.working item)
      exact ⟨_,.enterHash item workers turn done⟩
    | true =>
      obtain ⟨workers,turn⟩ := turns_of_mem holding .gone
      exact ⟨_,.refuseHash item workers turn done⟩
  · obtain ⟨workers,turn⟩ := turns_of_mem working (.sending (hashChunk platform s.seen item).1)
    exact ⟨_,.hash item workers turn⟩
  · exact chunker_moves protocol noInput more

theorem encode_moves (protocol : Protocol s) (empty : s.encodeCh.queue = []) (unclosed : s.encodeCh.closed = false) :
    ∃ next, Step platform p reader s .plain next := by
  rcases @moves _ _ (capacity platform p) s.encodeStage (capacity_positive platform p) empty unclosed with
    ⟨stage,move⟩ | ⟨item,holding⟩ | ⟨item,working⟩ | ⟨noInput,more⟩
  · exact ⟨_,.encoding stage move⟩
  · cases done : s.cancelled with
    | false =>
      obtain ⟨workers,turn⟩ := turns_of_mem holding (.working item)
      exact ⟨_,.enterEncode item workers turn done⟩
    | true =>
      obtain ⟨workers,turn⟩ := turns_of_mem holding .gone
      exact ⟨_,.refuseEncode item workers turn done⟩
  · obtain ⟨fresh,drawn⟩ := drawn_exists p
    cases made : encodeChunk p (some fresh) item with
    | ok result =>
      obtain ⟨workers,turn⟩ := turns_of_mem working (.sending result)
      exact ⟨_,.encode item (some fresh) result workers drawn made turn⟩
    | error cause =>
      obtain ⟨workers,turn⟩ := turns_of_mem working .gone
      exact ⟨_,.encodeFails item (some fresh) cause workers drawn made turn⟩
  · exact hash_moves protocol noInput more

theorem upload_moves (protocol : Protocol s) (empty : s.refCh.queue = []) (unclosed : s.refCh.closed = false) :
    ∃ next, Step platform p reader s .plain next := by
  rcases @moves _ _ (capacity platform p) s.uploadStage (capacity_positive platform p) empty unclosed with
    ⟨stage,move⟩ | ⟨item,holding⟩ | ⟨item,working⟩ | ⟨noInput,more⟩
  · exact ⟨_,.uploading stage move⟩
  · by_cases live : item.hashed.duplicate = true ∨ s.cancelled = false
    · obtain ⟨workers,turn⟩ := turns_of_mem holding (.working item)
      exact ⟨_,.enterUpload item workers turn live⟩
    · obtain ⟨workers,turn⟩ := turns_of_mem holding .gone
      have fresh : item.hashed.duplicate = false := by
        simpa using fun duplicate => live (Or.inl duplicate)
      have done : s.cancelled = true := by
        simpa using fun uncancelled => live (Or.inr uncancelled)
      exact ⟨_,.refuseUpload item _ workers (Or.inl rfl) turn fresh done⟩
  · cases made : uploadChunk p s.store item with
    | ok result =>
      obtain ⟨workers,turn⟩ := turns_of_mem working (.sending result.1)
      exact ⟨_,.upload item result.1 result.2 workers made turn⟩
    | error cause =>
      obtain ⟨workers,turn⟩ := turns_of_mem working .gone
      exact ⟨_,.uploadFails item cause workers made turn⟩
  · exact encode_moves protocol noInput more

theorem feed_moves (protocol : Protocol s) (running : ∀ stats result, s.main ≠ .returned stats result) :
    ∃ next, Step platform p reader s .plain next := by
  cases queued : s.refCh.queue with
  | cons ref rest =>
    cases main : s.main with
    | collecting refs stats => exact ⟨_,.collect ref rest refs stats queued main⟩
    | draining stats fault => exact ⟨_,.drain ref rest stats fault queued main⟩
    | returned stats result => exact absurd main (running stats result)
  | nil =>
    cases closed : s.refCh.closed with
    | false => exact upload_moves protocol queued closed
    | true =>
      cases main : s.main with
      | collecting refs stats => exact ⟨_,.finish refs stats queued closed main⟩
      | draining stats fault => exact ⟨_,.drained stats fault queued closed main⟩
      | returned stats result => exact absurd main (running stats result)

end

theorem hash_text_length (hash : Hash) : hash.text.length = 64 := by
  rw [Hash.text,Hex.hexText_length,hash.size]

theorem contentKey_injective (same : contentKey one = contentKey other) : one = other := by
  have texts : one.text = other.text :=
    (List.append_inj' same ((hash_text_length one).trans (hash_text_length other).symm)).2
  have bytes : one.bytes = other.bytes := Hex.hexText_injective texts
  cases one
  cases other
  cases bytes
  rfl

-- A pipeline without an index that can seal what it reads, over a backend that
-- takes its keys.
structure Able (p : Pipeline) (reader : Reader) : Prop where
  unindexed : p.index = none
  read : inputFault p reader = none
  cipher : ∃ cipher algorithm, p.cipher = some cipher ∧ Envelope.envelopeAlgorithm cipher.algorithm = .ok algorithm ∧
    0 < cipher.nonceSize ∧ cipher.nonceSize ≤ 255
  key : 0 < p.keyID.length ∧ p.keyID.length ≤ 65535
  compresses : ∀ data, ∃ packed, (compressorOf p).compress data = some packed
  backend : ∃ backend, p.backend = some backend ∧ ∀ hash, backend.acceptsKey (contentKey hash) = true

section
variable {platform : Platform} {p : Pipeline} {reader : Reader} {s next : State} {event : Event} {store : Store}

theorem able_seals {fresh packed data : Bytes} (able : Able p reader) (drawn : Drawn p (some fresh)) :
    ∃ payload, Envelope.sealEnvelope p.cipher p.keyID (some fresh) packed data = .ok payload := by
  obtain ⟨cipher,algorithm,keyed,named,_,_⟩ := able.cipher
  have sized := drawn fresh rfl cipher keyed
  have known : algorithm = Envelope.algorithmAES256GCM ∨ algorithm = Envelope.algorithmChaCha20 := by
    unfold Envelope.envelopeAlgorithm at named
    split at named
    · exact Or.inl (Except.ok.inj named).symm
    · split at named
      · exact Or.inr (Except.ok.inj named).symm
      · cases named
  have header : Envelope.marshalHeader ⟨Envelope.envelopeVersion,algorithm,p.keyID,fresh⟩ =
      .ok (Envelope.headerBytes ⟨Envelope.envelopeVersion,algorithm,p.keyID,fresh⟩) := by
    unfold Envelope.marshalHeader
    have key := able.key
    rw [if_neg (by simp),if_neg (fun neither => known.elim neither.1 neither.2),if_neg (by dsimp only; omega),
      if_neg (by dsimp only; omega)]
  have keySome : p.keyID ≠ [] := List.length_pos_iff.mp able.key.1
  unfold Envelope.sealEnvelope
  simp only [keyed,keySome,if_false,named,header,bind,Except.bind]
  exact ⟨_,rfl⟩

theorem able_encodes (able : Able p reader) (drawn : Drawn p (some fresh)) (item : HashedChunk) :
    ∃ result, encodeChunk p (some fresh) item = .ok result := by
  unfold encodeChunk
  split
  · exact ⟨_,rfl⟩
  · obtain ⟨packed,compressed⟩ := able.compresses item.chunk.data
    obtain ⟨_,sealed⟩ := @able_seals p reader fresh packed item.hash.bytes able drawn
    obtain ⟨cipher,_,keyed,_⟩ := able.cipher
    have keySome : p.keyID ≠ [] := List.length_pos_iff.mp able.key.1
    rw [keyed] at sealed
    simp only [keyed,keySome,if_false,compressed,sealed]
    exact ⟨_,rfl⟩

-- The store has the key of a chunk only after the chunk was uploaded.
variable (platform) in
def Fresh (chunks : List PipelineChunk) (s : State) : Prop :=
  ∀ chunk ∈ chunks, (∀ ref ∈ stored s, ref.duplicate = false → ref.hash ≠ platform.hashBytes chunk.data) →
    s.store.get (contentKey (platform.hashBytes chunk.data)) = none

theorem encodes_key (encodes : Encodes platform p chunks item) : item.key = contentKey item.hashed.hash := by
  obtain ⟨_,_,made⟩ := encodes.made
  exact (encodeChunk_exact made).2.1

theorem effect_fresh (effect : Effect platform p s next) (origins : Origins platform p all s)
    (fresh : Fresh platform chunks s) : Fresh platform chunks next := by
  cases effect with
  | quiet _ _ _ storeds _ store | hash _ _ _ _ storeds _ store | encode _ _ _ _ _ _ _ _ storeds _ store =>
    intro chunk known unstored
    rw [store]
    exact fresh chunk known (fun ref member => unstored ref (storeds.mem_iff.mpr member))
  | upload item ref made _ _ encodeds storeds =>
    intro chunk known unstored
    have before := fresh chunk known
      (fun ref member => unstored ref (storeds.mem_iff.mpr (List.mem_cons_of_mem _ member)))
    rcases uploadChunk_store made with ⟨_,same⟩ | stores
    · rw [same]
      exact before
    · have encodes := origins.encoded item (encodeds.mem_iff.mpr (List.mem_cons_self ..))
      obtain ⟨hash,duplicate,_⟩ := refers_mark (uploadChunk_refers made)
      have other := unstored ref (storeds.mem_iff.mpr (List.mem_cons_self ..)) (duplicate.trans stores.fresh)
      rw [stores.after,Store.get_put,if_neg ?_]
      · exact before
      · rw [encodes_key encodes]
        intro same
        exact other (hash.trans (contentKey_injective same).symm)

theorem reached_fresh (reached : Reached platform p reader Careful store s) (fine : s.firstErr = none)
    (absent : ∀ chunk ∈ chunks, store.get (contentKey (platform.hashBytes chunk.data)) = none) :
    Fresh platform chunks s := by
  refine reached_fine (fun chunk known _ => absent chunk known) ?_ reached fine
  intro s next before fine effect fresh
  exact effect_fresh effect ((reached_course before).origins fine) fresh

theorem reached_nodup (reached : Reached platform p reader Careful store s) (fine : s.firstErr = none)
    (unindexed : p.index = none) : s.seen.Nodup := by
  refine reached_fine ?_ ?_ reached fine
  · change (p.index.getD []).Nodup
    rw [unindexed]
    exact List.nodup_nil
  · intro s next _ _ effect nodup
    rcases effect_marks effect with ⟨_,seen⟩ | ⟨chunk,_,seen⟩
    · rw [seen]
      exact nodup
    · rw [seen]
      split
      · exact nodup
      · rename_i unseen
        exact List.nodup_cons.mpr ⟨unseen,nodup⟩

theorem held_encoded (member : worker ∈ s.uploaders) (holds : item ∈ worker.held) : item ∈ encoded s :=
  List.mem_append_right _ (List.mem_flatMap.mpr ⟨worker,member,holds⟩)

-- No chunk is uploaded twice, so no put finds its key taken.
theorem able_uploads (able : Able p reader) (reached : Reached platform p reader Careful store s)
    (fine : s.firstErr = none)
    (absent : ∀ chunk ∈ chunksOf p reader, store.get (contentKey (platform.hashBytes chunk.data)) = none)
    (member : item ∈ encoded s) : ∃ result, uploadChunk p s.store item = .ok result := by
  unfold uploadChunk
  split
  · exact ⟨_,rfl⟩
  · rename_i notDuplicate
    have unmarked : item.hashed.duplicate = false := by simpa using notDuplicate
    obtain ⟨backend,backed,accepts⟩ := able.backend
    have course := reached_course reached
    have dedup := reached_dedup reached fine
    have encodes := (course.origins fine).encoded item member
    have key := encodes_key encodes
    have distinct : (firsts s).Nodup := by
      have nodup := dedup.seen.nodup_iff.mp (reached_nodup reached fine able.unindexed)
      exact (List.nodup_append.mp nodup).1
    have free : s.store.get item.key = none := by
      rw [key,encodes.hashed.hash]
      apply reached_fresh reached fine absent _ encodes.hashed.chunk
      intro ref inStored fresh same
      -- The same hash would stand twice among those to be uploaded.
      have split : firsts s = (hashed s).filterMap (fun h => first (h.hash,h.duplicate)) ++
          ((encoded s).filterMap (fun e => first (e.hashed.hash,e.hashed.duplicate)) ++
            (stored s).filterMap (fun r => first (r.hash,r.duplicate))) := by
        simp only [firsts,marks,List.filterMap_append,List.filterMap_map]
        rfl
      rw [split] at distinct
      have apart := (List.nodup_append.mp (List.nodup_append.mp distinct).2.1).2.2
      refine apart item.hashed.hash ?_ ref.hash ?_ (encodes.hashed.hash.trans same.symm)
      · exact List.mem_filterMap.mpr ⟨item,member,by simp [first,unmarked]⟩
      · exact List.mem_filterMap.mpr ⟨ref,inStored,by simp [first,fresh]⟩
    simp only [backed]
    unfold ManifestCommit.putObject
    rw [if_neg (by rw [key]; simp [accepts]),if_neg (by simp [free])]
    exact ⟨_,rfl⟩

def OwnStep (platform : Platform) (p : Pipeline) (reader : Reader) (s next : State) : Prop :=
  ∃ event, Own event ∧ Step platform p reader s event next

theorem own_careful (reached : Reached platform p reader (fun _ event => Own event) store s) :
    Reached platform p reader Careful store s ∧ (s.cancelled = true → s.firstErr ≠ none) :=
  reached_careful (fun _ _ own => own.1) reached

theorem own_fine (able : Able p reader)
    (absent : ∀ chunk ∈ chunksOf p reader, store.get (contentKey (platform.hashBytes chunk.data)) = none)
    (reached : Reached platform p reader (fun _ event => Own event) store s) (fine : s.firstErr = none)
    (step : Step platform p reader s event next) (own : Own event) : next.firstErr = none := by
  obtain ⟨careful,done⟩ := own_careful reached
  have live (cancelled : s.cancelled = true) {P : Prop} : P := absurd fine (done cancelled)
  cases step with
  | endChunk =>
    rw [able.read]
    exact fine
  | stopChunk _ _ cancelled | refuseHash _ _ _ cancelled
  | refuseEncode _ _ _ cancelled | refuseUpload _ _ _ _ _ _ cancelled =>
    exact live cancelled
  | encodeFails item nonce _ _ drawn made =>
    cases nonce with
    | none => exact absurd rfl own.2
    | some =>
      obtain ⟨_,encoded⟩ := able_encodes able drawn item
      rw [made] at encoded
      cases encoded
  | uploadFails _ _ _ made turn =>
    obtain ⟨_,uploaded⟩ := able_uploads able careful fine absent (held_encoded turn.was (List.mem_singleton.mpr rfl))
    rw [made] at uploaded
    cases uploaded
  | uploadBreaks => exact absurd rfl own.2
  | sendChunk | hashing | encoding | uploading | enterHash | enterEncode | enterUpload | hash | encode | upload
  | abandonHash | abandonEncode | abandonUpload | collect | finish | takeErr | drain | drained | cancel => exact fine

theorem feed_inevitable (able : Able p reader)
    (absent : ∀ chunk ∈ chunksOf p reader, store.get (contentKey (platform.hashBytes chunk.data)) = none) :
    Inevitable (OwnStep platform p reader)
      (fun s => Reached platform p reader (fun _ event => Own event) store s ∧
        ∃ stats refs, s.main = .returned stats (.ok refs)) (start platform p reader store) := by
  have protocol {s : State} (reached : Reached platform p reader (fun _ event => Own event) store s) : Protocol s :=
    (reached_course (own_careful reached).1).protocol
  apply by_weight load
    (fun s => Reached platform p reader (fun _ event => Own event) store s ∧ s.firstErr = none)
  · rintro s next ⟨reached,_⟩ ⟨_,_,step⟩
    exact step_lighter step (protocol reached)
  · rintro s next ⟨reached,fine⟩ ⟨_,own,step⟩
    exact ⟨reached.step step own,own_fine able absent reached fine step own⟩
  · rintro s ⟨reached,fine⟩
    cases main : s.main with
    | returned stats result =>
      cases result with
      | ok refs => exact Or.inl ⟨reached,stats,refs,rfl⟩
      | error fault => exact absurd main ((protocol reached).unfailed fine stats fault)
    | collecting _ stats =>
      have running (stats : Stats) (result : Except Fault (List ChunkRef)) : s.main ≠ .returned stats result := by
        intro returned
        rw [main] at returned
        cases returned
      obtain ⟨next,step⟩ := @feed_moves platform p reader s (protocol reached) running
      exact Or.inr ⟨next,.plain,own_plain,step⟩
    | draining stats fault => exact absurd main ((protocol reached).draining fine stats fault)
  · exact ⟨.start,rfl⟩

end
end Kronos.PipelineProgress
