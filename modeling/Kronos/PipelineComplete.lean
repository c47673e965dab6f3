import Kronos.ManifestLoad
import Kronos.PipelineFlow
import Mathlib.Data.List.Forall2
import Mathlib.Data.List.Sort

namespace Kronos.PipelineComplete
open ByteRange Chunk Chunker ObjectStore WorkerPool ChunkPipeline PipelineFlow

theorem aligned {relates : α → β → Prop} (f : α → Int) (g : β → Int) (same : (left.map f).Perm (right.map g))
    (ordered : left.Pairwise (fun a b => f a ≤ f b)) (strict : right.Pairwise (fun a b => g a < g b))
    (origin : ∀ a ∈ left, ∃ b ∈ right, f a = g b ∧ relates a b) : List.Forall₂ relates left right := by
  have numbers : left.map f = right.map g := by
    have weak : right.Pairwise (fun a b => g a ≤ g b) := strict.imp (fun less => Int.le_of_lt less)
    apply List.Perm.eq_of_pairwise ?_ (List.pairwise_map.mpr ordered) (List.pairwise_map.mpr weak) same
    intro a b _ _ one other
    exact Int.le_antisymm one other
  have distinct : (right.map g).Nodup := List.pairwise_map.mpr (strict.imp (fun less => Int.ne_of_lt less))
  rw [List.forall₂_iff_get]
  have lengths : left.length = right.length := by simpa using congrArg List.length numbers
  refine ⟨lengths,?_⟩
  intro i inLeft inRight
  obtain ⟨_,member,number,related⟩ := origin _ (List.get_mem left ⟨i,inLeft⟩)
  have here : f (left.get ⟨i,inLeft⟩) = g (right.get ⟨i,inRight⟩) := by
    have entry := List.getElem_of_eq numbers (i := i) (by simpa using inLeft)
    simpa using entry
  have equal := List.inj_on_of_nodup_map distinct member (List.get_mem right ⟨i,inRight⟩) (number.symm.trans here)
  rw [← equal]
  exact related

def tags (s : State) : List Int :=
  (raw s).map (fun chunk => (chunk.sequence : Int)) ++
    ((hashed s).map (fun item => (item.chunk.sequence : Int)) ++
      ((encoded s).map (fun item => (item.hashed.chunk.sequence : Int)) ++ (stored s).map ChunkRef.sequence))

-- A reference is that of an encoded chunk; the backend adds size and tag.
def Refers (ref : ChunkRef) (item : EncodedChunk) : Prop := {ref with storedSize := 0,etag := []} = refOf item

section
variable (platform : Platform) (p : Pipeline) (chunks : List PipelineChunk)

structure Hashes (item : HashedChunk) : Prop where
  chunk : item.chunk ∈ chunks
  hash : item.hash = platform.hashBytes item.chunk.data

structure Encodes (item : EncodedChunk) : Prop where
  hashed : Hashes platform chunks item.hashed
  made : ∃ nonce, Drawn p nonce ∧ encodeChunk p nonce item.hashed = .ok item

-- Every chunk is in one place, and every item comes from a chunk.
structure Origins (s : State) : Prop where
  tags : (tags s).Perm (chunks.map (fun chunk => (chunk.sequence : Int)))
  raw : ∀ chunk ∈ raw s, chunk ∈ chunks
  hashed : ∀ item ∈ hashed s, Hashes platform chunks item
  encoded : ∀ item ∈ encoded s, Encodes platform p chunks item
  stored : ∀ ref ∈ stored s, ∃ item, Encodes platform p chunks item ∧ Refers ref item

variable {platform p chunks} {s next : State} {store : Store}

theorem encodeChunk_exact (made : encodeChunk p nonce item = .ok result) :
    result.hashed = item ∧ result.key = contentKey item.hash ∧ result.compression = (compressorOf p).algorithm := by
  unfold encodeChunk at made
  split at made
  · cases made
    exact ⟨rfl,rfl,rfl⟩
  · split at made
    · cases made
    · split at made
      · cases made
      · split at made
        · cases made
        · split at made
          · cases made
          · cases made
            exact ⟨rfl,rfl,rfl⟩

theorem uploadChunk_refers (made : uploadChunk p store item = .ok (ref,after)) : Refers ref item := by
  unfold uploadChunk at made
  split at made
  · cases made; rfl
  · split at made
    · cases made
    · split at made
      · cases made
      · cases made; rfl

theorem hashChunk_chunk (platform : Platform) (seen : List Hash) (chunk : PipelineChunk) :
    (hashChunk platform seen chunk).1.chunk = chunk ∧
      (hashChunk platform seen chunk).1.hash = platform.hashBytes chunk.data := by
  unfold hashChunk
  dsimp only
  split <;> exact ⟨rfl,rfl⟩

theorem refers_sequence (refers : Refers ref item) :
    ref.sequence = item.hashed.chunk.sequence ∧ ref.offset = item.hashed.chunk.offset ∧
      ref.size = item.hashed.chunk.data.length :=
  ⟨congrArg ChunkRef.sequence refers,congrArg ChunkRef.offset refers,congrArg ChunkRef.size refers⟩

theorem effect_origins (effect : Effect platform p s next) (origins : Origins platform p chunks s) :
    Origins platform p chunks next := by
  cases effect with
  | quiet raws hasheds encodeds storeds =>
    refine ⟨?_,moved_all raws origins.raw,moved_all hasheds origins.hashed,moved_all encodeds origins.encoded,
      moved_all storeds origins.stored⟩
    refine List.Perm.trans ?_ origins.tags
    exact (raws.map _).append ((hasheds.map _).append ((encodeds.map _).append (storeds.map _)))
  | hash chunk raws hasheds encodeds storeds seen =>
    obtain ⟨same,hash⟩ := hashChunk_chunk platform s.seen chunk
    obtain ⟨known,others⟩ := taken_all raws origins.raw
    have made : Hashes platform chunks (hashChunk platform s.seen chunk).1 := by
      constructor
      · rw [same]
        exact known
      · rw [same]
        exact hash
    refine ⟨?_,others,added_all hasheds made origins.hashed,moved_all encodeds origins.encoded,
      moved_all storeds origins.stored⟩
    refine List.Perm.trans ?_ origins.tags
    refine List.Perm.trans ?_ ((raws.map _).append_right _).symm
    refine perm_deeper ?_ _
    have moved := hasheds.map (fun item => (item.chunk.sequence : Int))
    simp only [List.map_cons,same] at moved
    exact moved.append ((encodeds.map _).append (storeds.map _))
  | encode item nonce result drawn made raws hasheds encodeds storeds =>
    obtain ⟨same,_⟩ := encodeChunk_exact made
    obtain ⟨known,others⟩ := taken_all hasheds origins.hashed
    have encodes : Encodes platform p chunks result := by
      constructor
      · rw [same]
        exact known
      · rw [same]
        exact ⟨nonce,drawn,made⟩
    refine ⟨?_,moved_all raws origins.raw,others,added_all encodeds encodes origins.encoded,
      moved_all storeds origins.stored⟩
    refine List.Perm.trans ?_ origins.tags
    refine (raws.map _).append ?_
    refine List.Perm.trans ?_ ((hasheds.map _).append_right _).symm
    refine perm_deeper ?_ _
    have moved := encodeds.map (fun item => (item.hashed.chunk.sequence : Int))
    simp only [List.map_cons,same] at moved
    exact moved.append (storeds.map _)
  | upload item _ made raws hasheds encodeds storeds =>
    have refers := uploadChunk_refers made
    obtain ⟨known,others⟩ := taken_all encodeds origins.encoded
    refine ⟨?_,moved_all raws origins.raw,moved_all hasheds origins.hashed,others,
      added_all storeds ⟨item,known,refers⟩ origins.stored⟩
    refine List.Perm.trans ?_ origins.tags
    refine (raws.map _).append ((hasheds.map _).append ?_)
    refine List.Perm.trans ?_ ((encodeds.map _).append_right _).symm
    refine perm_deeper ?_ _
    have moved := storeds.map ChunkRef.sequence
    simp only [List.map_cons,(refers_sequence refers).1] at moved
    exact moved

end

-- No worker leaves with an item before an error is recorded.
def Careful (s : State) (event : Event) : Prop := event = .abandoned → s.firstErr ≠ none

section
variable {platform : Platform} {p : Pipeline} {reader : Reader} {s next : State} {event : Event} {store : Store}

theorem start_empty (platform : Platform) (p : Pipeline) (reader : Reader) (store : Store) :
    held (start platform p reader store).hashers = [] ∧ ready (start platform p reader store).hashers = [] ∧
      held (start platform p reader store).encoders = [] ∧ ready (start platform p reader store).encoders = [] ∧
      held (start platform p reader store).uploaders = [] ∧ ready (start platform p reader store).uploaders = [] := by
  have idle {α β : Type} (count : Nat) : held (List.replicate count (Worker.idle : Worker α β)) = [] ∧
      ready (List.replicate count (Worker.idle : Worker α β)) = [] := by
    constructor
    · rw [held,List.flatMap_eq_nil_iff]
      intro worker member
      rw [List.eq_of_mem_replicate member]
      rfl
    · rw [ready,List.flatMap_eq_nil_iff]
      intro worker member
      rw [List.eq_of_mem_replicate member]
      rfl
  exact ⟨(idle _).1,(idle _).2,(idle _).1,(idle _).2,(idle _).1,(idle _).2⟩

theorem start_items (platform : Platform) (p : Pipeline) (reader : Reader) (store : Store) :
    raw (start platform p reader store) = chunksOf p reader ∧ hashed (start platform p reader store) = [] ∧
      encoded (start platform p reader store) = [] ∧ stored (start platform p reader store) = [] := by
  obtain ⟨hashHeld,hashReady,encodeHeld,encodeReady,uploadHeld,uploadReady⟩ :=
    start_empty platform p reader store
  refine ⟨?_,?_,?_,?_⟩
  · rw [raw,Stage.waiting,State.hashStage,hashHeld]
    simp only [start,Channel.empty,List.append_nil]
  · rw [hashed_split,hashReady,Stage.waiting,State.encodeStage,encodeHeld]
    rfl
  · rw [encoded_split,encodeReady,Stage.waiting,State.uploadStage,uploadHeld]
    rfl
  · rw [stored_split,uploadReady]
    rfl

theorem start_origins (store : Store) : Origins platform p (chunksOf p reader) (start platform p reader store) := by
  obtain ⟨raws,hasheds,encodeds,storeds⟩ := start_items platform p reader store
  refine ⟨?_,?_,?_,?_,?_⟩
  · rw [tags,raws,hasheds,encodeds,storeds]
    simp only [List.map_nil,List.append_nil]
    exact .refl _
  · rw [raws]
    exact fun _ member => member
  · rw [hasheds]
    exact nofun
  · rw [encodeds]
    exact nofun
  · rw [storeds]
    exact nofun

-- The state of a careful run: the protocol always, the items while no error is
-- recorded.
structure Course (platform : Platform) (p : Pipeline) (reader : Reader) (s : State) : Prop where
  protocol : Protocol s
  clean : s.firstErr = none → Clean p reader s
  origins : s.firstErr = none → Origins platform p (chunksOf p reader) s

theorem step_effective (course : Course platform p reader s) (step : Step platform p reader s event next)
    (careful : Careful s event) (fine : next.firstErr = none) : Effect platform p s next := by
  have before := step_firstErr step fine
  exact step_effect step fine (course.protocol.sent before) (course.protocol.draining before)
    (fun abandoned => careful abandoned before)

theorem step_course (course : Course platform p reader s) (step : Step platform p reader s event next)
    (careful : Careful s event) : Course platform p reader next := by
  refine ⟨step_protocol step course.protocol,?_,?_⟩
  · intro fine
    have before := step_firstErr step fine
    exact step_clean step course.protocol (course.clean before) fine (fun abandoned => careful abandoned before)
  · intro fine
    exact effect_origins (step_effective course step careful fine) (course.origins (step_firstErr step fine))

theorem reached_course (reached : Reached platform p reader Careful store s) : Course platform p reader s := by
  induction reached with
  | start => exact ⟨start_protocol store,fun _ => start_clean store,fun _ => start_origins store⟩
  | step _ step careful ih => exact step_course ih step careful

-- What every effect keeps holds as long as there is no error.
@[elab_as_elim]
theorem reached_fine {holds : State → Prop} (starts : holds (start platform p reader store))
    (keeps : ∀ s next, Reached platform p reader Careful store s → s.firstErr = none → Effect platform p s next →
      holds s → holds next) (reached : Reached platform p reader Careful store s) (fine : s.firstErr = none) : holds s := by
  induction reached with
  | start => exact starts
  | step before step careful ih =>
    have earlier := step_firstErr step fine
    exact keeps _ _ before earlier (step_effective (reached_course before) step careful fine) (ih earlier)

theorem number_strict (chunks : List Chunker.Chunk) :
    (number chunks).Pairwise (fun a b => (a.sequence : Int) < (b.sequence : Int)) := by
  rw [List.pairwise_iff_getElem]
  intro i j inI inJ less
  simp only [number,List.getElem_mapIdx]
  exact Int.ofNat_lt.mpr less

-- What a returned reference says of the chunk it stands for.
def Describes (platform : Platform) (p : Pipeline) (chunks : List PipelineChunk) (ref : ChunkRef)
    (chunk : PipelineChunk) : Prop :=
  ∃ item, Encodes platform p chunks item ∧ item.hashed.chunk = chunk ∧ Refers ref item

theorem described_by (described : List.Forall₂ (Describes platform p all) refs chunks) (member : chunk ∈ chunks) :
    ∃ ref ∈ refs, Describes platform p all ref chunk := by
  obtain ⟨_,inside,rfl⟩ := List.mem_iff_getElem.mp member
  have other := inside
  rw [← described.length_eq] at other
  exact ⟨_,List.getElem_mem other,described.get other inside⟩

theorem sortRefs_ordered (refs : List ChunkRef) : (sortRefs refs).Pairwise (fun a b => a.sequence ≤ b.sequence) := by
  have transitive (a b c : ChunkRef) : decide (a.sequence ≤ b.sequence) → decide (b.sequence ≤ c.sequence) →
      decide (a.sequence ≤ c.sequence) := by
    intro one other
    simp only [decide_eq_true_eq] at one other ⊢
    omega
  have total (a b : ChunkRef) : decide (a.sequence ≤ b.sequence) || decide (b.sequence ≤ a.sequence) := by
    simp only [Bool.or_eq_true,decide_eq_true_eq]
    omega
  exact (List.pairwise_mergeSort transitive total refs).imp (fun less => of_decide_eq_true less)

theorem returned_aligned (course : Course platform p reader s) (main : s.main = .collecting unsorted stats)
    (drained : s.refCh.queue = []) (closed : s.refCh.closed = true) (fine : s.firstErr = none) :
    inputFault p reader = none ∧
      List.Forall₂ (Describes platform p (chunksOf p reader)) (sortRefs unsorted) (chunksOf p reader) := by
  have origins := course.origins fine
  obtain ⟨read,raws,hasheds,encodeds,storeds⟩ := all_stored course.protocol (course.clean fine) closed drained
  rw [main] at storeds
  change stored s = unsorted at storeds
  have sorted : (sortRefs unsorted).Perm unsorted := List.mergeSort_perm _ _
  refine ⟨read,aligned ChunkRef.sequence (fun chunk => (chunk.sequence : Int)) ?_ (sortRefs_ordered _)
    (number_strict _) ?_⟩
  · refine (sorted.map _).trans ?_
    have all := origins.tags
    rw [tags,raws,hasheds,encodeds,storeds] at all
    exact all
  · intro ref member
    obtain ⟨item,encodes,refers⟩ := origins.stored ref (by rw [storeds]; exact sorted.mem_iff.mp member)
    exact ⟨item.hashed.chunk,encodes.hashed.chunk,(refers_sequence refers).1,item,encodes,rfl,refers⟩

theorem feed_returned (reached : Reached platform p reader Careful store s) (returned : s.main = .returned stats (.ok refs)) :
    inputFault p reader = none ∧
      List.Forall₂ (Describes platform p (chunksOf p reader)) refs (chunksOf p reader) := by
  induction reached with
  | start => cases returned
  | step before step _ ih =>
    rcases step_returns step returned with earlier | ⟨_,main,sorted,drained,closed,fine⟩
    · exact ih earlier
    · rw [sorted]
      exact returned_aligned (reached_course before) main drained closed fine

end

def Adjoining : Int → List ChunkRef → Prop
  | _,[] => True
  | offset,ref :: rest => ref.offset = offset ∧ Adjoining (offset + ref.size) rest

def Cuts (ref : ChunkRef) (chunk : Chunker.Chunk) : Prop :=
  ref.offset = chunk.offset ∧ ref.size = chunk.data.length

theorem cuts_adjoining (cuts : List.Forall₂ Cuts refs chunks) (offset : Nat) (contiguous : Contiguous offset chunks) :
    Adjoining offset refs := by
  induction cuts generalizing offset with
  | nil => trivial
  | cons cut _ ih =>
    refine ⟨?_,?_⟩
    · rw [cut.1,contiguous.1]
    · have later := ih _ contiguous.2
      rw [cut.2]
      exact_mod_cast later

theorem cuts_size (cuts : List.Forall₂ Cuts refs chunks) :
    (refs.map ChunkRef.size).sum = ((chunks.map Chunker.Chunk.data).flatten.length : Int) := by
  induction cuts with
  | nil => rfl
  | cons cut _ ih =>
    simp only [List.map_cons,List.sum_cons,List.flatten_cons,List.length_append,Int.natCast_add,ih,cut.2]

section
variable {platform : Platform} {p : Pipeline}

theorem described_numbers (described : List.Forall₂ (Describes platform p all) refs (number chunks)) :
    refs.map ChunkRef.sequence = (List.range refs.length).map (fun i : Nat => (i : Int)) := by
  obtain ⟨lengths,entries⟩ := List.forall₂_iff_get.mp described
  apply List.ext_getElem
  · simp
  · intro i inLeft inRight
    have inRefs : i < refs.length := by simpa using inLeft
    obtain ⟨_,_,chunk,refers⟩ := entries i inRefs (lengths ▸ inRefs)
    have sequence := (refers_sequence refers).1
    rw [chunk] at sequence
    simp only [List.get_eq_getElem,number,List.getElem_mapIdx] at sequence
    simp only [List.getElem_map,List.getElem_range]
    exact sequence

theorem described_cuts (described : List.Forall₂ (Describes platform p all) refs (number chunks)) :
    List.Forall₂ Cuts refs chunks := by
  obtain ⟨lengths,entries⟩ := List.forall₂_iff_get.mp described
  have same : (number chunks).length = chunks.length := List.length_mapIdx
  refine List.forall₂_iff_get.mpr ⟨lengths.trans same,?_⟩
  intro i inRefs inChunks
  obtain ⟨_,_,chunk,refers⟩ := entries i inRefs (by omega)
  obtain ⟨_,offset,size⟩ := refers_sequence refers
  rw [chunk] at offset size
  simp only [List.get_eq_getElem,number,List.getElem_mapIdx] at offset size ⊢
  exact ⟨offset,size⟩

theorem ended_finished (fed : (chunkerOf p).Fed reader) (read : inputFault p reader = none) :
    ((chunkerOf p).forEach reader).2 = .finished := by
  cases ending : ((chunkerOf p).forEach reader).2 with
  | finished => rfl
  | stalled => exact absurd ending ((chunkerOf p).forEach_ends reader fed)
  | failed => rw [inputFault,ending] at read; cases read

end

-- A run with one worker a stage, told by who goes on next.
inductive Turn
  | chunker | hasher | encoder | uploader | caller | cancel | hasherLeaves | putFails

def Turn.event : Turn → Event
  | .cancel => .cancel
  | .hasherLeaves => .abandoned
  | .putFails => .fault
  | _ => .plain

def stageMove (capacity : Nat) (stage : Stage α β) : Option {next : Stage α β // Move capacity stage next} :=
  match stage with
  | ⟨⟨item :: rest,closed⟩,[.idle],output⟩ =>
    some ⟨⟨⟨rest,closed⟩,[.holding item],output⟩,.receive item rest rfl ⟨[],[],rfl,rfl⟩ rfl rfl⟩
  | ⟨⟨[],true⟩,[.idle],output⟩ => some ⟨⟨⟨[],true⟩,[.gone],output⟩,.finish rfl rfl ⟨[],[],rfl,rfl⟩ rfl rfl⟩
  | ⟨input,[.sending item],⟨queue,false⟩⟩ =>
    if room : queue.length < capacity then
      some ⟨⟨input,[.idle],⟨queue ++ [item],false⟩⟩,.send item room rfl ⟨[],[],rfl,rfl⟩ rfl rfl⟩
    else none
  | ⟨input,[.gone],⟨queue,false⟩⟩ => some ⟨⟨input,[.gone],⟨queue,true⟩⟩,.close (by simp) rfl rfl rfl rfl⟩
  | _ => none

section
variable (platform : Platform) (p : Pipeline) (reader : Reader) {nonce : Option Bytes} (drawn : Drawn p nonce)

def takeTurn (s : State) : (turn : Turn) → Option {next : State // Step platform p reader s turn.event next}
  | .chunker => if alive : s.chunking = true then
      match pending : s.pending with
      | chunk :: rest => if room : s.chunkCh.queue.length < capacity platform p then
          some ⟨_,.sendChunk chunk rest pending alive room⟩ else none
      | [] => some ⟨_,.endChunk pending alive⟩
    else none
  | .hasher => match workers : s.hashers with
    | [.holding chunk] => if live : s.cancelled = false then
        some ⟨_,.enterHash chunk [.working chunk] ⟨[],[],workers,rfl⟩ live⟩ else none
    | [.working chunk] => some ⟨_,.hash chunk [.sending _] ⟨[],[],workers,rfl⟩⟩
    | _ => (stageMove (capacity platform p) s.hashStage).map fun stage => ⟨_,.hashing stage.1 stage.2⟩
  | .encoder => match workers : s.encoders with
    | [.holding hashed] => if live : s.cancelled = false then
        some ⟨_,.enterEncode hashed [.working hashed] ⟨[],[],workers,rfl⟩ live⟩ else none
    | [.working hashed] => match made : encodeChunk p nonce hashed with
      | .ok encoded => some ⟨_,.encode hashed nonce encoded [.sending encoded] drawn made ⟨[],[],workers,rfl⟩⟩
      | .error _ => none
    | _ => (stageMove (capacity platform p) s.encodeStage).map fun stage => ⟨_,.encoding stage.1 stage.2⟩
  | .uploader => match workers : s.uploaders with
    | [.holding encoded] => if live : s.cancelled = false then
        some ⟨_,.enterUpload encoded [.working encoded] ⟨[],[],workers,rfl⟩ (Or.inr live)⟩ else none
    | [.working encoded] => match made : uploadChunk p s.store encoded with
      | .ok (ref,store) => some ⟨_,.upload encoded ref store [.sending ref] made ⟨[],[],workers,rfl⟩⟩
      | .error _ => none
    | _ => (stageMove (capacity platform p) s.uploadStage).map fun stage => ⟨_,.uploading stage.1 stage.2⟩
  | .caller => match main : s.main,queue : s.refCh.queue with
    | .collecting refs stats,ref :: rest => some ⟨_,.collect ref rest refs stats queue main⟩
    | .collecting refs stats,[] => if closed : s.refCh.closed = true then
        some ⟨_,.finish refs stats queue closed main⟩ else none
    | _,_ => none
  | .cancel => if live : s.cancelled = false then some ⟨_,.cancel live⟩ else none
  | .hasherLeaves => match workers : s.hashers with
    | [.sending hashed] => if done : s.cancelled = true then
        some ⟨_,.abandonHash hashed [.gone] ⟨[],[],workers,rfl⟩ done⟩ else none
    | _ => none
  | .putFails => match workers : s.uploaders with
    | [.working encoded] => if fits : encoded.hashed.duplicate = false ∧ p.backend.isSome = true then
        some ⟨_,.uploadBreaks encoded [] s.store [.gone] fits.1 fits.2 (Or.inl rfl) ⟨[],[],workers,rfl⟩⟩ else none
    | _ => none

def takeTurns : List Turn → State → Option State
  | [],s => some s
  | turn :: rest,s => (takeTurn platform p reader drawn s turn).bind fun next => takeTurns rest next.1

variable {platform p reader drawn}

theorem turns_reached {allowed : State → Event → Prop} (may : ∀ s, ∀ turn ∈ turns, allowed s turn.event)
    (reached : Reached platform p reader allowed store s) (took : takeTurns platform p reader drawn turns s = some last) :
    Reached platform p reader allowed store last := by
  induction turns generalizing s with
  | nil => exact Option.some.inj took ▸ reached
  | cons turn _ ih =>
    obtain ⟨next,_,took⟩ := Option.bind_eq_some_iff.mp took
    obtain ⟨first,others⟩ := forall_and.mp fun s => List.forall_mem_cons.mp (may s)
    exact ih others (reached.step next.2 (first s)) took

theorem turns_find {allowed : State → Event → Prop} {found : State → Prop} [DecidablePred found]
    (may : ∀ s, ∀ turn ∈ turns, allowed s turn.event)
    (took : (takeTurns platform p reader drawn turns (start platform p reader store)).any (found ·) = true) :
    ∃ s, Reached platform p reader allowed store s ∧ found s := by
  obtain ⟨s,took,is⟩ := (Option.any_eq_true _ _).mp took
  exact ⟨s,turns_reached may .start took,of_decide_eq_true is⟩

-- Every stage is over without an error, and only the caller has to return.
def Gathered (refs : List ChunkRef) (stats : Stats) (seen : List Hash) (store : Store) (s : State) : Prop :=
  s.main = .collecting refs stats ∧ s.refCh.queue = [] ∧ s.refCh.closed = true ∧ s.firstErr = none ∧
    s.seen = seen ∧ s.store = store

instance : DecidablePred (Gathered refs stats seen store) := fun _ => inferInstanceAs (Decidable (_ ∧ _))

theorem gathered_returns {allowed : State → Event → Prop} (gathered : Gathered refs stats seen after s)
    (reached : Reached platform p reader allowed store s) (may : allowed s .plain)
    (sorted : refs.Pairwise fun a b => decide (a.sequence ≤ b.sequence) = true) :
    ∃ last, Reached platform p reader allowed store last ∧ last.main = .returned stats (.ok refs) ∧
      last.store = after := by
  obtain ⟨main,drained,closed,fine,_,stored⟩ := gathered
  refine ⟨_,reached.step (.finish refs stats drained closed main) may,?_,stored⟩
  dsimp only
  rw [fine,sortRefs,List.mergeSort_of_pairwise sorted]

end

section
open Utf8

def sampleHash (data : Bytes) : Hash := ⟨(data ++ List.replicate 32 0).take 32,by simp⟩

def samplePlatform : Platform := ⟨sampleHash,noneCompressor,noneCompressor,1⟩

def sampleCipher : Envelope.Cipher :=
  ⟨ascii "aes-256-gcm",12,fun _ plaintext _ => plaintext,fun _ ciphertext _ => some ciphertext,
    Envelope.plain.decrypt_encrypt⟩

-- A pipeline that cuts a stream byte by byte, with one worker a stage.
def samplePipeline : Pipeline where
  chunker := some ⟨1,1,1,Nat.one_pos,Nat.one_pos,Nat.one_pos⟩
  compressor := none
  cipher := some sampleCipher
  keyID := ascii "k"
  backend := some ManifestLoad.plainEnvironment
  index := none
  concurrency := 1
  channelCapacity := 1

def sampleReader (data : Bytes) : Reader := [⟨data,some .eof⟩]

theorem sample_busy (data : Bytes) : Busy (sampleReader data) := by
  intro next member
  rw [sampleReader,List.mem_singleton] at member
  subst member
  nofun

theorem sample_drawn : Drawn samplePipeline (some (List.replicate 12 0)) := by
  intro fresh same cipher configured
  cases same
  cases configured
  rfl

def byteRef (sequence : Int) (b : UInt8) : ChunkRef where
  sequence := sequence
  hash := sampleHash [b]
  key := contentKey (sampleHash [b])
  offset := sequence
  size := 1
  storedSize := 23
  etag := ascii "KCHK"
  compression := ascii "none"
  encryption := ascii "aes-256-gcm"
  keyID := ascii "k"
  duplicate := false

def sealedByte (b : UInt8) : Bytes := ascii "KCHK" ++ [1,2,12,0,1] ++ List.replicate 12 0 ++ ascii "k" ++ [b]

def byteStore : Store := (Store.empty.put (contentKey (sampleHash [7])) (sealedByte 7)).put (contentKey (sampleHash [8])) (sealedByte 8)

-- A chunk goes through all stages, and all of them end.
def passage : List Turn :=
  .chunker :: (List.replicate 4 .hasher ++ List.replicate 4 .encoder ++ List.replicate 4 .uploader ++ [.caller])

def ending : List Turn := [.chunker,.hasher,.hasher,.encoder,.encoder,.uploader,.uploader]

end

theorem pair_fed {allowed : State → Event → Prop} (plain : ∀ s, allowed s .plain) : ∃ s,
    Reached samplePlatform samplePipeline (sampleReader [7,8]) allowed Store.empty s ∧
      s.main = .returned ⟨2,2,2,0,46⟩ (.ok [byteRef 0 7,byteRef 1 8]) ∧ s.store = byteStore := by
  have run : ∃ s, Reached samplePlatform samplePipeline (sampleReader [7,8]) allowed Store.empty s ∧
      Gathered [byteRef 0 7,byteRef 1 8] ⟨2,2,2,0,46⟩ [sampleHash [8],sampleHash [7]] byteStore s :=
    turns_find (by simp [passage,ending,Turn.event,plain]) (by decide +kernel :
      (takeTurns samplePlatform samplePipeline (sampleReader [7,8]) sample_drawn (passage ++ passage ++ ending) _).any _ =
        true)
  obtain ⟨s,reached,gathered⟩ := run
  exact gathered_returns gathered reached (plain s) (by decide)

section
variable {platform : Platform} {p : Pipeline}

theorem feed_complete {reader : Reader} {store : Store} {s : State} {stats : Stats} {refs : List ChunkRef}
    (reached : Reached platform p reader Careful store s) (fed : (chunkerOf p).Fed reader)
    (returned : s.main = .returned stats (.ok refs)) :
    refs.map ChunkRef.sequence = (List.range refs.length).map (fun i : Nat => (i : Int)) ∧ Adjoining 0 refs ∧
      (refs.map ChunkRef.size).sum = (input reader).length := by
  obtain ⟨read,described⟩ := feed_returned reached returned
  have cuts := described_cuts described
  refine ⟨described_numbers described,?_,?_⟩
  · exact_mod_cast cuts_adjoining cuts 0 ((chunkerOf p).forEach_contiguous reader)
  · rw [cuts_size cuts,(chunkerOf p).forEach_whole reader (ended_finished fed read)]

end

theorem two_chunks_complete : ∃ s stats, Reached samplePlatform samplePipeline (sampleReader [7,8]) Careful Store.empty s ∧
      s.main = .returned stats (.ok [byteRef 0 7,byteRef 1 8]) ∧
      [byteRef 0 7,byteRef 1 8].map ChunkRef.sequence = (List.range 2).map (fun i : Nat => (i : Int)) ∧
      Adjoining 0 [byteRef 0 7,byteRef 1 8] ∧
      ([byteRef 0 7,byteRef 1 8].map ChunkRef.size).sum = (input (sampleReader [7,8])).length := by
  obtain ⟨s,reached,returned,_⟩ := @pair_fed Careful fun _ same => nomatch same
  exact ⟨s,_,reached,returned,feed_complete reached (FastCDC.busy_fed _ _ (sample_busy _)) returned⟩

-- The caller cancels while the hash worker sends its result; the worker leaves,
-- every channel is closed behind it and Feed returns no reference and no error.
theorem cancelled_feed_loses_chunk : ∃ s stats,
    Reached samplePlatform samplePipeline (sampleReader [7]) (fun _ _ => True) Store.empty s ∧
      s.main = .returned stats (.ok []) ∧ input (sampleReader [7]) = [7] := by
  have run : ∃ s, Reached samplePlatform samplePipeline (sampleReader [7]) (fun _ _ => True) Store.empty s ∧
      Gathered [] Stats.zero [sampleHash [7]] Store.empty s :=
    turns_find (fun _ _ _ => trivial) (by decide +kernel :
      (takeTurns samplePlatform samplePipeline (sampleReader [7]) sample_drawn
        [.chunker,.chunker,.hasher,.hasher,.hasher,.cancel,.hasherLeaves,.hasher,.encoder,.encoder,.uploader,.uploader]
          _).any _ = true)
  obtain ⟨s,reached,gathered⟩ := run
  obtain ⟨last,reached,returned,_⟩ := gathered_returns gathered reached trivial .nil
  exact ⟨last,_,reached,returned,rfl⟩

end Kronos.PipelineComplete
