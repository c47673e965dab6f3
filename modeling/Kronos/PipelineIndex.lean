import Kronos.PipelineRestore

namespace Kronos.PipelineIndex
open Chunk Chunker ObjectStore ChunkPipeline PipelineFlow PipelineComplete PipelineDedup
  PipelineProgress PipelineRestore

-- A Feed that returned references: what it was given and what it left.
structure Feed where
  pipeline : Pipeline
  reader : Reader
  before : Store
  refs : List ChunkRef
  after : Store

-- Feeds one after the other over one index and one backend. Each takes both as the
-- one before left them; the pipelines may differ in all else. Runs of any other
-- outcome come in between, and so do failed puts and cancelled contexts.
inductive Sequence (platform : Platform) (broken : Prop) (origin : List Hash) (begun : Store) :
    List Hash → Store → List Feed → Prop
  | start : Sequence platform broken origin begun origin begun []
  | feed {index : List Hash} {store : Store} {feeds : List Feed} {p : Pipeline} {reader : Reader} {s : State}
      {unsorted : List ChunkRef} {stats : Stats} (earlier : Sequence platform broken origin begun index store feeds)
      (shared : p.index = some index) (reached : Reached platform p reader Careful store s)
      (main : s.main = .collecting unsorted stats) (drained : s.refCh.queue = []) (closed : s.refCh.closed = true)
      (fine : s.firstErr = none) :
      Sequence platform broken origin begun s.seen s.store (⟨p,reader,store,sortRefs unsorted,s.store⟩ :: feeds)
  | other {index : List Hash} {store : Store} {feeds : List Feed} {p : Pipeline} {reader : Reader} {s : State}
      {stats : Stats} {result : Except Fault (List ChunkRef)}
      (earlier : Sequence platform broken origin begun index store feeds) (shared : p.index = some index)
      (reached : Reached platform p reader (fun _ _ => True) store s) (returned : s.main = .returned stats result)
      (may : broken) : Sequence platform broken origin begun s.seen s.store feeds

-- Every reference that is marked as a repetition names a stored object.
def Feed.Resolved (feed : Feed) : Prop :=
  ∀ ref ∈ feed.refs, ref.duplicate = true → feed.after.get ref.key ≠ none

-- The chunks that the index knew were stored when Feed began.
def Feed.Backed (platform : Platform) (feed : Feed) : Prop :=
  ∀ chunk ∈ chunksOf feed.pipeline feed.reader, platform.hashBytes chunk.data ∈ feed.pipeline.index.getD [] →
    feed.before.get (contentKey (platform.hashBytes chunk.data)) ≠ none

section
variable {platform : Platform} {p : Pipeline} {reader : Reader} {s : State} {store : Store} {ref : ChunkRef}
  {unsorted : List ChunkRef} {stats : Stats}

theorem stored_first (member : ref ∈ stored s) (fresh : ref.duplicate = false) : ref.hash ∈ firsts s := by
  apply List.mem_filterMap.mpr
  refine ⟨(ref.hash,false),List.mem_append_right _ (List.mem_append_right _ ?_),rfl⟩
  exact List.mem_map.mpr ⟨ref,member,by rw [fresh]⟩

-- What the index knew from the beginning is never taken for new.
theorem reached_apart (reached : Reached platform p reader Careful store s) (fine : s.firstErr = none) :
    ∀ hash ∈ firsts s, hash ∉ p.index.getD [] := by
  refine reached_fine ?_ ?_ reached fine
  · obtain ⟨_,hasheds,encodeds,storeds⟩ := start_items platform p reader store
    rw [firsts,marks,hasheds,encodeds,storeds]
    exact List.forall_mem_nil _
  · intro s next before fine effect apart hash member
    rcases effect_marks effect with ⟨same,_⟩ | ⟨chunk,more,_⟩
    · exact apart hash ((same.filterMap first).mem_iff.mp member)
    · have found := (more.filterMap first).mem_iff.mp member
      by_cases known : platform.hashBytes chunk.data ∈ s.seen
      · simp only [known,decide_true] at found
        exact apart hash found
      · simp only [known,decide_false] at found
        rcases List.mem_cons.mp found with rfl | old
        · intro listed
          exact known ((reached_dedup before fine).seen.mem_iff.mpr (List.mem_append_right _ listed))
        · exact apart hash old

theorem uploaded_present (reached : Reached platform p reader Careful store s) (fine : s.firstErr = none)
    (member : ref ∈ stored s) (fresh : ref.duplicate = false) : s.store.get (contentKey ref.hash) ≠ none := by
  obtain ⟨_,encodes,refers,_,found⟩ := reached_put reached fine ref member fresh
  rw [encodes_key encodes,← (refers_mark refers).1] at found
  rw [found]
  nofun

theorem present_later (reached : Reached platform p reader Careful store s) (present : store.get key ≠ none) :
    s.store.get key ≠ none := by
  obtain ⟨object,found⟩ := Option.ne_none_iff_exists'.mp present
  rw [reached_keeps reached key object found]
  nofun

-- A chunk that the index knows is not put, so its key is there at the end exactly
-- if it was there at the beginning.
theorem listed_untouched {chunk : PipelineChunk} (reached : Reached platform p reader Careful store s)
    (fine : s.firstErr = none) (listed : platform.hashBytes chunk.data ∈ p.index.getD [])
    (absent : store.get (contentKey (platform.hashBytes chunk.data)) = none) :
    s.store.get (contentKey (platform.hashBytes chunk.data)) = none := by
  have only : ∀ other ∈ [chunk], store.get (contentKey (platform.hashBytes other.data)) = none := by
    intro other member
    rw [List.mem_singleton.mp member]
    exact absent
  apply reached_fresh reached fine only chunk (List.mem_singleton_self _)
  intro ref member fresh same
  apply reached_apart reached fine ref.hash (stored_first member fresh)
  rw [same]
  exact listed

theorem feed_resolved_iff (reached : Reached platform p reader Careful store s)
    (main : s.main = .collecting unsorted stats) (drained : s.refCh.queue = []) (closed : s.refCh.closed = true)
    (fine : s.firstErr = none) : Feed.Resolved ⟨p,reader,store,sortRefs unsorted,s.store⟩ ↔
      Feed.Backed platform ⟨p,reader,store,sortRefs unsorted,s.store⟩ := by
  have course := reached_course reached
  obtain ⟨_,_,_,_,storeds⟩ := all_stored course.protocol (course.clean fine) closed drained
  rw [main] at storeds
  have inStored {ref : ChunkRef} (member : ref ∈ sortRefs unsorted) : ref ∈ stored s := by
    rw [storeds]
    exact (List.mergeSort_perm _ _).mem_iff.mp member
  constructor
  · intro resolved chunk known listed absent
    obtain ⟨_,described⟩ := returned_aligned course main drained closed fine
    obtain ⟨ref,member,_,encodes,is,refers⟩ := described_by described known
    obtain ⟨hash,_,key,_⟩ := refers_mark refers
    have same : ref.hash = platform.hashBytes chunk.data := by rw [hash,encodes.hashed.hash,is]
    have duplicate : ref.duplicate = true := by
      cases mark : ref.duplicate with
      | true => rfl
      | false => exact absurd (same ▸ listed) (reached_apart reached fine _ (stored_first (inStored member) mark))
    apply resolved ref member duplicate
    rw [key,encodes_key encodes,← hash,same]
    exact listed_untouched reached fine listed absent
  · intro backed ref member _
    obtain ⟨_,encodes,refers⟩ := (course.origins fine).stored ref (inStored member)
    obtain ⟨hash,_,key,_⟩ := refers_mark refers
    rw [key,encodes_key encodes,encodes.hashed.hash]
    rcases uploaded_first course (reached_dedup reached fine) fine main drained closed encodes.hashed.chunk
      with ⟨_,uploaded,fresh,same⟩ | listed
    · rw [← same]
      exact uploaded_present reached fine uploaded fresh
    · exact present_later reached (backed _ encodes.hashed.chunk listed)

theorem feed_backs (reached : Reached platform p reader Careful store s) (drained : s.refCh.queue = [])
    (closed : s.refCh.closed = true) (fine : s.firstErr = none)
    (backed : ∀ hash ∈ p.index.getD [], store.get (contentKey hash) ≠ none) :
    ∀ hash ∈ s.seen, s.store.get (contentKey hash) ≠ none := by
  have course := reached_course reached
  obtain ⟨_,_,hasheds,encodeds,_⟩ := all_stored course.protocol (course.clean fine) closed drained
  intro hash member
  rcases List.mem_append.mp ((reached_dedup reached fine).seen.mem_iff.mp member) with uploaded | listed
  · obtain ⟨_,marked,found⟩ := List.mem_filterMap.mp uploaded
    rw [marks,hasheds,encodeds] at marked
    obtain ⟨ref,inStored,rfl⟩ := List.mem_map.mp marked
    cases fresh : ref.duplicate with
    | true => simp [first,fresh] at found
    | false =>
      obtain rfl : ref.hash = hash := by simpa [first,fresh] using found
      exact uploaded_present reached fine inStored fresh
  · exact present_later reached (backed hash listed)

-- Where every run returns its references, no repetition dangles.
theorem unbroken_backed (sequence : Sequence platform False origin begun index store feeds)
    (backed : ∀ hash ∈ origin, begun.get (contentKey hash) ≠ none) :
    (∀ hash ∈ index, store.get (contentKey hash) ≠ none) ∧ ∀ feed ∈ feeds, feed.Resolved := by
  induction sequence with
  | start => exact ⟨backed,List.forall_mem_nil _⟩
  | @feed _ store _ p _ _ _ _ _ shared reached main drained closed fine ih =>
    have known : ∀ hash ∈ p.index.getD [], store.get (contentKey hash) ≠ none := by
      rw [shared]
      exact ih.1
    refine ⟨feed_backs reached drained closed fine known,List.forall_mem_cons.mpr ⟨?_,ih.2⟩⟩
    apply (feed_resolved_iff reached main drained closed fine).mpr
    exact fun _ _ listed => known _ listed
  | other _ _ _ _ may => exact may.elim

theorem duplicates_stored_iff_index_backed {broken : Prop} {origin index : List Hash} {begun : Store}
    {feeds : List Feed} (sequence : Sequence platform broken origin begun index store feeds) :
    (∀ feed ∈ feeds, feed.Resolved) ↔ ∀ feed ∈ feeds, feed.Backed platform := by
  induction sequence with
  | start => exact iff_of_true (List.forall_mem_nil _) (List.forall_mem_nil _)
  | feed _ _ reached main drained closed fine ih =>
    rw [List.forall_mem_cons,List.forall_mem_cons,ih,feed_resolved_iff reached main drained closed fine]
  | other _ _ _ _ _ ih => exact ih

end

-- The sample pipeline with a shared index.
def indexed (index : List Hash) : Pipeline := {samplePipeline with index := some index}

def repeatedRef : ChunkRef := {byteRef 0 7 with storedSize := 0,etag := [],duplicate := true}

def firstStore : Store := Store.empty.put (contentKey (sampleHash [7])) (sealedByte 7)

theorem first_gathered : ∃ s, Reached samplePlatform (indexed []) (sampleReader [7]) Careful Store.empty s ∧
    Gathered [byteRef 0 7] ⟨1,1,1,0,23⟩ [sampleHash [7]] firstStore s :=
  turns_find (by simp [passage,ending,Turn.event,Careful]) (by decide +kernel :
    (takeTurns samplePlatform (indexed []) (sampleReader [7]) sample_drawn (passage ++ ending) _).any _ = true)

-- A Feed that finds its only chunk in the index.
theorem repeated_gathered {allowed : State → Event → Prop} (plain : ∀ s, allowed s .plain) (store : Store)
    (given : store ∈ [Store.empty,firstStore]) : ∃ s,
    Reached samplePlatform (indexed [sampleHash [7]]) (sampleReader [7]) allowed store s ∧
      Gathered [repeatedRef] ⟨1,1,0,1,0⟩ [sampleHash [7]] store s :=
  turns_find (by simp [passage,ending,Turn.event,plain]) ((by decide +kernel : ∀ store ∈ [Store.empty,firstStore],
    (takeTurns samplePlatform (indexed [sampleHash [7]]) (sampleReader [7]) sample_drawn (passage ++ ending)
      (start samplePlatform (indexed [sampleHash [7]]) (sampleReader [7]) store)).any
        (Gathered [repeatedRef] ⟨1,1,0,1,0⟩ [sampleHash [7]] store ·) = true) store given)

theorem gathered_feed (gathered : Gathered [ref] stats later after s)
    (earlier : Sequence samplePlatform broken origin begun index store feeds)
    (reached : Reached samplePlatform (indexed index) reader Careful store s) :
    Sequence samplePlatform broken origin begun later after
      (⟨indexed index,reader,store,[ref],after⟩ :: feeds) := by
  obtain ⟨main,drained,closed,fine,rfl,rfl⟩ := gathered
  have sequence := earlier.feed rfl reached main drained closed fine
  rwa [sortRefs,List.mergeSort_singleton] at sequence

-- Two Feeds of the same byte: the second finds its chunk in the index.
theorem two_feeds (broken : Prop) : ∃ index store first second,
    Sequence samplePlatform broken [] Store.empty index store [second,first] ∧
      (∃ ref ∈ second.refs, ref.duplicate = true) ∧ ∀ feed ∈ [second,first], feed.Backed samplePlatform := by
  obtain ⟨_,stored,first⟩ := first_gathered
  obtain ⟨_,repeated,second⟩ := @repeated_gathered Careful (fun _ same => nomatch same) firstStore (by simp)
  refine ⟨_,_,_,_,gathered_feed second (gathered_feed first .start stored) repeated,⟨repeatedRef,List.mem_singleton_self _,rfl⟩,?_⟩
  unfold Feed.Backed
  decide +kernel

theorem second_feed_resolved : ∃ index store first second,
    Sequence samplePlatform True [] Store.empty index store [second,first] ∧
      (∃ ref ∈ second.refs, ref.duplicate = true) ∧ second.Resolved := by
  obtain ⟨_,_,_,_,sequence,repeated,backed⟩ := two_feeds True
  exact ⟨_,_,_,_,sequence,repeated,(duplicates_stored_iff_index_backed sequence).mpr backed _ List.mem_cons_self⟩

theorem two_feeds_backed : ∃ index store first second,
    Sequence samplePlatform False [] Store.empty index store [second,first] ∧
      (∃ ref ∈ second.refs, ref.duplicate = true) ∧ (∀ hash ∈ index, store.get (contentKey hash) ≠ none) ∧
        ∀ feed ∈ [second,first], feed.Resolved := by
  obtain ⟨_,_,_,_,sequence,repeated,_⟩ := two_feeds False
  exact ⟨_,_,_,_,sequence,repeated,unbroken_backed sequence fun _ => nofun⟩

theorem failed_run : ∃ s, Reached samplePlatform (indexed []) (sampleReader [7]) (fun _ event => event ≠ .cancel)
      Store.empty s ∧ s.main = .returned Stats.zero (.error (.upload 0 (.backend []))) ∧
        s.seen = [sampleHash [7]] ∧ s.store = Store.empty :=
  turns_find (fun _ => by decide) (by decide +kernel :
    (takeTurns samplePlatform (indexed []) (sampleReader [7]) sample_drawn
      (.chunker :: .chunker :: List.replicate 6 .hasher ++ List.replicate 6 .encoder ++
        [.uploader,.uploader,.putFails,.uploader,.caller]) _).any _ = true)

-- The put of a first Feed fails and leaves the hash in the index. A second Feed of
-- the same byte returns no error and a reference to an object that is not there.
theorem failed_put_leaves_hash : ∃ index store feed, Sequence samplePlatform True [] Store.empty index store [feed] ∧
      ∃ ref ∈ feed.refs, ref.duplicate = true ∧ feed.after.get ref.key = none := by
  obtain ⟨_,reached,returned,seen,left⟩ := failed_run
  have first : Sequence samplePlatform True [] Store.empty _ _ _ :=
    .other .start rfl (reached_mono (fun _ _ _ => trivial) reached) returned trivial
  rw [seen,left] at first
  obtain ⟨_,repeated,second⟩ := @repeated_gathered Careful (fun _ same => nomatch same) Store.empty (by simp)
  exact ⟨_,_,_,gathered_feed second first repeated,repeatedRef,List.mem_singleton_self _,rfl,rfl⟩

-- Restore then finds nothing under the key of that reference.
theorem unstored_chunk_not_restored : ∃ failed fault s stats refs, input (sampleReader [7]) = [7] ∧
    Reached samplePlatform (indexed []) (sampleReader [7]) (fun _ event => event ≠ .cancel) Store.empty failed ∧
      failed.main = .returned Stats.zero (.error fault) ∧
    Reached samplePlatform (indexed failed.seen) (sampleReader [7]) (fun _ event => event ≠ .cancel) failed.store s ∧
      s.main = .returned stats (.ok refs) ∧
    ∃ lost, restore samplePlatform (indexed failed.seen) s.store refs = ([],Stats.zero,some lost) := by
  obtain ⟨failed,reached,returned,seen,left⟩ := failed_run
  obtain ⟨_,again,gathered⟩ :=
    @repeated_gathered (fun _ event => event ≠ .cancel) (fun _ same => nomatch same) Store.empty (by simp)
  obtain ⟨s,again,done,after⟩ := gathered_returns gathered again (by decide) (by decide)
  refine ⟨failed,_,s,_,_,rfl,reached,returned,?_,done,?_⟩
  · rw [seen,left]
    exact again
  · rw [seen,after]
    exact ⟨_,rfl⟩

end Kronos.PipelineIndex
