import Kronos.PipelineComplete

namespace Kronos.PipelineDedup
open Chunk Chunker ObjectStore WorkerPool ChunkPipeline PipelineFlow PipelineComplete

-- The hash of every item that has one, and whether it was taken for a repetition.
def marks (s : State) : List (Hash × Bool) :=
  (hashed s).map (fun item => (item.hash,item.duplicate)) ++
    ((encoded s).map (fun item => (item.hashed.hash,item.hashed.duplicate)) ++
      (stored s).map (fun ref => (ref.hash,ref.duplicate)))

def first (mark : Hash × Bool) : Option Hash := if mark.2 then none else some mark.1

def firsts (s : State) : List Hash := (marks s).filterMap first

section
variable {platform : Platform} {p : Pipeline} {reader : Reader} {s next : State} {event : Event} {store : Store}

theorem refers_mark (refers : Refers ref item) :
    ref.hash = item.hashed.hash ∧ ref.duplicate = item.hashed.duplicate ∧ ref.key = item.key ∧
      ref.compression = item.compression :=
  ⟨congrArg ChunkRef.hash refers,congrArg ChunkRef.duplicate refers,congrArg ChunkRef.key refers,
    congrArg ChunkRef.compression refers⟩

theorem effect_marks (effect : Effect platform p s next) : ((marks next).Perm (marks s) ∧ next.seen = s.seen) ∨
      ∃ chunk : PipelineChunk, (marks next).Perm ((platform.hashBytes chunk.data,decide (platform.hashBytes chunk.data ∈ s.seen)) ::
          marks s) ∧
        next.seen = if platform.hashBytes chunk.data ∈ s.seen then s.seen
          else platform.hashBytes chunk.data :: s.seen := by
  cases effect with
  | quiet _ hasheds encodeds storeds seen =>
    exact Or.inl ⟨(hasheds.map _).append ((encodeds.map _).append (storeds.map _)),seen⟩
  | hash chunk raws hasheds encodeds storeds seen store =>
    have mark : ((hashChunk platform s.seen chunk).1.hash,(hashChunk platform s.seen chunk).1.duplicate) =
        (platform.hashBytes chunk.data,decide (platform.hashBytes chunk.data ∈ s.seen)) := by
      unfold hashChunk
      dsimp only
      split
      · rename_i known
        simp only [known,decide_true]
      · rename_i fresh
        simp only [fresh,decide_false]
    refine Or.inr ⟨chunk,?_,?_⟩
    · have moved := hasheds.map (fun item => (item.hash,item.duplicate))
      rw [List.map_cons,mark] at moved
      exact moved.append ((encodeds.map _).append (storeds.map _))
    · rw [seen]
      unfold hashChunk
      dsimp only
      split <;> rfl
  | encode item _ _ _ made _ hasheds encodeds storeds seen =>
    refine Or.inl ⟨?_,seen⟩
    refine List.Perm.trans ?_ ((hasheds.map _).append_right _).symm
    refine perm_deeper ?_ _
    have moved := encodeds.map (fun item => (item.hashed.hash,item.hashed.duplicate))
    rw [List.map_cons,(encodeChunk_exact made).1] at moved
    exact moved.append (storeds.map _)
  | upload _ ref made _ hasheds encodeds storeds seen =>
    refine Or.inl ⟨?_,seen⟩
    refine (hasheds.map _).append ?_
    refine List.Perm.trans ?_ ((encodeds.map _).append_right _).symm
    refine perm_deeper ?_ _
    have moved := storeds.map (fun ref => (ref.hash,ref.duplicate))
    obtain ⟨hash,duplicate,_⟩ := refers_mark (uploadChunk_refers made)
    rw [List.map_cons,hash,duplicate] at moved
    exact moved

-- The set of seen hashes holds those the index began with and those of the items
-- to be uploaded, and every repetition is of one of them.
structure Dedup (p : Pipeline) (s : State) : Prop where
  seen : s.seen.Perm (firsts s ++ p.index.getD [])
  repeated : ∀ hash, (hash,true) ∈ marks s → hash ∈ s.seen

theorem effect_dedup (effect : Effect platform p s next) (dedup : Dedup p s) : Dedup p next := by
  rcases effect_marks effect with ⟨same,seen⟩ | ⟨chunk,more,seen⟩
  · refine ⟨?_,?_⟩
    · rw [seen]
      exact dedup.seen.trans ((same.filterMap _).symm.append_right _)
    · intro hash member
      rw [seen]
      exact dedup.repeated hash (same.mem_iff.mp member)
  · generalize platform.hashBytes chunk.data = found at more seen
    by_cases known : found ∈ s.seen
    · simp only [known,decide_true,if_true] at more seen
      have kept : (firsts next).Perm (firsts s) := more.filterMap first
      refine ⟨?_,?_⟩
      · rw [seen]
        exact dedup.seen.trans (kept.symm.append_right _)
      · intro hash member
        rw [seen]
        rcases List.mem_cons.mp (more.mem_iff.mp member) with same | old
        · cases same
          exact known
        · exact dedup.repeated hash old
    · simp only [known,decide_false,if_false] at more seen
      have grown : (firsts next).Perm (found :: firsts s) := more.filterMap first
      refine ⟨?_,?_⟩
      · rw [seen]
        exact (dedup.seen.cons found).trans (grown.symm.append_right _)
      · intro hash member
        rw [seen]
        rcases List.mem_cons.mp (more.mem_iff.mp member) with same | old
        · cases same
        · exact List.mem_cons_of_mem _ (dedup.repeated hash old)

theorem start_dedup (store : Store) : Dedup p (start platform p reader store) := by
  obtain ⟨_,hasheds,encodeds,storeds⟩ := start_items platform p reader store
  have none : marks (start platform p reader store) = [] := by
    rw [marks,hasheds,encodeds,storeds]
    rfl
  refine ⟨?_,?_⟩
  · rw [firsts,none]
    exact .refl _
  · rw [none]
    exact nofun

-- An object goes where the backend accepts the key and has none yet.
structure Stores (p : Pipeline) (store : Store) (item : EncodedChunk) (after : Store) : Prop where
  fresh : item.hashed.duplicate = false
  accepted : ∃ backend, p.backend = some backend ∧ backend.acceptsKey item.key = true
  absent : store.get item.key = none
  after : after = store.put item.key item.payload

theorem uploadChunk_store (made : uploadChunk p store item = .ok (ref,after)) :
    (item.hashed.duplicate = true ∧ after = store) ∨ Stores p store item after := by
  unfold uploadChunk at made
  split at made
  · rename_i duplicate
    cases made
    exact Or.inl ⟨duplicate,rfl⟩
  · rename_i fresh
    right
    split at made
    · cases made
    · rename_i backend configured
      unfold ManifestCommit.putObject at made
      split at made
      · cases made
      · rename_i info after put
        cases made
        split at put
        · cases put
        · rename_i accepted
          split at put
          · cases put
          · rename_i absent
            cases put
            exact ⟨by simpa using fresh,⟨backend,configured,by simpa using accepted⟩,by simpa using absent,rfl⟩

theorem uploadChunk_keeps (made : uploadChunk p store item = .ok (ref,after)) (found : store.get key = some data) :
    after.get key = some data := by
  rcases uploadChunk_store made with ⟨_,same⟩ | stores
  · rw [same]
    exact found
  · rw [stores.after,Store.get_put]
    split
    · rename_i same
      rw [same,stores.absent] at found
      cases found
    · exact found

theorem fail_store (s : State) (fault : Fault) : (s.fail fault).store = s.store := by
  unfold State.fail
  split <;> rfl

theorem step_keeps (step : Step platform p reader s event next) (found : s.store.get key = some data) :
    next.store.get key = some data := by
  cases step with
  | upload _ _ _ _ made => exact uploadChunk_keeps made found
  | uploadBreaks _ _ _ _ _ _ left =>
    rw [fail_store]
    rcases left with same | ⟨_,made⟩
    · rw [same]
      exact found
    · exact uploadChunk_keeps made found
  | endChunk =>
    cases inputFault p reader with
    | none => exact found
    | some => rw [State.failIf,fail_store]; exact found
  | stopChunk | refuseHash | refuseEncode | refuseUpload | encodeFails | uploadFails =>
    rw [fail_store]
    exact found
  | sendChunk | hashing | encoding | uploading | enterHash | enterEncode | enterUpload | hash | encode
  | abandonHash | abandonEncode | abandonUpload | collect | finish | takeErr | drain | drained | cancel => exact found

-- Without a cancel of the caller the context is done only after an error, so no
-- worker leaves with an item before.
theorem step_cancelled (step : Step platform p reader s event next) (uncancelled : event ≠ .cancel)
    (protocol : Protocol s) (done : s.cancelled = true → s.firstErr ≠ none) :
    next.cancelled = true → next.firstErr ≠ none := by
  cases step with
  | endChunk =>
    cases inputFault p reader with
    | none => exact done
    | some => exact fun _ => fail_firstErr _ _
  | stopChunk | refuseHash | refuseEncode | refuseUpload | encodeFails | uploadFails | uploadBreaks =>
    exact fun _ => fail_firstErr _ _
  | takeErr _ _ _ sent =>
    intro _ none
    rw [protocol.sent none] at sent
    cases sent
  | cancel => exact absurd rfl uncancelled
  | sendChunk | hashing | encoding | uploading | enterHash | enterEncode | enterUpload | hash | encode | upload
  | abandonHash | abandonEncode | abandonUpload | collect | finish | drain | drained => exact done

theorem step_abandoned (step : Step platform p reader s .abandoned next) : s.cancelled = true := by
  generalize same : Event.abandoned = event at step
  cases step with
  | abandonHash _ _ _ done => exact done
  | abandonEncode _ _ _ done => exact done
  | abandonUpload _ _ _ done => exact done
  | encodeFails => split at same <;> cases same
  | sendChunk | stopChunk | endChunk | hashing | encoding | uploading | enterHash | refuseHash | enterEncode
  | refuseEncode | enterUpload | refuseUpload | hash | encode | upload | uploadFails | uploadBreaks | collect
  | finish | takeErr | drain | drained | cancel => cases same

theorem reached_mono {allowed wider : State → Event → Prop} (weaker : ∀ s event, allowed s event → wider s event)
    (reached : Reached platform p reader allowed store s) : Reached platform p reader wider store s := by
  induction reached with
  | start => exact .start
  | step _ step may ih => exact ih.step step (weaker _ _ may)

theorem reached_careful {allowed : State → Event → Prop} (uncancelled : ∀ s event, allowed s event → event ≠ .cancel)
    (reached : Reached platform p reader allowed store s) :
    Reached platform p reader Careful store s ∧ (s.cancelled = true → s.firstErr ≠ none) := by
  induction reached with
  | start => exact ⟨.start,nofun⟩
  | step _ step may ih =>
    obtain ⟨careful,done⟩ := ih
    have course := reached_course careful
    refine ⟨careful.step step ?_,step_cancelled step (uncancelled _ _ may) course.protocol done⟩
    intro abandoned
    subst abandoned
    exact done (step_abandoned step)

theorem reached_dedup (reached : Reached platform p reader Careful store s) (fine : s.firstErr = none) : Dedup p s :=
  reached_fine (start_dedup store) (fun _ _ _ _ => effect_dedup) reached fine

-- Once all have come through, every chunk was uploaded by the worker that saw its
-- hash first, unless the index knew it.
theorem uploaded_first (course : Course platform p reader s) (dedup : Dedup p s) (fine : s.firstErr = none)
    (main : s.main = .collecting unsorted stats) (drained : s.refCh.queue = []) (closed : s.refCh.closed = true)
    (known : chunk ∈ chunksOf p reader) :
    (∃ ref ∈ stored s, ref.duplicate = false ∧ ref.hash = platform.hashBytes chunk.data) ∨
      platform.hashBytes chunk.data ∈ p.index.getD [] := by
  obtain ⟨_,_,hasheds,encodeds,storeds⟩ := all_stored course.protocol (course.clean fine) closed drained
  have marked : marks s = (stored s).map (fun ref => (ref.hash,ref.duplicate)) := by
    rw [marks,hasheds,encodeds]
    rfl
  obtain ⟨_,described⟩ := returned_aligned course main drained closed fine
  obtain ⟨ref,inSorted,item,encodes,is,refers⟩ := described_by described known
  have member : ref ∈ stored s := by
    rw [storeds,main]
    exact (List.mergeSort_perm _ _).mem_iff.mp inSorted
  have hash : ref.hash = platform.hashBytes chunk.data := by
    rw [(refers_mark refers).1,encodes.hashed.hash,is]
  cases duplicate : ref.duplicate with
  | false => exact Or.inl ⟨ref,member,duplicate,hash⟩
  | true =>
    have seen : ref.hash ∈ s.seen := by
      apply dedup.repeated
      rw [marked,List.mem_map]
      exact ⟨ref,member,by rw [duplicate]⟩
    rcases List.mem_append.mp (dedup.seen.mem_iff.mp seen) with uploaded | indexed
    · rw [firsts,marked,List.filterMap_map,List.mem_filterMap] at uploaded
      obtain ⟨other,inStored,found⟩ := uploaded
      simp only [Function.comp_apply,first] at found
      split at found
      · cases found
      · rename_i fresh
        exact Or.inl ⟨other,inStored,by simpa using fresh,(Option.some.inj found).trans hash⟩
    · rw [hash] at indexed
      exact Or.inr indexed

end
end Kronos.PipelineDedup
