import Kronos.ChunkPipeline

namespace Kronos.PipelineFlow
open ByteRange Chunk Chunker ObjectStore WorkerPool ChunkPipeline

def collected : Main → List ChunkRef
  | .collecting refs _ => refs
  | .returned _ (.ok refs) => refs
  | _ => []

-- Where the items of a run are: before, between and after the work of the three
-- stages.
def raw (s : State) : List PipelineChunk := s.pending ++ s.hashStage.waiting

def hashed (s : State) : List HashedChunk := s.hashStage.done ++ held s.encoders

def encoded (s : State) : List EncodedChunk := s.encodeStage.done ++ held s.uploaders

def stored (s : State) : List ChunkRef := s.uploadStage.done ++ collected s.main

section
variable (platform : Platform) (p : Pipeline) (reader : Reader)

-- What a step that neither fails nor loses anything does to the items: it moves
-- one over the work of one stage, or none.
inductive Effect (s next : State) : Prop
  | quiet (raw : (raw next).Perm (raw s)) (hashed : (hashed next).Perm (hashed s))
      (encoded : (encoded next).Perm (encoded s)) (stored : (stored next).Perm (stored s))
      (seen : next.seen = s.seen) (store : next.store = s.store)
  | hash (chunk : PipelineChunk) (raw : (raw s).Perm (chunk :: raw next))
      (hashed : (hashed next).Perm ((hashChunk platform s.seen chunk).1 :: hashed s))
      (encoded : (encoded next).Perm (encoded s)) (stored : (stored next).Perm (stored s))
      (seen : next.seen = (hashChunk platform s.seen chunk).2) (store : next.store = s.store)
  | encode (item : HashedChunk) (nonce : Option Bytes) (result : EncodedChunk) (drawn : Drawn p nonce)
      (made : encodeChunk p nonce item = .ok result) (raw : (raw next).Perm (raw s))
      (hashed : (hashed s).Perm (item :: hashed next)) (encoded : (encoded next).Perm (result :: encoded s))
      (stored : (stored next).Perm (stored s)) (seen : next.seen = s.seen) (store : next.store = s.store)
  | upload (item : EncodedChunk) (ref : ChunkRef) (made : uploadChunk p s.store item = .ok (ref,next.store))
      (raw : (raw next).Perm (raw s)) (hashed : (hashed next).Perm (hashed s))
      (encoded : (encoded s).Perm (item :: encoded next)) (stored : (stored next).Perm (ref :: stored s))
      (seen : next.seen = s.seen)

variable {platform p reader} {s next : State} {event : Event}

theorem fail_firstErr (s : State) (fault : Fault) : (s.fail fault).firstErr ≠ none := by
  unfold State.fail
  split
  · rename_i recorded
    intro none
    rw [none] at recorded
    cases recorded
  · nofun

theorem fail_main (s : State) (fault : Fault) : (s.fail fault).main = s.main := by
  unfold State.fail
  split <;> rfl

theorem hashed_split (s : State) : hashed s = ready s.hashers ++ s.encodeStage.waiting := by
  simp only [hashed,Stage.done,Stage.waiting,State.hashStage,State.encodeStage,List.append_assoc]

theorem encoded_split (s : State) : encoded s = ready s.encoders ++ s.uploadStage.waiting := by
  simp only [encoded,Stage.done,Stage.waiting,State.encodeStage,State.uploadStage,List.append_assoc]

theorem stored_split (s : State) : stored s = ready s.uploaders ++ (s.refCh.queue ++ collected s.main) := by
  simp only [stored,Stage.done,State.uploadStage,List.append_assoc]

theorem step_effect (step : Step platform p reader s event next) (fine : next.firstErr = none)
    (quiet : s.errCh = none) (steady : ∀ stats fault, s.main ≠ .draining stats fault)
    (kept : event ≠ .abandoned) : Effect platform p s next := by
  cases step with
  | sendChunk _ rest following =>
    refine .quiet ?_ (.refl _) (.refl _) (.refl _) rfl rfl
    simp only [raw,Stage.waiting,State.hashStage,following,List.append_assoc,List.cons_append]
    exact perm_deeper List.perm_middle rest
  | stopChunk | refuseHash | refuseEncode | refuseUpload | encodeFails | uploadFails | uploadBreaks =>
    exact absurd fine (fail_firstErr _ _)
  | endChunk =>
    cases ended : inputFault p reader with
    | some =>
      rw [ended] at fine
      exact absurd fine (fail_firstErr _ _)
    | none => exact .quiet (.refl _) (.refl _) (.refl _) (.refl _) rfl rfl
  | hashing _ move =>
    exact .quiet (move.waiting.append_left _) (move.done.append_right _) (.refl _) (.refl _) rfl rfl
  | encoding _ move =>
    refine .quiet (.refl _) ?_ (move.done.append_right _) (.refl _) rfl rfl
    rw [hashed_split,hashed_split]
    exact move.waiting.append_left _
  | uploading _ move =>
    refine .quiet (.refl _) (.refl _) ?_ (move.done.append_right _) rfl rfl
    rw [encoded_split,encoded_split]
    exact move.waiting.append_left _
  | enterHash _ _ turn =>
    have same := turn.keeps rfl rfl
    exact .quiet ((same.1.append_left _).append_left _) ((same.2.append_right _).append_right _)
      (.refl _) (.refl _) rfl rfl
  | enterEncode _ _ turn =>
    have same := turn.keeps rfl rfl
    exact .quiet (.refl _) (same.1.append_left _) ((same.2.append_right _).append_right _) (.refl _) rfl rfl
  | enterUpload _ _ turn =>
    have same := turn.keeps rfl rfl
    exact .quiet (.refl _) (.refl _) (same.1.append_left _) ((same.2.append_right _).append_right _) rfl rfl
  | hash chunk _ turn =>
    have moved := turn.works
    exact .hash chunk (perm_deeper (perm_deeper moved.1 _) _) ((moved.2.append_right _).append_right _)
      (.refl _) (.refl _) rfl rfl
  | encode item nonce result _ drawn made turn =>
    have moved := turn.works
    exact .encode item nonce result drawn made (.refl _) (perm_deeper moved.1 _)
      ((moved.2.append_right _).append_right _) (.refl _) rfl rfl
  | upload item ref _ _ made turn =>
    have moved := turn.works
    exact .upload item ref made (.refl _) (.refl _) (perm_deeper moved.1 _)
      ((moved.2.append_right _).append_right _) rfl
  | abandonHash | abandonEncode | abandonUpload => exact absurd rfl kept
  | collect _ _ _ _ following main =>
    refine .quiet (.refl _) (.refl _) (.refl _) ?_ rfl rfl
    rw [stored_split,stored_split]
    simp only [following,main,collected]
    apply List.Perm.append_left
    rw [← List.append_assoc]
    exact List.perm_append_singleton _ _
  | finish _ _ _ _ main =>
    refine .quiet (.refl _) (.refl _) (.refl _) ?_ rfl rfl
    rw [stored_split,stored_split]
    have unfailed : s.firstErr = none := fine
    simp only [main,unfailed,collected]
    exact ((List.mergeSort_perm _ _).append_left _).append_left _
  | takeErr _ _ _ sent => rw [quiet] at sent; cases sent
  | drain _ _ _ _ _ main | drained _ _ _ _ main =>
    exact absurd main (steady _ _)
  | cancel => exact .quiet (.refl _) (.refl _) (.refl _) (.refl _) rfl rfl

-- How channels are closed and errors recorded, in every run.
structure Protocol (s : State) : Prop where
  chunkOver : s.chunkCh.closed = !s.chunking
  hashOver : Over s.hashStage
  encodeOver : Over s.encodeStage
  uploadOver : Over s.uploadStage
  hashers : s.hashers ≠ []
  encoders : s.encoders ≠ []
  uploaders : s.uploaders ≠ []
  sent : s.firstErr = none → s.errCh = none
  draining : s.firstErr = none → ∀ stats fault, s.main ≠ .draining stats fault
  unfailed : s.firstErr = none → ∀ stats fault, s.main ≠ .returned stats (.error fault)

theorem Protocol.fail (protocol : Protocol s) (fault : Fault) : Protocol (s.fail fault) := by
  unfold State.fail
  split
  · exact protocol
  · exact {protocol with
      sent := (fun same => nomatch same)
      draining := (fun same => nomatch same)
      unfailed := (fun same => nomatch same)}

theorem start_protocol (store : Store) : Protocol (start platform p reader store) where
  chunkOver := rfl
  hashOver := nofun
  encodeOver := nofun
  uploadOver := nofun
  hashers := List.ne_nil_of_length_pos (by
    simpa only [start,List.length_replicate] using workerCount_positive platform p)
  encoders := List.ne_nil_of_length_pos (by
    simpa only [start,List.length_replicate] using workerCount_positive platform p)
  uploaders := List.ne_nil_of_length_pos (by
    simpa only [start,List.length_replicate] using workerCount_positive platform p)
  sent := fun _ => rfl
  draining := fun _ _ _ same => nomatch same
  unfailed := fun _ _ _ same => nomatch same

theorem step_protocol (step : Step platform p reader s event next) (protocol : Protocol s) : Protocol next := by
  cases step with
  | sendChunk _ _ _ alive =>
    exact {protocol with chunkOver := by rw [alive]; rfl}
  | stopChunk =>
    apply Protocol.fail
    exact {protocol with chunkOver := rfl}
  | endChunk =>
    have closed : Protocol {s with chunking := false,chunkCh := ⟨s.chunkCh.queue,true⟩} :=
      {protocol with chunkOver := rfl}
    cases inputFault p reader with
    | none => exact closed
    | some fault => exact closed.fail fault
  | hashing _ move =>
    exact {protocol with
      chunkOver := by rw [move.input_closed]; exact protocol.chunkOver
      hashOver := move.keepsOver protocol.hashOver
      hashers := move.some protocol.hashers}
  | encoding _ move =>
    exact {protocol with
      hashOver := fun closed => protocol.hashOver (move.input_closed.symm.trans closed)
      encodeOver := move.keepsOver protocol.encodeOver
      encoders := move.some protocol.encoders}
  | uploading _ move =>
    exact {protocol with
      encodeOver := fun closed => protocol.encodeOver (move.input_closed.symm.trans closed)
      uploadOver := move.keepsOver protocol.uploadOver
      uploaders := move.some protocol.uploaders}
  | enterHash _ _ turn | hash _ _ turn | abandonHash _ _ turn =>
    exact {protocol with hashOver := protocol.hashOver.turned turn nofun,hashers := turn.some}
  | refuseHash _ _ turn =>
    apply Protocol.fail
    exact {protocol with hashOver := protocol.hashOver.turned turn nofun,hashers := turn.some}
  | enterEncode _ _ turn | encode _ _ _ _ _ _ turn | abandonEncode _ _ turn =>
    exact {protocol with encodeOver := protocol.encodeOver.turned turn nofun,encoders := turn.some}
  | refuseEncode _ _ turn | encodeFails _ _ _ _ _ _ turn =>
    apply Protocol.fail
    exact {protocol with encodeOver := protocol.encodeOver.turned turn nofun,encoders := turn.some}
  | enterUpload _ _ turn | upload _ _ _ _ _ turn | abandonUpload _ _ turn =>
    exact {protocol with uploadOver := protocol.uploadOver.turned turn nofun,uploaders := turn.some}
  | refuseUpload _ worker _ busy turn =>
    have alive : worker ≠ .gone := by rcases busy with rfl | rfl <;> nofun
    apply Protocol.fail
    exact {protocol with uploadOver := protocol.uploadOver.turned turn alive,uploaders := turn.some}
  | uploadFails _ _ _ _ turn | uploadBreaks _ _ _ _ _ _ _ turn =>
    apply Protocol.fail
    exact {protocol with uploadOver := protocol.uploadOver.turned turn nofun,uploaders := turn.some}
  | collect =>
    exact {protocol with
      draining := fun _ _ _ same => nomatch same
      unfailed := fun _ _ _ same => nomatch same}
  | finish =>
    refine {protocol with draining := (fun _ _ _ same => nomatch same),unfailed := ?_}
    intro none _ _ failed
    change s.firstErr = _ at none
    simp only [none] at failed
    cases failed
  | takeErr _ _ _ sent =>
    refine {protocol with sent := fun _ => rfl,draining := ?_,unfailed := (fun _ _ _ same => nomatch same)}
    intro none
    rw [protocol.sent none] at sent
    cases sent
  | drain | cancel => exact {protocol with}
  | drained stats fault _ _ main =>
    refine {protocol with draining := (fun _ _ _ same => nomatch same),unfailed := ?_}
    intro none
    exact absurd main (protocol.draining none stats fault)

-- What holds besides as long as no error is recorded and no item was left.
structure Clean (p : Pipeline) (reader : Reader) (s : State) : Prop where
  chunked : s.chunking = false → s.pending = [] ∧ inputFault p reader = none
  hashDrained : Drained s.hashStage
  encodeDrained : Drained s.encodeStage
  uploadDrained : Drained s.uploadStage

theorem start_clean (store : Store) : Clean p reader (start platform p reader store) := by
  have none {α β : Type} (count : Nat) : (Worker.gone : Worker α β) ∉ List.replicate count .idle := by
    intro gone
    cases List.eq_of_mem_replicate gone
  exact ⟨nofun,fun gone => absurd gone (none _),fun gone => absurd gone (none _),fun gone => absurd gone (none _)⟩

theorem step_clean (step : Step platform p reader s event next) (protocol : Protocol s)
    (clean : Clean p reader s) (fine : next.firstErr = none) (kept : event ≠ .abandoned) : Clean p reader next := by
  cases step with
  | sendChunk _ _ _ alive =>
    refine {clean with chunked := ?_,hashDrained := ?_}
    · intro ended
      rw [alive] at ended
      cases ended
    · intro gone
      have closed := (clean.hashDrained gone).1
      change s.chunkCh.closed = true at closed
      rw [protocol.chunkOver,alive] at closed
      cases closed
  | stopChunk | refuseHash | refuseEncode | refuseUpload | encodeFails | uploadFails | uploadBreaks =>
    exact absurd fine (fail_firstErr _ _)
  | endChunk last =>
    cases ended : inputFault p reader with
    | some =>
      rw [ended] at fine
      exact absurd fine (fail_firstErr _ _)
    | none => exact {clean with
        chunked := fun _ => ⟨last,ended⟩
        hashDrained := fun gone => ⟨rfl,(clean.hashDrained gone).2⟩}
  | hashing stage move =>
    refine {clean with hashDrained := move.drained clean.hashDrained,encodeDrained := ?_}
    intro gone
    have input := clean.encodeDrained gone
    change stage.output.closed = true ∧ stage.output.queue = []
    rw [move.output_closed input.1]
    exact input
  | encoding stage move =>
    refine {clean with encodeDrained := move.drained clean.encodeDrained,uploadDrained := ?_}
    intro gone
    have input := clean.uploadDrained gone
    change stage.output.closed = true ∧ stage.output.queue = []
    rw [move.output_closed input.1]
    exact input
  | uploading _ move => exact {clean with uploadDrained := move.drained clean.uploadDrained}
  | enterHash _ _ turn =>
    exact {clean with hashDrained := clean.hashDrained.turned turn nofun}
  | enterEncode _ _ turn | encode _ _ _ _ _ _ turn =>
    exact {clean with encodeDrained := clean.encodeDrained.turned turn nofun}
  | enterUpload _ _ turn | upload _ _ _ _ _ turn =>
    exact {clean with uploadDrained := clean.uploadDrained.turned turn nofun}
  | hash _ _ turn => exact {clean with hashDrained := clean.hashDrained.turned turn nofun}
  | abandonHash | abandonEncode | abandonUpload => exact absurd rfl kept
  | collect | finish | takeErr | drain | drained | cancel => exact {clean with}

theorem all_stored (protocol : Protocol s) (clean : Clean p reader s) (closed : s.refCh.closed = true)
    (drained : s.refCh.queue = []) :
    inputFault p reader = none ∧ raw s = [] ∧ hashed s = [] ∧ encoded s = [] ∧ stored s = collected s.main := by
  have uploads := clean.uploadDrained.ended protocol.uploaders (protocol.uploadOver closed)
  have encodes := clean.encodeDrained.ended protocol.encoders (protocol.encodeOver uploads.1)
  have hashes := clean.hashDrained.ended protocol.hashers (protocol.hashOver encodes.1)
  have chunked : s.pending = [] ∧ inputFault p reader = none := by
    have shut := hashes.1
    change s.chunkCh.closed = true at shut
    rw [protocol.chunkOver] at shut
    exact clean.chunked (by simpa using shut)
  have first : ready s.hashers = [] := hashes.2.2
  have second : ready s.encoders = [] := encodes.2.2
  have third : ready s.uploaders = [] := uploads.2.2
  refine ⟨chunked.2,?_,?_,?_,?_⟩
  · rw [raw,chunked.1,hashes.2.1]; rfl
  · rw [hashed_split,first,encodes.2.1]; rfl
  · rw [encoded_split,second,uploads.2.1]; rfl
  · rw [stored_split,third,drained]; rfl

theorem step_firstErr (step : Step platform p reader s event next) (fine : next.firstErr = none) :
    s.firstErr = none := by
  have failed {kept : State} {fault : Fault} (fine : (kept.fail fault).firstErr = none) {P : Prop} : P :=
    absurd fine (fail_firstErr _ _)
  cases step with
  | endChunk =>
    cases ended : inputFault p reader with
    | some => rw [ended] at fine; exact failed fine
    | none => rw [ended] at fine; exact fine
  | stopChunk | refuseHash | refuseEncode | refuseUpload | encodeFails | uploadFails | uploadBreaks => exact failed fine
  | sendChunk | hashing | encoding | uploading | enterHash | enterEncode | enterUpload | hash | encode | upload
  | abandonHash | abandonEncode | abandonUpload | collect | finish | takeErr | drain | drained | cancel => exact fine

-- Feed returns references once, and only from an empty and closed channel.
theorem step_returns (step : Step platform p reader s event next) (returned : next.main = .returned stats (.ok refs)) :
    s.main = .returned stats (.ok refs) ∨
      ∃ unsorted, s.main = .collecting unsorted stats ∧ refs = sortRefs unsorted ∧
        s.refCh.queue = [] ∧ s.refCh.closed = true ∧ s.firstErr = none := by
  cases step with
  | endChunk =>
    cases ended : inputFault p reader with
    | some => rw [ended,State.failIf,fail_main] at returned; exact Or.inl returned
    | none => rw [ended] at returned; exact Or.inl returned
  | stopChunk | refuseHash | refuseEncode | refuseUpload | encodeFails | uploadFails | uploadBreaks =>
    rw [fail_main] at returned
    exact Or.inl returned
  | sendChunk | hashing | encoding | uploading | enterHash | enterEncode | enterUpload | hash | encode | upload
  | abandonHash | abandonEncode | abandonUpload | drain | cancel => exact Or.inl returned
  | collect | takeErr | drained => cases returned
  | finish unsorted _ drained closed main =>
    cases recorded : s.firstErr with
    | some => simp only [recorded] at returned; cases returned
    | none =>
      simp only [recorded] at returned
      cases returned
      exact Or.inr ⟨unsorted,main,rfl,drained,closed,rfl⟩

end
end Kronos.PipelineFlow
