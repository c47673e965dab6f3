import Kronos.S3Put

namespace Kronos.S3Race
open ByteRange Interleaving S3Put Server

abbrev Race := System Server (Bytes × Int) Call (fun _ => Exchange) (Except Fault Unit)

def handler (b : Backend) (request : Bytes × Int) : Client (Except Fault Unit) := b.put request.1 request.2

-- Any number of puts, of these contents.
def InPlay (contents : Bytes → Prop) (_ : Race) (move : Move (Bytes × Int) Call) : Prop :=
  ∀ place request, move = .accept place request → contents request.1

def Returned (s : Race) (place : Nat) (content : Bytes) : Prop :=
  ∃ size, s.tasks place = some ((content,size),.done (.ok ()))

structure Immutable (s : Race) : Prop where
  once : ∀ place other content rival, Returned s place content → Returned s other rival → place = other
  kept : ∀ place content, Returned s place content → s.state.object = some ⟨false,content⟩

section
variable {b : Backend} {content : Bytes} {left : Nat} {s : Server}

theorem exec_kept (held : s.object = some o) : (exec (.put content) s).2.object = some o := by
  have kept := turn_stored held
  unfold exec
  rw [serve_stored kept]
  split
  · exact kept
  · split <;> exact kept
  · exact kept

theorem success_stores (told : after content left (exec (.put content) s).1 = .done (.ok ())) :
    s.object = none ∧ (exec (.put content) s).2.object = some ⟨false,content⟩ := by
  unfold exec at told ⊢
  cases fate : (s.turns s.sent).fate with
  | cancelled =>
    rw [fate] at told
    cases told
  | masked _ mask =>
    rw [fate] at told
    cases left with
    | zero =>
      obtain ⟨_,ended,_⟩ := @masked_last content mask
      rw [ended] at told
      cases told
    | succ =>
      rw [masked_again,tries_call] at told
      cases told
  | answered =>
    rw [fate] at told
    cases held : s.turn.object with
    | none =>
      rw [serve_absent held]
      refine ⟨?_,rfl⟩
      cases before : s.object with
      | none => rfl
      | some =>
        rw [turn_stored before] at held
        cases held
    | some =>
      rw [serve_stored held] at told
      cases left with
      | zero => cases told
      | succ => cases told

-- A put below the threshold between two requests.
def Single (content : Bytes) (program : Client (Except Fault Unit)) : Prop :=
  (∃ result, program = .done result) ∨ ∃ left, program = tries content left

theorem after_single (reply : Exchange) : Single content (after content left reply) := by
  cases reply with
  | cancelled => exact .inl ⟨_,rfl⟩
  | failed =>
    cases left with
    | zero => exact .inl ⟨_,rfl⟩
    | succ left => exact .inr ⟨left,rfl⟩
  | response resp =>
    cases left with
    | zero => exact .inl ⟨_,rfl⟩
    | succ left =>
      by_cases again : isRetryableStatus resp.status = true
      · exact .inr ⟨left,if_pos again⟩
      · exact .inl ⟨_,if_neg again⟩

theorem handler_single {size : Int} (small : content.length < b.multipartThreshold) :
    handler b (content,size) = .done (.error .sizeMismatch) ∨ ∃ left, handler b (content,size) = tries content left := by
  by_cases fits : size < 0 ∨ size = content.length
  · exact .inr ⟨_,put_small fits small⟩
  · refine .inl ?_
    rw [handler,Backend.put,if_pos (by dsimp only; omega)]

structure Sound (s : Race) : Prop extends Immutable s where
  single : ∀ place content size program, s.tasks place = some ((content,size),program) → Single content program

end

section
variable {b : Backend} {s : Race} {place other : Nat} {request : Bytes × Int} {content : Bytes}
  {program : Client (Except Fault Unit)}

theorem returned_before (unfinished : program ≠ .done (.ok ()))
    (returned : Returned ⟨state,Function.update s.tasks place (some (request,program)),log⟩ other content) :
    Returned s other content := by
  obtain ⟨size,there⟩ := returned
  rcases updated_task there with ⟨_,same⟩ | ⟨_,old⟩
  · cases same
    exact absurd rfl unfinished
  · exact ⟨size,old⟩

theorem tries_unfinished (content : Bytes) (left : Nat) : tries content left ≠ .done (.ok ()) := by
  rw [tries_call]
  intro same
  cases same

theorem single_updated (sound : Sound s) (single : Single request.1 program) (place : Nat) : ∀ other content size found,
      (⟨state,Function.update s.tasks place (some (request,program)),log⟩ : Race).tasks other = some ((content,size),found) →
        Single content found := by
  intro other content size found there
  rcases updated_task there with ⟨_,same⟩ | ⟨_,old⟩
  · cases same
    exact single
  · exact sound.single _ _ _ _ old

-- Nothing is returned in this step, and an object that is there stays.
theorem quiet_sound (sound : Sound s) (single : Single request.1 program) (unfinished : program ≠ .done (.ok ()))
    (keeps : ∀ o, s.state.object = some o → state.object = some o) (place : Nat) (log : List Call) :
    Sound ⟨state,Function.update s.tasks place (some (request,program)),log⟩ where
  once := by
    intro place other content rival first second
    exact sound.once _ _ _ _ (returned_before unfinished first) (returned_before unfinished second)
  kept := by
    intro place content returned
    exact keeps _ (sound.kept _ _ (returned_before unfinished returned))
  single := single_updated sound single place

theorem success_sound (sound : Sound s) (single : Single request.1 program) (absent : s.state.object = none)
    (stored : state.object = some ⟨false,request.1⟩) (place : Nat) (log : List Call) :
    Sound ⟨state,Function.update s.tasks place (some (request,program)),log⟩ := by
  have only : ∀ other content,
      Returned ⟨state,Function.update s.tasks place (some (request,program)),log⟩ other content →
        other = place ∧ content = request.1 := by
    intro other content returned
    obtain ⟨size,there⟩ := returned
    rcases updated_task there with ⟨here,same⟩ | ⟨_,old⟩
    · cases same
      exact ⟨here,rfl⟩
    · cases absent.symm.trans (sound.kept _ _ ⟨size,old⟩)
  refine ⟨⟨?_,?_⟩,single_updated sound single place⟩
  · intro first second content rival one two
    rw [(only _ _ one).1,(only _ _ two).1]
  · intro other content returned
    rw [(only _ _ returned).2]
    exact stored

theorem step_sound {contents : Bytes → Prop} (small : ∀ content, contents content → content.length < b.multipartThreshold)
    {move : Move (Bytes × Int) Call} {next : Race} (step : Step exec (handler b) s move next)
    (may : InPlay contents s move) (sound : Sound s) : Sound next := by
  cases step with
  | accept place request =>
    have below := small _ (may _ _ rfl)
    have keeps : ∀ o, s.state.object = some o → s.state.object = some o := fun _ same => same
    rcases @handler_single b request.1 request.2 below with refused | ⟨left,begun⟩
    · have program : handler b request = .done (.error .sizeMismatch) := refused
      rw [program]
      refine quiet_sound sound (.inl ⟨_,rfl⟩) ?_ keeps place s.log
      intro same
      cases same
    · have program : handler b request = tries request.1 left := begun
      rw [program]
      exact quiet_sound sound (.inr ⟨left,rfl⟩) (tries_unfinished _ _) keeps place s.log
  | perform place request _ _ turn =>
    rcases sound.single _ _ _ _ turn with ⟨_,done⟩ | ⟨left,program⟩
    · cases done
    rw [tries_call] at program
    cases program
    by_cases success : after request.1 left (exec (.put request.1) s.state).1 = .done (.ok ())
    · obtain ⟨absent,stored⟩ := success_stores success
      exact success_sound sound (after_single _) absent stored place _
    · exact quiet_sound sound (after_single _) success (fun _ held => exec_kept held) place _

theorem initial_sound (first : Server) : Sound (⟨first,fun _ => none,[]⟩ : Race) where
  once := by
    rintro place _ content _ ⟨_,there⟩
    cases there
  kept := by
    rintro place content ⟨_,there⟩
    cases there
  single := by
    intro place content size program there
    cases there

end

-- Every request is answered, and no one else writes.
def Calm (s : Server) : Prop := ∀ n, s.turns n = ⟨none,.answered⟩

section
variable {b : Backend} {s : Server}

theorem run_turns {α : Type} (program : Client α) (s : Server) : (program.run exec s).2.turns = s.turns := by
  induction program generalizing s with
  | done => rfl
  | call op _ ih => exact (ih _ _).trans (exec_turns op s)

theorem Calm.run {α : Type} (calm : Calm s) (program : Client α) : Calm (program.run exec s).2 := by
  unfold Calm
  rw [run_turns]
  exact calm

theorem Calm.turn (calm : Calm s) : s.turn = {s with sent := s.sent + 1} := by
  rw [Server.turn,calm s.sent]
  rfl

theorem serve_final (call : Call) (s : Server) : isRetryableStatus (serve call s).1.status = false := by
  unfold serve
  split
  · split <;> rfl
  · split <;> rfl
  · rfl
  · split <;> rfl
  · split
    · split <;> rfl
    · rfl
  · rfl

theorem Calm.request {α : Type} (calm : Calm s) (call : Call) (read : Response → Except Fault α) :
    (b.request call read).run exec s =
      (read (serve call {s with sent := s.sent + 1}).1,(serve call {s with sent := s.sent + 1}).2) := by
  have final := serve_final call {s with sent := s.sent + 1}
  have told : exec call s = (.response (serve call {s with sent := s.sent + 1}).1,
      (serve call {s with sent := s.sent + 1}).2) := by
    rw [exec,calm s.sent,calm.turn]
  have sent : ∀ left, (doAttempts call left).run exec s = (.ok (serve call {s with sent := s.sent + 1}).1,
      (serve call {s with sent := s.sent + 1}).2) := by
    intro left
    cases left with
    | zero =>
      rw [doAttempts,Program.run,told]
      rfl
    | succ =>
      rw [doAttempts,Program.run,told]
      dsimp only
      rw [if_neg (by rw [final]; decide)]
      rfl
  rw [Backend.request,Program.run_bind,sent]
  rfl

theorem Calm.exists_absent (calm : Calm s) (absent : s.object = none) :
    b.exists_.run exec s = (.ok false,{s with sent := s.sent + 1}) := by
  rw [Backend.exists_,calm.request]
  simp only [serve,absent,Option.isSome_none,Bool.false_eq_true,if_false,if_true]

def received (s : Server) (upload : Nat) (parts : List (Nat × Bytes)) : Server :=
  {s with sent := s.sent + 1,uploads := s.uploads.set upload (some parts)}

theorem Calm.uploadPart_ok (calm : Calm s) (kept : s.uploads[upload]? = some (some parts)) (number : Nat)
    (data : Bytes) :
    (b.uploadPart upload number data).run exec s = (.ok data,received s upload (parts ++ [(number,data)])) := by
  rw [Backend.uploadPart,calm.request]
  simp only [serve,kept]
  rfl

-- The parts that were sent are all there when the upload is completed.
theorem Calm.uploadParts_ok {upload left number : Nat} {rest : Bytes} {acc parts : List (Nat × Bytes)} (calm : Calm s)
    (kept : s.uploads[upload]? = some (some parts)) (listed : acc ⊆ parts) :
    ∃ all, ((b.uploadParts upload left number rest acc).run exec s).1 = .ok all ∧
      ∃ parts, ((b.uploadParts upload left number rest acc).run exec s).2.uploads[upload]? = some (some parts) ∧
        all ⊆ parts := by
  induction left generalizing s number rest acc parts with
  | zero => exact ⟨acc,rfl,parts,kept,listed⟩
  | succ _ ih =>
    have inside := (List.getElem?_eq_some_iff.1 kept).1
    rw [Backend.uploadParts,Program.run_bind,calm.uploadPart_ok kept]
    refine ih (s := received s upload _) calm (List.getElem?_set_self inside) ?_
    exact List.append_subset.mpr ⟨List.subset_append_of_subset_left _ listed,List.subset_append_right _ _⟩

theorem Calm.finish_ok (calm : Calm s) (kept : s.uploads[upload]? = some (some parts)) (held : listed ⊆ parts) :
    ((b.finish upload listed).run exec s).1 = .ok () := by
  rw [Backend.finish,Program.run_bind,Backend.completeMultipartUpload,calm.request]
  simp only [serve,kept,if_pos held]
  rfl

theorem Calm.upload_ok (calm : Calm s) (content : Bytes) : ((b.upload content).run exec s).1 = .ok () := by
  have created : b.createMultipartUpload.run exec s =
      (.ok s.uploads.length,{s with sent := s.sent + 1,uploads := s.uploads ++ [some []]}) := by
    rw [Backend.createMultipartUpload,calm.request]
    rfl
  have begun : Calm {s with sent := s.sent + 1,uploads := s.uploads ++ [some []]} := calm
  obtain ⟨_,sent,_,kept,held⟩ := @Calm.uploadParts_ok b {s with sent := s.sent + 1,uploads := s.uploads ++ [some []]}
    s.uploads.length (b.partCount content.length) 1 content [] [] begun List.getElem?_concat_length (List.nil_subset _)
  rw [Backend.upload,Program.run_bind,created]
  rw [Program.run_bind,sent]
  exact (begun.run _).finish_ok kept held

end

section
variable {b : Backend} {contents : Bytes → Prop} {content : Bytes}

def calmServer (sent : Nat) : Server := ⟨none,[],fun _ => ⟨none,.answered⟩,sent⟩

theorem calmServer_calm (sent : Nat) : Calm (calmServer sent) := fun _ => rfl

theorem performs_inPlay (s : Race) (place : Nat) (op : Call) : InPlay contents s (.perform place op) := by
  intro other request same
  cases same

section
variable {first state : Server} {tasks : List ((Bytes × Int) × Client (Except Fault Unit))} {log : List Call}
  {sent : Nat} {request : Bytes × Int}

theorem looks (place : Nat) (reached : Reached exec (handler b) (InPlay contents) first ⟨calmServer sent,row tasks,log⟩)
    (turn : tasks[place]? = some (request,b.exists_.bind (b.unlessFound content))) :
    ∃ log, Reached exec (handler b) (InPlay contents) first
      ⟨calmServer (sent+1),row (tasks.set place (request,b.upload content)),log⟩ := by
  obtain ⟨log,looked⟩ := reached.runs performs_inPlay b.exists_ turn
  rw [(calmServer_calm sent).exists_absent rfl] at looked
  exact ⟨log,looked⟩

theorem uploads (place : Nat) (reached : Reached exec (handler b) (InPlay contents) first ⟨state,row tasks,log⟩) (calm : Calm state)
    (turn : tasks[place]? = some (request,b.upload content)) : ∃ log, Reached exec (handler b) (InPlay contents) first
      ⟨((b.upload content).run exec state).2,row (tasks.set place (request,.done (.ok ()))),log⟩ := by
  rw [← Program.bind_done (b.upload content)] at turn
  obtain ⟨log,done⟩ := reached.runs performs_inPlay (b.upload content) turn
  rw [calm.upload_ok content] at done
  exact ⟨log,done⟩

end

-- Two puts that both look for the object before either completes its upload.
theorem multipart_both {other : Bytes} (chosen : contents content) (too : contents other)
    (large : b.multipartThreshold ≤ content.length) (wide : b.multipartThreshold ≤ other.length) :
    ∃ s, Reached exec (handler b) (InPlay contents) (calmServer 0) s ∧ Returned s 0 content ∧ Returned s 1 other ∧
      s.state = ((b.upload other).run exec ((b.upload content).run exec (calmServer 2)).2).2 := by
  have accepts : ∀ content, contents content → ∀ s place, InPlay contents s (.accept place (content,-1)) := by
    rintro content chosen _ _ other _ same
    cases same
    exact chosen
  have program : ∀ content : Bytes, b.multipartThreshold ≤ content.length →
      handler b (content,-1) = b.exists_.bind (b.unlessFound content) := by
    intro content large
    rw [handler,Backend.put,if_neg (by omega),if_pos large]
    rfl
  have accepted : Reached exec (handler b) (InPlay contents) (calmServer 0)
      ⟨calmServer 0,row [((content,-1),handler b (content,-1)),((other,-1),handler b (other,-1))],[]⟩ :=
    (Reached.none.accepts (content,-1) (accepts content chosen _ _)).accepts (other,-1) (accepts other too _ _)
  rw [program content large,program other wide] at accepted
  obtain ⟨_,one⟩ := looks 0 accepted rfl
  obtain ⟨_,both⟩ := looks 1 one rfl
  have calm := calmServer_calm 2
  obtain ⟨_,stored⟩ := uploads 0 both calm rfl
  obtain ⟨_,replaced⟩ := uploads 1 stored (calm.run _) rfl
  exact ⟨_,replaced,⟨-1,rfl⟩,⟨-1,rfl⟩,rfl⟩

theorem puts_immutable_iff_small (b : Backend) (contents : Bytes → Prop) :
    (∀ first s, Reached exec (handler b) (InPlay contents) first s → Immutable s) ↔
      ∀ content, contents content → content.length < b.multipartThreshold := by
  constructor
  · intro immutable content chosen
    by_contra large
    obtain ⟨s,reached,one,two,_⟩ := multipart_both chosen chosen (Nat.not_lt.mp large) (Nat.not_lt.mp large)
    exact absurd ((immutable _ _ reached).once _ _ _ _ one two) (by decide)
  · intro small first s reached
    exact (reached.invariant (initial_sound first) (fun _ _ _ step may sound => step_sound small step may sound)).toImmutable

end

theorem uploaded_object_replaced : ∃ s, Reached exec (handler (newBackend 1 0 0)) (InPlay fun _ => True) (calmServer 0) s ∧
    Returned s 0 [1] ∧ Returned s 1 [2] ∧ s.state.object = some ⟨false,[2]⟩ := by
  obtain ⟨s,reached,one,two,state⟩ := @multipart_both (newBackend 1 0 0) (fun _ => True) [1] [2] trivial trivial
    (by decide) (by decide)
  exact ⟨s,reached,one,two,by rw [state]; rfl⟩

end Kronos.S3Race
