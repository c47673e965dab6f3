import Kronos.ByteRange
import Kronos.Interleaving

namespace Kronos.S3Put
open ByteRange Interleaving

structure Response where
  status : Nat
  uploadID : Option Nat
  etag : Option Bytes

-- What client.Do gives for one attempt; an attempt is not made when the context has ended.
inductive Exchange
  | cancelled | failed | response (resp : Response)

inductive Fault
  | cancelled | transport | sizeMismatch | conflict | status (code : Nat) | missingUploadID | missingETag
  | uploadPart (number : Nat) (cause : Fault) (aborted : Option Fault) | complete (cause abort : Fault)

-- The requests for one key. The tag of a part stands for its bytes.
inductive Call
  | head | put (content : Bytes) | create | part (upload number : Nat) (data : Bytes)
  | complete (upload : Nat) (parts : List (Nat × Bytes)) | abort (upload : Nat)

abbrev Client (α : Type) := Program Call (fun _ => Exchange) α

structure Backend where
  multipartThreshold : Nat
  multipartPartSize : Nat
  maxAttempts : Int
  progress : 0 < multipartPartSize

def newBackend (threshold partSize maxAttempts : Int) : Backend where
  multipartThreshold := if threshold ≤ 0 then 64 * 1024 * 1024 else threshold.toNat
  multipartPartSize := if partSize ≤ 0 then 16 * 1024 * 1024 else partSize.toNat
  maxAttempts := if maxAttempts ≤ 0 then 5 else maxAttempts
  progress := by split <;> omega

def isRetryableStatus (status : Nat) : Bool :=
  status = 429 || status = 408 || status = 500 || status = 502 || status = 503 || status = 504

def doAttempts (call : Call) : Nat → Client (Except Fault Response)
  | 0 => .call call fun
    | .cancelled => .done (.error .cancelled)
    | .failed => .done (.error .transport)
    | .response resp => .done (.ok resp)
  | left+1 => .call call fun
    | .cancelled => .done (.error .cancelled)
    | .failed => doAttempts call left
    | .response resp => if isRetryableStatus resp.status then doAttempts call left else .done (.ok resp)

def expectStatus (resp : Response) (allowed : List Nat) : Except Fault Unit :=
  if resp.status ∈ allowed then .ok () else .error (.status resp.status)

def readPut (resp : Response) : Except Fault Unit :=
  if resp.status = 412 ∨ resp.status = 409 then .error .conflict else expectStatus resp [200,201,204]

namespace Backend
variable (b : Backend)

def attempts : Nat := if b.maxAttempts ≤ 0 then 1 else b.maxAttempts.toNat

-- do, with a reading of the response after it.
def request {α : Type} (call : Call) (read : Response → Except Fault α) : Client (Except Fault α) :=
  doAttempts call (b.attempts - 1) >>= fun answer => .done (answer.bind read)

def putSingle (content : Bytes) : Client (Except Fault Unit) := b.request (.put content) readPut

def exists_ : Client (Except Fault Bool) :=
  b.request .head fun resp => if resp.status = 404 then .ok false else (expectStatus resp [200]).map fun _ => true

def createMultipartUpload : Client (Except Fault Nat) :=
  b.request .create fun resp => do
    expectStatus resp [200,201]
    match resp.uploadID with
    | none => .error .missingUploadID
    | some upload => .ok upload

def uploadPart (upload number : Nat) (data : Bytes) : Client (Except Fault Bytes) :=
  b.request (.part upload number data) fun resp => do
    expectStatus resp [200]
    match resp.etag with
    | none => .error .missingETag
    | some etag => .ok etag

def completeMultipartUpload (upload : Nat) (parts : List (Nat × Bytes)) : Client (Except Fault Unit) :=
  b.request (.complete upload parts) fun resp => expectStatus resp [200,201]

def abortMultipartUpload (upload : Nat) : Client (Except Fault Unit) :=
  b.request (.abort upload) fun resp => expectStatus resp [200,204]

def uploadParts (upload : Nat) : Nat → Nat → Bytes → List (Nat × Bytes) → Client (Except Fault (List (Nat × Bytes)))
  | 0,_,_,parts => .done (.ok parts)
  | left+1,number,rest,parts =>
    b.uploadPart upload number (rest.take b.multipartPartSize) >>= fun
      | .error cause => b.abortMultipartUpload upload >>= fun
        | .error abort => .done (.error (.uploadPart number cause (some abort)))
        | .ok _ => .done (.error (.uploadPart number cause none))
      | .ok etag => uploadParts upload left (number + 1) (rest.drop b.multipartPartSize) (parts ++ [(number,etag)])

def finish (upload : Nat) (parts : List (Nat × Bytes)) : Client (Except Fault Unit) :=
  b.completeMultipartUpload upload parts >>= fun
    | .ok _ => .done (.ok ())
    | .error cause => b.abortMultipartUpload upload >>= fun
      | .error abort => .done (.error (.complete cause abort))
      | .ok _ => .done (.error cause)

def partCount (size : Nat) : Nat := (size + b.multipartPartSize - 1) / b.multipartPartSize

def upload (content : Bytes) : Client (Except Fault Unit) :=
  b.createMultipartUpload >>= fun
    | .error e => .done (.error e)
    | .ok upload => b.uploadParts upload (b.partCount content.length) 1 content [] >>= fun
      | .error e => .done (.error e)
      | .ok parts => b.finish upload parts

def unlessFound (content : Bytes) : Except Fault Bool → Client (Except Fault Unit)
  | .error e => .done (.error e)
  | .ok true => .done (.error .conflict)
  | .ok false => b.upload content

def putMultipart (content : Bytes) : Client (Except Fault Unit) := b.exists_ >>= b.unlessFound content

def put (content : Bytes) (size : Int) : Client (Except Fault Unit) :=
  if 0 ≤ size ∧ content.length ≠ size then .done (.error .sizeMismatch)
  else if b.multipartThreshold ≤ content.length then b.putMultipart content
  else b.putSingle content

end Backend

-- An object, and whether a writer outside of the requests modelled here stored it.
structure Stored where
  rival : Bool
  content : Bytes
  deriving DecidableEq

inductive Mask
  | transport | status (code : Nat) (retryable : isRetryableStatus code = true)

-- What becomes of an attempt: a masked one may have been applied all the same.
inductive Fate
  | cancelled | masked (applied : Bool) (mask : Mask) | answered

structure Turn where
  rival : Option Bytes
  fate : Fate

structure Server where
  object : Option Stored
  uploads : List (Option (List (Nat × Bytes)))
  turns : Nat → Turn
  sent : Nat

def Mask.exchange : Mask → Exchange
  | .transport => .failed
  | .status code _ => .response ⟨code,none,none⟩

namespace Server

-- A server that honours If-None-Match on a put; a completed upload replaces the object.
def serve : Call → Server → Response × Server
  | .head,s => (⟨if s.object.isSome then 200 else 404,none,none⟩,s)
  | .put content,s =>
    match s.object with
    | none => (⟨200,none,none⟩,{s with object := some ⟨false,content⟩})
    | some _ => (⟨412,none,none⟩,s)
  | .create,s => (⟨200,some s.uploads.length,none⟩,{s with uploads := s.uploads ++ [some []]})
  | .part upload number data,s =>
    match s.uploads[upload]? with
    | some (some parts) =>
      (⟨200,none,some data⟩,{s with uploads := s.uploads.set upload (some (parts ++ [(number,data)]))})
    | _ => (⟨404,none,none⟩,s)
  | .complete upload listed,s =>
    match s.uploads[upload]? with
    | some (some parts) =>
      if listed ⊆ parts then
        (⟨200,none,none⟩,{s with object := some ⟨false,listed.flatMap Prod.snd⟩,uploads := s.uploads.set upload none})
      else (⟨400,none,none⟩,s)
    | _ => (⟨404,none,none⟩,s)
  | .abort upload,s => (⟨204,none,none⟩,{s with uploads := s.uploads.set upload none})

def visited (s : Server) : Option Bytes → Server
  | none => s
  | some content => {s with object := s.object.or (some ⟨true,content⟩)}

def turn (s : Server) : Server := ({s with sent := s.sent + 1}).visited (s.turns s.sent).rival

def exec (call : Call) (s : Server) : Exchange × Server :=
  match (s.turns s.sent).fate with
  | .cancelled => (.cancelled,s.turn)
  | .masked applied mask => (mask.exchange,if applied then (serve call s.turn).2 else s.turn)
  | .answered => (.response (serve call s.turn).1,(serve call s.turn).2)

end Server

open Server

-- An attempt that is answered, after attempts that were not.
inductive Answered (turns : Nat → Turn) : Nat → Nat → Prop
  | now {n left : Nat} : (turns n).fate = .answered → Answered turns n left
  | later {n left : Nat} {applied : Bool} {mask : Mask} : (turns n).fate = .masked applied mask →
      Answered turns (n+1) left → Answered turns n (left+1)

-- An attempt that stored the object without an answer that says so, and a later one that is answered.
inductive Echo (turns : Nat → Turn) : Nat → Nat → Prop
  | stored {n left : Nat} {mask : Mask} : (turns n).rival = none → (turns n).fate = .masked true mask →
      Answered turns (n+1) left → Echo turns n (left+1)
  | later {n left : Nat} {applied : Bool} {mask : Mask} : (turns n).rival = none →
      (turns n).fate = .masked applied mask → Echo turns (n+1) left → Echo turns n (left+1)

section
variable {s : Server} {content : Bytes} {left : Nat}

def tries (content : Bytes) (left : Nat) : Client (Except Fault Unit) :=
  doAttempts (.put content) left >>= fun answer => .done (answer.bind readPut)

-- After one attempt: the attempts that are left, or what the put returns.
def after (content : Bytes) (left : Nat) (reply : Exchange) : Client (Except Fault Unit) :=
  match reply,left with
  | .cancelled,_ => .done (.error .cancelled)
  | .failed,0 => .done (.error .transport)
  | .failed,left+1 => tries content left
  | .response resp,0 => .done (readPut resp)
  | .response resp,left+1 => if isRetryableStatus resp.status then tries content left else .done (readPut resp)

theorem tries_call (content : Bytes) (left : Nat) : tries content left = .call (.put content) (after content left) := by
  cases left with
  | zero =>
    refine congrArg (Program.call _) (funext fun reply => ?_)
    cases reply <;> rfl
  | succ =>
    refine congrArg (Program.call _) (funext fun reply => ?_)
    cases reply with
    | cancelled => rfl
    | failed => rfl
    | response =>
      simp only [after]
      split
      · rfl
      · rfl

theorem tries_run (content : Bytes) (left : Nat) (s : Server) : Program.run exec (tries content left) s =
    Program.run exec (after content left (exec (.put content) s).1) (exec (.put content) s).2 := by
  rw [tries_call]
  rfl

theorem masked_again {mask : Mask} : after content (left+1) mask.exchange = tries content left := by
  cases mask with
  | transport => rfl
  | status _ retryable => exact if_pos retryable

theorem retryable_read (retryable : isRetryableStatus code = true) :
    readPut ⟨code,none,none⟩ = .error (.status code) := by
  have other : ∀ code ∈ [200,201,204,409,412], isRetryableStatus code = false := by decide
  have apart : ∀ final ∈ [200,201,204,409,412], code ≠ final := by
    rintro _ member rfl
    rw [other code member] at retryable
    cases retryable
  simp [readPut,expectStatus,apart]

theorem masked_last {mask : Mask} : ∃ e, after content 0 mask.exchange = .done (.error e) ∧ e ≠ .conflict := by
  cases mask with
  | transport => exact ⟨.transport,rfl,fun same => by cases same⟩
  | status code retryable =>
    refine ⟨.status code,?_,fun same => by cases same⟩
    exact congrArg Program.done (retryable_read retryable)

theorem turn_turns (s : Server) : s.turn.turns = s.turns ∧ s.turn.sent = s.sent + 1 := by
  unfold turn
  cases (s.turns s.sent).rival <;> exact ⟨rfl,rfl⟩

theorem serve_turns (call : Call) (s : Server) : (serve call s).2.turns = s.turns ∧ (serve call s).2.sent = s.sent := by
  unfold serve
  split
  · exact ⟨rfl,rfl⟩
  · split <;> exact ⟨rfl,rfl⟩
  · exact ⟨rfl,rfl⟩
  · split <;> exact ⟨rfl,rfl⟩
  · split
    · split <;> exact ⟨rfl,rfl⟩
    · exact ⟨rfl,rfl⟩
  · exact ⟨rfl,rfl⟩

theorem exec_turns (call : Call) (s : Server) : (exec call s).2.turns = s.turns := by
  have turns := (turn_turns s).1
  have served := (serve_turns call s.turn).1.trans turns
  unfold exec
  split
  · exact turns
  · split
    · exact served
    · exact turns
  · exact served

theorem turn_stored (held : s.object = some o) : s.turn.object = some o := by
  unfold turn
  cases (s.turns s.sent).rival with
  | none => exact held
  | some => simp only [visited,held,Option.some_or]

theorem turn_visited (absent : s.object = none) (came : (s.turns s.sent).rival = some other) :
    s.turn.object = some ⟨true,other⟩ := by
  simp only [turn,came,visited,absent,Option.none_or]

theorem turn_alone (absent : s.object = none) (alone : (s.turns s.sent).rival = none) : s.turn.object = none := by
  simp only [turn,alone,visited,absent]

theorem serve_stored (held : s.object = some o) : serve (.put content) s = (⟨412,none,none⟩,s) := by
  simp only [serve,held]

theorem serve_absent (absent : s.object = none) :
    serve (.put content) s = (⟨200,none,none⟩,{s with object := some ⟨false,content⟩}) := by
  simp only [serve,absent]

theorem cancelled_run (cancelled : (s.turns s.sent).fate = .cancelled) :
    Program.run exec (tries content left) s = (.error .cancelled,s.turn) := by
  rw [tries_run]
  unfold exec
  rw [cancelled]
  rfl

theorem answered_run (answered : (s.turns s.sent).fate = .answered) : Program.run exec (tries content left) s =
      (readPut (serve (.put content) s.turn).1,(serve (.put content) s.turn).2) := by
  have final : isRetryableStatus (serve (.put content) s.turn).1.status = false := by
    cases held : s.turn.object with
    | none =>
      rw [serve_absent held]
      rfl
    | some =>
      rw [serve_stored held]
      rfl
  rw [tries_run]
  unfold exec
  rw [answered]
  cases left with
  | zero => rfl
  | succ =>
    dsimp only [after]
    rw [final]
    rfl

-- What the server holds after an attempt that was not answered.
def unanswered (content : Bytes) (s : Server) (applied : Bool) : Server :=
  if applied then (serve (.put content) s.turn).2 else s.turn

theorem masked_exec (masked : (s.turns s.sent).fate = .masked applied mask) :
    exec (.put content) s = (mask.exchange,unanswered content s applied) := by
  rw [exec,masked]
  rfl

theorem masked_run (masked : (s.turns s.sent).fate = .masked applied mask) :
    Program.run exec (tries content (left+1)) s = Program.run exec (tries content left) (unanswered content s applied) := by
  rw [tries_run,masked_exec masked,masked_again]

theorem masked_end {applied : Bool} {mask : Mask} (masked : (s.turns s.sent).fate = .masked applied mask) :
    ∃ e, Program.run exec (tries content 0) s = (.error e,unanswered content s applied) ∧ e ≠ .conflict := by
  obtain ⟨e,ended,other⟩ := @masked_last content mask
  refine ⟨e,?_,other⟩
  rw [tries_run,masked_exec masked,ended]
  rfl

theorem unanswered_turns {applied : Bool} : (unanswered content s applied).turns = s.turns ∧
    (unanswered content s applied).sent = s.sent + 1 := by
  obtain ⟨turns,sent⟩ := turn_turns s
  obtain ⟨same,made⟩ := serve_turns (.put content) s.turn
  unfold unanswered
  split
  · exact ⟨same.trans turns,made.trans sent⟩
  · exact ⟨turns,sent⟩

section
variable {turns : Nat → Turn} {n : Nat} {applied : Bool} {mask : Mask}

theorem unanswered_cancelled (cancelled : (turns n).fate = .cancelled) : ¬ Answered turns n left := by
  intro answered
  cases answered with
  | now fate | later fate => rw [cancelled] at fate; cases fate

theorem unanswered_last (masked : (turns n).fate = .masked applied mask) : ¬ Answered turns n 0 := by
  intro answered
  cases answered with
  | now fate => rw [masked] at fate; cases fate

theorem answered_masked (masked : (turns n).fate = .masked applied mask) :
    Answered turns n (left+1) ↔ Answered turns (n+1) left := by
  constructor
  · intro answered
    cases answered with
    | now fate => rw [masked] at fate; cases fate
    | later _ rest => exact rest
  · exact .later masked

theorem Echo.answered (echo : Echo turns n left) : Answered turns n left := by
  induction echo with
  | stored _ masked answered => exact .later masked answered
  | later _ masked _ ih => exact .later masked ih

theorem Echo.alone (echo : Echo turns n left) : (turns n).rival = none := by
  cases echo with
  | stored alone | later alone => exact alone

theorem not_echo_answered (answered : (turns n).fate = .answered) : ¬ Echo turns n left := by
  intro echo
  cases echo with
  | stored _ masked | later _ masked => rw [answered] at masked; cases masked

theorem echo_masked (alone : (turns n).rival = none) (masked : (turns n).fate = .masked applied mask) :
    Echo turns n (left+1) ↔ (applied = true ∧ Answered turns (n+1) left) ∨ Echo turns (n+1) left := by
  constructor
  · intro echo
    cases echo with
    | stored _ fate answered =>
      rw [masked] at fate
      cases fate
      exact .inl ⟨rfl,answered⟩
    | later _ _ rest => exact .inr rest
  · rintro (⟨rfl,answered⟩ | rest)
    · exact .stored alone masked answered
    · exact .later alone masked rest

end

theorem unanswered_stored {o : Stored} {applied : Bool} (held : s.turn.object = some o) :
    (unanswered content s applied).object = some o := by
  unfold unanswered
  split
  · rw [serve_stored held]
    exact held
  · exact held

-- A put that finds the key taken is a conflict as soon as it is answered.
theorem stored_run (left : Nat) {s : Server} {o : Stored} (held : s.turn.object = some o) :
    (Program.run exec (tries content left) s).2.object = some o ∧
      ((Program.run exec (tries content left) s).1 = .error .conflict ↔ Answered s.turns s.sent left) := by
  cases fate : (s.turns s.sent).fate with
  | cancelled =>
    rw [cancelled_run fate]
    exact ⟨held,fun told => (by cases told),fun answered => absurd answered (unanswered_cancelled fate)⟩
  | answered =>
    rw [answered_run fate,serve_stored held]
    exact ⟨held,fun _ => .now fate,fun _ => rfl⟩
  | masked applied mask =>
    have kept := @unanswered_stored s content o applied held
    cases left with
    | zero =>
      obtain ⟨_,ran,other⟩ := @masked_end s content applied mask fate
      rw [ran]
      refine ⟨kept,?_,fun answered => absurd answered (unanswered_last fate)⟩
      intro told
      cases told
      exact absurd rfl other
    | succ left =>
      obtain ⟨same,told⟩ := stored_run left (turn_stored kept)
      obtain ⟨turns,sent⟩ := @unanswered_turns s content applied
      rw [turns,sent] at told
      rw [masked_run fate,answered_masked fate]
      exact ⟨same,told⟩
termination_by left

-- What a put says, against what the server did.
structure Honest (content : Bytes) (turns : Nat → Turn) (n left : Nat) (done : Except Fault Unit × Server) : Prop where
  landed : Answered turns n left → done.2.object = some ⟨false,content⟩ → done.1 = .ok ()
  taken : done.1 = .error .conflict → ∃ other, done.2.object = some ⟨true,other⟩

theorem tries_honest_iff (left : Nat) {s : Server} (absent : s.object = none) :
    Honest content s.turns s.sent left (Program.run exec (tries content left) s) ↔ ¬ Echo s.turns s.sent left := by
  cases came : (s.turns s.sent).rival with
  | some other =>
    obtain ⟨kept,_⟩ := @stored_run content left s _ (turn_visited absent came)
    have fair : ¬ Echo s.turns s.sent left := by
      intro echo
      rw [echo.alone] at came
      cases came
    refine (iff_true_right fair).mpr ⟨?_,fun _ => ⟨other,kept⟩⟩
    intro _ own
    rw [kept] at own
    cases own
  | none =>
    have empty := turn_alone absent came
    cases fate : (s.turns s.sent).fate with
    | cancelled =>
      have never := @unanswered_cancelled left _ _ fate
      rw [cancelled_run fate]
      refine (iff_true_right (fun echo => never echo.answered)).mpr ⟨?_,fun told => by cases told⟩
      intro answered
      exact absurd answered never
    | answered =>
      rw [answered_run fate,serve_absent empty]
      exact (iff_true_right (not_echo_answered fate)).mpr ⟨fun _ _ => rfl,fun told => by cases told⟩
    | masked applied mask =>
      cases left with
      | zero =>
        obtain ⟨_,ran,other⟩ := @masked_end s content applied mask fate
        have never := unanswered_last fate
        rw [ran]
        refine (iff_true_right (fun echo => never echo.answered)).mpr ⟨fun answered => absurd answered never,?_⟩
        intro told
        cases told
        exact absurd rfl other
      | succ left =>
        obtain ⟨turns,sent⟩ := @unanswered_turns s content applied
        rw [masked_run fate,echo_masked came fate]
        cases applied with
        | false =>
          have rest := tries_honest_iff left (s := unanswered content s false) empty
          rw [turns,sent] at rest
          simp only [Bool.false_eq_true,false_and,false_or]
          refine Iff.trans ?_ rest
          constructor
          · intro honest
            exact ⟨fun answered => honest.landed ((answered_masked fate).mpr answered),honest.taken⟩
          · intro honest
            exact ⟨fun answered => honest.landed ((answered_masked fate).mp answered),honest.taken⟩
        | true =>
          -- The object is this put's own by now, so an answer can only be a conflict.
          have own : (unanswered content s true).object = some ⟨false,content⟩ := by
            unfold unanswered
            rw [if_pos rfl,serve_absent empty]
          obtain ⟨kept,told⟩ := @stored_run content left _ _ (turn_stored own)
          rw [turns,sent] at told
          constructor
          · intro honest echo
            have answered : Answered s.turns (s.sent+1) left := by
              rcases echo with ⟨_,answered⟩ | rest
              · exact answered
              · exact rest.answered
            have success := honest.landed ((answered_masked fate).mpr answered) kept
            rw [told.mpr answered] at success
            cases success
          · intro fair
            have never : ¬ Answered s.turns (s.sent+1) left := fun answered => fair (.inl ⟨rfl,answered⟩)
            refine ⟨fun answered => absurd ((answered_masked fate).mp answered) never,?_⟩
            intro conflict
            exact absurd (told.mp conflict) never
termination_by left

theorem put_small {b : Backend} {size : Int} (fits : size < 0 ∨ size = content.length)
    (small : content.length < b.multipartThreshold) : b.put content size = tries content (b.attempts - 1) := by
  rw [Backend.put,if_neg (by omega),if_neg (by omega)]
  rfl

theorem put_honest_iff {b : Backend} {size : Int} (fits : size < 0 ∨ size = content.length)
    (small : content.length < b.multipartThreshold) (absent : s.object = none) :
    Honest content s.turns s.sent (b.attempts - 1) (Program.run exec (b.put content size) s) ↔
      ¬ Echo s.turns s.sent (b.attempts - 1) := by
  rw [put_small fits small]
  exact tries_honest_iff _ absent

end

-- The first attempt gets no answer, the others do.
def lossy (applied : Bool) : Server where
  object := none
  uploads := []
  turns := fun n => ⟨none,if n = 0 then .masked applied .transport else .answered⟩
  sent := 0

theorem unapplied_loss_told : Honest [7] (lossy false).turns 0 4
    (Program.run exec ((newBackend 0 0 0).put [7] 1) (lossy false)) := by
  have small : ([7] : Bytes).length < (newBackend 0 0 0).multipartThreshold := by decide
  refine (put_honest_iff (.inr rfl) small rfl).mpr ?_
  intro echo
  cases echo with
  | stored _ masked => cases masked
  | later _ _ rest => exact not_echo_answered rfl rest

theorem applied_loss_reported_conflict :
    (Program.run exec ((newBackend 0 0 0).put [7] 1) (lossy true)).1 = .error .conflict ∧
      (Program.run exec ((newBackend 0 0 0).put [7] 1) (lossy true)).2.object = some ⟨false,[7]⟩ := ⟨rfl,rfl⟩

end Kronos.S3Put
