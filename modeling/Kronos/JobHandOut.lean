import Kronos.JobProtocol

namespace Kronos.JobHandOut
open ByteRange Utf8 Rfc3339 JobRecords JobServer JobProtocol Interleaving

-- To how many claims a job was handed since it was last put in the queue.
def handed (id : Bytes) : List Op → Nat
  | .save job :: log =>
    if job.id = id then match job.status with
      | .queued => 0
      | .running => handed id log + 1
      | _ => handed id log
    else handed id log
  | _ :: log => handed id log
  | [] => 0

-- A claim reads a job only while no other request is about to start that job.
def Alone (s : JobSystem) : Move Request Op → Prop
  | .perform place (.get id) => ∀ request program, s.tasks place = some (request,program) → request.isClaim = true →
      ∀ other job, other ≠ place → Pending s other job → job.status = .running → job.id ≠ id
  | _ => True

structure Invariant (s : JobSystem) : Prop where
  orderly : Orderly s
  waiting : ∀ job ∈ s.state.jobs.rows, job.status = .queued → handed job.id s.log = 0
  fresh : ∀ place job, Pending s place job → job.status = .running → handed job.id s.log = 0
  alone : ∀ place other one job, Pending s place one → Pending s other job → one.status = .running → job.status = .running →
    one.id = job.id → place = other
  once : ∀ id, handed id s.log ≤ 1

section
variable {settings : Settings} {first : Stores} {s next : JobSystem} {move : Move Request Op} {place : Nat} {job : JobRecord}

theorem start_invariant (first : Stores) : Invariant ⟨first,fun _ => none,[]⟩ :=
  ⟨start_orderly first,fun _ _ _ => rfl,fun _ _ pending => absurd pending start_pending,
    fun _ _ _ _ pending => absurd pending start_pending,fun _ => Nat.zero_le 1⟩

theorem handed_saved (job : JobRecord) (log : List Op) : handed job.id (.save job :: log) = match job.status with
      | .queued => 0
      | .running => handed job.id log + 1
      | _ => handed job.id log := if_pos rfl

theorem handed_other {id : Bytes} (other : job.id ≠ id) (log : List Op) :
    handed id (.save job :: log) = handed id log := if_neg other

theorem handed_same {id : Bytes} (quiet : ∀ job, op ≠ .save job) (log : List Op) :
    handed id (op :: log) = handed id log := by
  cases op with
  | save job => exact absurd rfl (quiet job)
  | get | list | saveBackup | saveEvidence => rfl

-- A record that is about to be started was already so, or was just read as queued.
theorem starting (step : Step exec (handler settings) s move next) (may : Alone s move) (orderly : Orderly s)
    (pending : Pending next place job) (running : job.status = .running) : Pending s place job ∨
      ((∃ old ∈ s.state.jobs.rows, old.id = job.id ∧ old.status = .queued) ∧ move = .perform place (.get job.id) ∧
        ∀ other later, other ≠ place → Pending s other later → later.status = .running → later.id ≠ job.id) := by
  cases step_arrival step orderly pending with
  | kept before => exact Or.inl before
  | new _ _ _ same => exact nomatch same.status.symm.trans running
  | swept _ _ _ failed => exact nomatch failed.symm.trans running
  | read request program id old performed task found follows =>
    obtain ⟨stored,known⟩ := s.state.jobs.get_exact.1 found
    have same : job.id = id := follows.id.trans known
    obtain ⟨claims,queued⟩ := follows.start running
    subst same
    subst performed
    exact Or.inr ⟨⟨old,stored,known,queued⟩,rfl,may request program task claims⟩

theorem saved_preserves (step : Step exec (handler settings) s (.perform place (.save job)) next) (invariant : Invariant s)
    (pending : Pending s place job) (stored : next.state.jobs = s.state.jobs.put job)
    (logged : next.log = .save job :: s.log)
    (after : ∀ later, Pending next place later → active later.status = false) : Invariant next := by
  have before : ∀ {spot later}, Pending next spot later → later.status = .running → Pending s spot later := by
    intro spot later arriving running
    rcases starting step trivial invariant.orderly arriving running with kept | ⟨_,moved,_⟩
    · exact kept
    · cases moved
  refine ⟨step_orderly step invariant.orderly,?_,?_,?_,?_⟩
  · intro other member queued
    rw [stored] at member
    rw [logged]
    rcases s.state.jobs.mem_put.1 member with same | ⟨kept,apart⟩
    · subst same
      rw [handed_saved,queued]
    · rw [handed_other (Ne.symm apart)]
      exact invariant.waiting other kept queued
  · intro spot later arriving running
    have kept := before arriving running
    have none := invariant.fresh spot later kept running
    rw [logged]
    by_cases same : job.id = later.id
    · rw [← same,handed_saved]
      rw [← same] at none
      cases status : job.status with
      | running =>
        have here : place = spot := invariant.alone place spot job later pending kept status running same
        subst here
        have idle := after later arriving
        rw [running] at idle
        cases idle
      | queued => rfl
      | finalizing | succeeded | failed | canceled => exact none
    · rw [handed_other same]
      exact none
  · intro spot other one later first second started running same
    exact invariant.alone spot other one later (before first started) (before second running) started running same
  · intro id
    rw [logged]
    by_cases same : job.id = id
    · subst same
      have once := invariant.once job.id
      rw [handed_saved]
      cases status : job.status with
      | running =>
        rw [invariant.fresh place job pending status]
      | queued => exact Nat.zero_le 1
      | finalizing | succeeded | failed | canceled => exact once
    · rw [handed_other same]
      exact invariant.once id

theorem unsaved_preserves (step : Step exec (handler settings) s move next) (may : Alone s move) (invariant : Invariant s)
    (stored : next.state.jobs = s.state.jobs) (logged : ∀ id, handed id next.log = handed id s.log) : Invariant next := by
  refine ⟨step_orderly step invariant.orderly,?_,?_,?_,?_⟩
  · intro other member queued
    rw [stored] at member
    rw [logged]
    exact invariant.waiting other member queued
  · intro spot later arriving running
    rw [logged]
    rcases starting step may invariant.orderly arriving running with kept | ⟨⟨old,member,same,queued⟩,_,_⟩
    · exact invariant.fresh spot later kept running
    · rw [← same]
      exact invariant.waiting old member queued
  · intro spot other one later first second started running same
    rcases starting step may invariant.orderly first started with kept | ⟨_,moved,apart⟩
    · rcases starting step may invariant.orderly second running with keptToo | ⟨_,_,apart⟩
      · exact invariant.alone spot other one later kept keptToo started running same
      · by_contra different
        exact apart spot one different kept started same
    · rcases starting step may invariant.orderly second running with keptToo | ⟨_,movedToo,_⟩
      · by_contra different
        exact apart other later (Ne.symm different) keptToo running same.symm
      · rw [moved] at movedToo
        exact (Move.perform.inj movedToo).1
  · intro id
    rw [logged]
    exact invariant.once id

theorem step_preserves (step : Step exec (handler settings) s move next) (may : Alone s move) (invariant : Invariant s) :
    Invariant next := by
  rcases step_jobs step invariant.orderly with ⟨_,_,moved,pending,stored,logged,after⟩ | ⟨stored,logged⟩
  · subst moved
    exact saved_preserves step invariant pending stored logged (fun later arriving => (after later arriving).1)
  · refine unsaved_preserves step may invariant stored ?_
    intro id
    rcases logged with same | ⟨_,quiet,same⟩
    · rw [same]
    · rw [same,handed_same quiet]

-- In every run in which a claim reads a job only while no other request is about
-- to start it, a job that is put in the queue is handed out at most once.
theorem job_handed_once (reached : Reached exec (handler settings) Alone first s) (id : Bytes) : handed id s.log ≤ 1 :=
  (reached.invariant (start_invariant first) (fun _ _ _ => step_preserves)).once id

end

def WaitingReached (allowed : JobSystem → Move Request Op → Prop) (s : JobSystem) : Prop :=
  Reached exec (handler plainSettings) allowed waitingStores s

def bothListed : JobSystem :=
  ⟨waitingStores,row [(claimBy (ascii "a1") [],.call (.get waitingJob.id) (offer (ascii "a1") Time.zero)),
    (claimBy (ascii "a2") [],.call (.get waitingJob.id) (offer (ascii "a2") Time.zero))],[.list,.list]⟩

theorem both_listed {allowed : JobSystem → Move Request Op → Prop} (accept : ∀ s place request, allowed s (.accept place request))
    (list : ∀ s place, allowed s (.perform place .list)) : WaitingReached allowed bothListed := by
  have asked : WaitingReached allowed ⟨waitingStores,row [(claimBy (ascii "a1") [],choose (ascii "a1")),
      (claimBy (ascii "a2") [],choose (ascii "a2"))],[]⟩ :=
    (Reached.none.accepts (claimBy (ascii "a1") []) (accept _ _ _)).accepts (claimBy (ascii "a2") []) (accept _ _ _)
  have listed := performs_list asked 0 rfl (by decide) (@pick_found _ _ _ _ _ waitingJob rfl (by decide) rfl) (list _ _)
  exact performs_list listed 1 rfl (by decide) (@pick_found _ _ _ _ _ waitingJob rfl (by decide) rfl) (list _ _)

-- Both agents read the job as queued, then both start it.
theorem job_handed_twice : ∃ s, WaitingReached (fun _ _ => True) s ∧ handed waitingJob.id s.log = 2 := by
  have listed := @both_listed (fun _ _ => True) (fun _ _ _ => trivial) (fun _ _ => trivial)
  have read := (listed.performs 0 rfl trivial).performs 1 rfl trivial
  exact ⟨_,(read.performs 0 rfl trivial).performs 1 rfl trivial,rfl⟩

theorem waiting_job_handed : ∃ s, WaitingReached Alone s ∧ handed waitingJob.id s.log = 1 ∧
    ∀ id, handed id s.log ≤ 1 := by
  have listed : WaitingReached Alone bothListed := both_listed (fun _ _ _ => trivial) (fun _ _ => trivial)
  have read := listed.performs 0 rfl (fun _ _ _ _ _ _ _ pending => absurd pending (row_quiet
    (List.forall_mem_cons.2 ⟨quiet_get,List.forall_mem_singleton.2 quiet_get⟩)))
  have started := read.performs 0 rfl trivial
  have finished := started.performs 1 rfl (fun _ _ _ _ _ _ _ pending => absurd pending (row_quiet
    (List.forall_mem_cons.2 ⟨quiet_done,List.forall_mem_singleton.2 quiet_get⟩)))
  exact ⟨_,finished,rfl,job_handed_once finished⟩

end Kronos.JobHandOut
