import Kronos.JobAttempts

namespace Kronos.LostAgents
open ByteRange Utf8 Strings Rfc3339 RecordTable Agents JobRecords JobServer JobProtocol FinishJob JobAttempts
open Interleaving Program

structure Worker where
  heartbeat : AgentHeartbeat
  pollInterval : Int
  maxJobsPerTick : Int

namespace Worker

def interval (w : Worker) : Int := if w.pollInterval ≤ 0 then 5 * 1000000000 else w.pollInterval

def limit (w : Worker) : Nat := if w.maxJobsPerTick ≤ 0 then 1 else w.maxJobsPerTick.toNat

end Worker

-- Where a worker stands in its loop. The execution of a job ends at an instant.
inductive Phase
  | waiting | claiming (left : Nat) | executing (job : JobRecord) (ends : Int) (left : Nat)

-- The ticker is made after the first tick.
structure Runner where
  worker : Worker
  phase : Phase
  due : Option Int

namespace Runner

def rest (r : Runner) (clock : Int) : Runner :=
  {r with phase := .waiting,due := some (r.due.getD (clock + r.worker.interval))}

def proceed (r : Runner) (clock : Int) (left : Nat) : Runner :=
  if left = 0 then r.rest clock else {r with phase := .claiming left}

-- Ticks that came while the last one was not yet taken are dropped.
def ticked (r : Runner) (clock : Int) : Runner :=
  {r with
    phase := .claiming r.worker.limit
    due := r.due.map (fun due => due + r.worker.interval * ((clock - due) / r.worker.interval + 1))}

end Runner

structure World where
  clock : Int
  registry : AgentRegistry
  stores : Stores
  runners : Nat → Option Runner

namespace World

def now (w : World) : Time := ⟨w.clock,0⟩

def agents (w : World) : List AgentSnapshot := list w.registry w.now

def put (w : World) (place : Nat) (runner : Runner) : World :=
  {w with runners := Function.update w.runners place (some runner)}

end World

-- The client sends the trimmed ID.
def claimOf (w : World) (r : Runner) : Request :=
  .claim (trimSpace r.worker.heartbeat.id) w.agents w.now w.agents w.now

inductive Move
  | pass (clock : Int) | tick (place : Nat) | claim (place : Nat) (duration : Int)
  | finish (place : Nat) (request : FinishRequest) | sweep | submit (job : JobRecord) (parentID : Bytes)

section
variable (settings : Settings)

def after (request : Request) (w : World) : Stores := (run exec (handler settings request) w.stores).2

def response (request : Request) (w : World) : Response := (run exec (handler settings request) w.stores).1

inductive Step (w : World) : Move → World → Prop
  | pass (clock : Int) (later : w.clock ≤ clock)
      (before : ∀ place r job ends left, w.runners place = some r → r.phase = .executing job ends left → clock ≤ ends) :
      Step w (.pass clock) {w with clock := clock}
  | tick (place : Nat) (r : Runner) (there : w.runners place = some r) (waits : r.phase = .waiting)
      (fires : ∀ due, r.due = some due → due ≤ w.clock) :
      Step w (.tick place) {w.put place (r.ticked w.clock) with registry := heartbeat w.registry r.worker.heartbeat w.now}
  | nothing (place : Nat) (duration : Int) (r : Runner) (left : Nat) (there : w.runners place = some r)
      (claims : r.phase = .claiming left) (empty : response settings (claimOf w r) w = .claimed none) :
      Step w (.claim place duration) {w.put place (r.rest w.clock) with stores := after settings (claimOf w r) w}
  | claim (place : Nat) (duration : Int) (r : Runner) (left : Nat) (job : JobRecord) (there : w.runners place = some r)
      (claims : r.phase = .claiming left) (takes : 0 ≤ duration)
      (given : response settings (claimOf w r) w = .claimed (some job)) :
      Step w (.claim place duration) {w.put place {r with phase := .executing job (w.clock + duration) (left - 1)} with
        stores := after settings (claimOf w r) w}
  | finish (place : Nat) (request : FinishRequest) (r : Runner) (job answer : JobRecord) (left : Nat)
      (there : w.runners place = some r) (executes : r.phase = .executing job w.clock left)
      (ended : response settings (.finish (trimSpace r.worker.heartbeat.id) job.id (some request) w.now) w = .job answer) :
      Step w (.finish place request) {w.put place (r.proceed w.clock left) with
        stores := after settings (.finish (trimSpace r.worker.heartbeat.id) job.id (some request) w.now) w}
  | sweep : Step w .sweep {w with stores := after settings (.sweep w.agents w.now) w}
  | submit (job : JobRecord) (parentID : Bytes) (fresh : w.stores.jobs.get job.id = none) :
      Step w (.submit job parentID) {w with stores := after settings (.enqueue job parentID) w}

def start (degradedAfter clock : Int) (stores : Stores) (fleet : Nat → Option Worker) : World :=
  ⟨clock,newAgentRegistry degradedAfter,stores,fun place => (fleet place).map (fun worker => ⟨worker,.waiting,none⟩)⟩

inductive Reached (allowed : World → Move → Prop) (first : World) : World → Prop
  | start : Reached allowed first first
  | step {w next : World} {move : Move} (before : Reached allowed first w) (step : Step settings w move next)
      (may : allowed w move) : Reached allowed first next

end

-- A job is done, counted from the last heartbeat of its worker, before that heartbeat is too
-- old; heartbeats carry no time of their own, and the ID of the worker has no space around it.
def Brief (w : World) : Move → Prop
  | .tick place => ∀ r, w.runners place = some r → r.worker.heartbeat.now.isZero = true
  | .claim place duration => ∀ r, w.runners place = some r →
      trimSpace r.worker.heartbeat.id = r.worker.heartbeat.id ∧
      ∃ agent, w.registry.agents.get r.worker.heartbeat.id = some agent ∧
        w.clock + duration - agent.lastHeartbeat.instant ≤ w.registry.degradedAfter
  | _ => True

-- A job that a worker executes is stored as running on it, and the execution ends before
-- the last heartbeat of the worker is too old.
structure Covered (w : World) (r : Runner) (job : JobRecord) (ends : Int) : Prop where
  ahead : w.clock ≤ ends
  stored : ∃ row, w.stores.jobs.get job.id = some row ∧ row.status = .running ∧ row.agentID = r.worker.heartbeat.id
  beats : ∃ agent, w.registry.agents.get r.worker.heartbeat.id = some agent ∧
    ends - agent.lastHeartbeat.instant ≤ w.registry.degradedAfter

structure Invariant (w : World) : Prop where
  positive : 0 ≤ w.registry.degradedAfter
  past : ∀ agent ∈ w.registry.agents.rows, agent.lastHeartbeat.instant ≤ w.clock
  covered : ∀ place r job ends left, w.runners place = some r → r.phase = .executing job ends left → Covered w r job ends
  apart : ∀ place other r runner job later ends stops left more, w.runners place = some r → w.runners other = some runner →
    r.phase = .executing job ends left → runner.phase = .executing later stops more → job.id = later.id → place = other

section
variable {settings : Settings} {w next : World} {move : Move} {job : JobRecord} {s : Stores} {id : Bytes}

theorem failEach_others (others : ∀ job ∈ jobs, job.id ≠ id) :
    (run exec (failEach now jobs) s).2.jobs.get id = s.jobs.get id := by
  induction jobs generalizing s with
  | nil => rfl
  | cons first rest ih =>
    have here := List.forall_mem_cons.1 others
    change (run exec (failEach now rest >>= _) {s with jobs := s.jobs.put (ended .failed (ascii "agent_lost") now first)}).2.jobs.get id = _
    rw [run_bind]
    refine (ih here.2).trans ?_
    change (s.jobs.put (ended .failed (ascii "agent_lost") now first)).get id = _
    rw [Table.get_put]
    exact if_neg (Ne.symm here.1)

theorem sweep_kept {agents : List AgentSnapshot} {now : Time} (stored : s.jobs.get id = some job)
    (alive : job.agentID ∉ lostAgents agents) : (run exec (sweep agents now) s).2.jobs.get id = some job := by
  rw [sweep_stores,← stored]
  unfold failLostAgentJobs
  split
  · rfl
  · refine failEach_others ?_
    intro row listed known
    have chosen := List.mem_filter.1 listed
    have same := s.jobs.get_exact.2 ⟨List.mem_mergeSort.1 chosen.1,known⟩
    rw [stored] at same
    cases same
    have lost := chosen.2
    simp only [isLost,Bool.and_eq_true,decide_eq_true_eq] at lost
    exact alive lost.1.2

theorem beating_alive (positive : 0 ≤ r.degradedAfter) (known : r.agents.get id = some agent)
    (young : now.instant - agent.lastHeartbeat.instant ≤ r.degradedAfter) : id ∉ lostAgents (list r now) := by
  intro lost
  obtain ⟨shown,degraded,same⟩ := List.mem_map.1 lost
  obtain ⟨listed,status⟩ := List.mem_filter.1 degraded
  obtain ⟨found,member,shows⟩ := List.mem_map.1 listed
  subst shows
  have unique := r.agents.get_exact.2 ⟨member,same⟩
  rw [known] at unique
  cases unique
  have late : statusAt r agent.lastHeartbeat now = .degraded := of_decide_eq_true status
  unfold statusAt since at late
  split at late
  · rename_i exceeded
    unfold maxDuration at exceeded
    omega
  · cases late

-- An executed job stands as running, for an agent that is not lost.
theorem executing_stored (invariant : Invariant w) (there : w.runners place = some r)
    (executes : r.phase = .executing job ends left) :
    ∃ row, w.stores.jobs.get job.id = some row ∧ row.status = .running ∧ row.agentID ∉ lostAgents w.agents := by
  have covered := invariant.covered place r job ends left there executes
  obtain ⟨row,stored,running,agent⟩ := covered.stored
  obtain ⟨_,known,_⟩ := covered.beats
  have ahead := covered.ahead
  refine ⟨row,stored,running,agent ▸ beating_alive invariant.positive known ?_⟩
  change w.clock - _ ≤ _
  omega

theorem claim_kept (stored : s.jobs.get id = some job) (running : job.status = .running)
    (alive : job.agentID ∉ lostAgents agents) :
    (run exec (handleClaimJob settings header agents now agents now) s).2.jobs.get id = some job := by
  have swept := @sweep_kept job s id agents now stored alive
  obtain ⟨answer,after,ran,outcome⟩ := @claim_run settings header agents now agents now s
  rw [ran]
  rcases outcome with ⟨_,same⟩ | ⟨started,_,queued,found,same⟩
  · rw [same]
    exact swept
  · change after.jobs.get id = _
    rw [same,Table.get_put]
    split
    · rename_i known
      change id = started.id at known
      rw [known,found] at swept
      cases swept
      exact nomatch queued.symm.trans running
    · exact swept

theorem enqueue_others (different : id ≠ new.id) :
    (run exec (enqueue new parentID) s).2.jobs.get id = s.jobs.get id := by
  have put : ∀ table : JobTable, ∀ job : JobRecord, job.id = new.id → (table.put job).get id = table.get id := by
    intro table job same
    rw [Table.get_put,if_neg (fun known => different (known.trans same))]
  unfold enqueue
  split
  · exact put s.jobs (newJob new) rfl
  · exact (put (s.jobs.put (newJob new)) {newJob new with parentBackupID := parentID} rfl).trans (put s.jobs (newJob new) rfl)

theorem step_kept (step : Step settings w move next) (invariant : Invariant w) (there : w.runners place = some r)
    (executes : r.phase = .executing job ends left) (unreported : ∀ request, move ≠ .finish place request) :
    next.runners place = some r ∧ next.stores.jobs.get job.id = w.stores.jobs.get job.id := by
  obtain ⟨_,stored,running,alive⟩ := executing_stored invariant there executes
  have moved : ∀ other runner phase, w.runners other = some runner → runner.phase = phase →
      (∀ job ends left, phase ≠ .executing job ends left) → ∀ new, (w.put other new).runners place = some r := by
    intro other runner phase thereToo stands idle new
    change Function.update w.runners other (some new) place = some r
    rw [Function.update_of_ne,there]
    intro same
    subst same
    cases there.symm.trans thereToo
    exact idle job ends left (stands.symm.trans executes)
  cases step with
  | pass => exact ⟨there,rfl⟩
  | tick spot runner thereToo waits =>
    exact ⟨moved spot runner _ thereToo waits (fun _ _ _ same => nomatch same) _,rfl⟩
  | nothing spot _ runner _ thereToo claims | claim spot _ runner _ _ thereToo claims =>
    refine ⟨moved spot runner _ thereToo claims (fun _ _ _ same => nomatch same) _,?_⟩
    rw [stored]
    exact claim_kept stored running alive
  | finish spot request runner other _ more thereToo executesToo =>
    have different : place ≠ spot := by
      intro same
      subst same
      exact unreported request rfl
    refine ⟨?_,?_⟩
    · change Function.update w.runners spot _ place = some r
      rw [Function.update_of_ne different,there]
    · refine finish_others ?_ (some request) w.now w.stores
      intro same
      exact different (invariant.apart place spot r runner job other ends w.clock left more there thereToo executes executesToo same)
  | sweep =>
    refine ⟨there,?_⟩
    rw [stored]
    exact sweep_kept stored alive
  | submit _ _ fresh =>
    refine ⟨there,?_⟩
    refine enqueue_others ?_
    intro same
    rw [same,fresh] at stored
    cases stored

-- A worker that executes a job did so before, or was just given the job.
inductive Given (settings : Settings) (w next : World) (place : Nat) (r : Runner) (job : JobRecord) (ends : Int) : Move → Prop
  | now (duration : Int) (old : Runner) (there : w.runners place = some old) (worker : old.worker = r.worker)
      (stops : ends = w.clock + duration) (takes : 0 ≤ duration)
      (given : response settings (claimOf w old) w = .claimed (some job))
      (stores : next.stores = after settings (claimOf w old) w) (registry : next.registry = w.registry)
      (clock : next.clock = w.clock) : Given settings w next place r job ends (.claim place duration)

theorem executing_before (step : Step settings w move next) (there : next.runners place = some r)
    (executes : r.phase = .executing job ends left) :
    (w.runners place = some r ∧ ∀ request, move ≠ .finish place request) ∨ Given settings w next place r job ends move := by
  cases step with
  | pass | sweep | submit => exact Or.inl ⟨there,fun _ same => nomatch same⟩
  | tick spot | nothing spot =>
    rcases updated_task there with ⟨_,same⟩ | ⟨_,before⟩
    · subst same
      cases executes
    · exact Or.inl ⟨before,fun _ same => nomatch same⟩
  | claim spot duration runner _ _ thereToo _ takes given =>
    rcases updated_task there with ⟨here,same⟩ | ⟨_,before⟩
    · subst here
      subst same
      cases executes
      exact Or.inr (.now duration runner thereToo rfl rfl takes given rfl rfl rfl)
    · exact Or.inl ⟨before,fun _ same => nomatch same⟩
  | finish spot request =>
    rcases updated_task there with ⟨_,same⟩ | ⟨different,before⟩
    · subst same
      unfold Runner.proceed at executes
      split at executes
      · cases executes
      · cases executes
    · refine Or.inl ⟨before,?_⟩
      intro request same
      cases same
      exact different rfl

theorem registry_kept (step : Step settings w move next) (may : Brief w move) (invariant : Invariant w) :
    next.registry.degradedAfter = w.registry.degradedAfter ∧ w.clock ≤ next.clock ∧
      (∀ agent ∈ next.registry.agents.rows, agent.lastHeartbeat.instant ≤ next.clock) ∧
      ∀ id agent, w.registry.agents.get id = some agent →
        ∃ later, next.registry.agents.get id = some later ∧ agent.lastHeartbeat.instant ≤ later.lastHeartbeat.instant := by
  have same : w.clock ≤ w.clock ∧ (∀ agent ∈ w.registry.agents.rows, agent.lastHeartbeat.instant ≤ w.clock) ∧
      ∀ id agent, w.registry.agents.get id = some agent →
        ∃ later, w.registry.agents.get id = some later ∧ agent.lastHeartbeat.instant ≤ later.lastHeartbeat.instant :=
    ⟨Int.le_refl _,invariant.past,fun _ agent found => ⟨agent,found,Int.le_refl _⟩⟩
  cases step with
  | pass _ later =>
    exact ⟨rfl,later,fun agent member => Int.le_trans (invariant.past agent member) later,same.2.2⟩
  | sweep | submit | nothing | claim | finish => exact ⟨rfl,same⟩
  | tick _ runner there =>
    have beat : (snapshotOf runner.worker.heartbeat w.now).lastHeartbeat.instant = w.clock := by
      unfold snapshotOf
      rw [if_pos (may runner there)]
      rfl
    refine ⟨rfl,Int.le_refl _,?_,?_⟩
    · intro agent member
      rcases w.registry.agents.mem_put.1 member with new | ⟨kept,_⟩
      · rw [new,beat]
        exact Int.le_refl _
      · exact invariant.past agent kept
    · intro id agent found
      change ∃ later, (w.registry.agents.put (snapshotOf runner.worker.heartbeat w.now)).get id = some later ∧ _
      rw [Table.get_put]
      split
      · refine ⟨_,rfl,?_⟩
        rw [beat]
        exact invariant.past agent (w.registry.agents.get_exact.1 found).1
      · exact ⟨agent,found,Int.le_refl _⟩

theorem given_started (trimmed : trimSpace r.worker.heartbeat.id = r.worker.heartbeat.id)
    (given : response settings (claimOf w r) w = .claimed (some job)) :
    (∃ old, (run exec (sweep w.agents w.now) w.stores).2.jobs.get job.id = some old ∧ old.status = .queued) ∧
      ∃ row, (after settings (claimOf w r) w).jobs.get job.id = some row ∧ row.status = .running ∧
        row.agentID = r.worker.heartbeat.id := by
  obtain ⟨answer,later,ran,outcome⟩ := @claim_run settings (trimSpace r.worker.heartbeat.id) w.agents w.now w.agents w.now w.stores
  have answered : answer = .claimed (some job) := (congrArg Prod.fst ran).symm.trans given
  have stores : after settings (claimOf w r) w = later := congrArg Prod.snd ran
  rw [stores]
  subst answered
  rcases outcome with ⟨quiet,_⟩ | ⟨old,same,queued,found,stored⟩
  · cases quiet
  · rw [trimmed,trimmed] at same stored
    have started : job = startedOn r.worker.heartbeat.id w.now old := Option.some.inj (Response.claimed.inj same)
    rw [started]
    refine ⟨⟨old,found,queued⟩,startedOn r.worker.heartbeat.id w.now old,?_,rfl,rfl⟩
    rw [stored,Table.get_put,if_pos rfl]

theorem given_other (invariant : Invariant w) (there : w.runners place = some r)
    (executes : r.phase = .executing job ends left) (may : Brief w move)
    (given : Given settings w next other runner later stops move) : job.id ≠ later.id := by
  intro same
  obtain ⟨_,stored,running,alive⟩ := executing_stored invariant there executes
  cases given with
  | now _ old was _ _ _ given =>
    obtain ⟨⟨_,found,queued⟩,_⟩ := given_started (may old was).1 given
    rw [← same,sweep_kept stored alive] at found
    cases found
    exact nomatch queued.symm.trans running

theorem step_preserves (step : Step settings w move next) (may : Brief w move) (invariant : Invariant w) : Invariant next := by
  obtain ⟨threshold,later,past,beats⟩ := registry_kept step may invariant
  refine ⟨threshold ▸ invariant.positive,past,?_,?_⟩
  · intro place r job ends left there executes
    rcases executing_before step there executes with ⟨before,unreported⟩ | given
    · have covered := invariant.covered place r job ends left before executes
      have kept := (step_kept step invariant before executes unreported).2
      refine ⟨?_,kept ▸ covered.stored,?_⟩
      · cases step with
        | pass _ _ guard => exact guard place r job ends left before executes
        | tick | nothing | claim | finish | sweep | submit => exact covered.ahead
      · obtain ⟨agent,known,_⟩ := covered.beats
        obtain ⟨newer,knownToo,_⟩ := beats _ agent known
        refine ⟨newer,knownToo,?_⟩
        omega
    · cases given with
      | now _ old was worker _ _ given stores registry =>
        obtain ⟨trimmed,agent,known,_⟩ := may old was
        obtain ⟨_,row,stored,running,agentID⟩ := given_started trimmed given
        refine ⟨by omega,⟨row,?_,running,agentID.trans (by rw [worker])⟩,agent,?_,?_⟩
        · rw [stores]
          exact stored
        · rw [registry,← worker]
          exact known
        · omega
  · intro place other r runner job later ends stops left more there thereToo executes executesToo same
    rcases executing_before step there executes with ⟨before,_⟩ | given
    · rcases executing_before step thereToo executesToo with ⟨beforeToo,_⟩ | given
      · exact invariant.apart place other r runner job later ends stops left more before beforeToo executes executesToo same
      · exact absurd same (given_other invariant before executes may given)
    · rcases executing_before step thereToo executesToo with ⟨beforeToo,_⟩ | givenToo
      · exact absurd same.symm (given_other invariant beforeToo executesToo may given)
      · cases given with
        | now =>
          cases givenToo with
          | now => rfl

theorem start_invariant (degradedAfter clock : Int) (stores : Stores) (fleet : Nat → Option Worker) :
    Invariant (start degradedAfter clock stores fleet) := by
  have waits : ∀ place r, (start degradedAfter clock stores fleet).runners place = some r → r.phase = .waiting := by
    intro place r there
    obtain ⟨_,_,same⟩ := Option.map_eq_some_iff.1 there
    rw [← same]
  refine ⟨?_,?_,?_,?_⟩
  · unfold start newAgentRegistry
    dsimp only
    split <;> omega
  · intro agent member
    exact absurd member List.not_mem_nil
  · intro place r job ends left there executes
    exact nomatch (waits place r there).symm.trans executes
  · intro place other r runner job later ends stops left more there _ executes
    exact nomatch (waits place r there).symm.trans executes

theorem reached_invariant {fleet : Nat → Option Worker}
    (reached : Reached settings Brief (start degradedAfter clock stores fleet) w) : Invariant w := by
  induction reached with
  | start => exact start_invariant degradedAfter clock stores fleet
  | step _ step may ih => exact step_preserves step may ih

-- In every trace whose jobs are done before the last heartbeat of their worker is too old,
-- nothing but the report of the worker changes a job between its claim and that report.
theorem running_job_kept {degradedAfter clock : Int} {stores : Stores} {fleet : Nat → Option Worker} {place : Nat}
    {r : Runner} {ends : Int} {left : Nat} (reached : Reached settings Brief (start degradedAfter clock stores fleet) w)
    (there : w.runners place = some r) (executes : r.phase = .executing job ends left) (step : Step settings w move next)
    (unreported : ∀ request, move ≠ .finish place request) :
    ∃ row, w.stores.jobs.get job.id = some row ∧ row.status = .running ∧ next.stores.jobs.get job.id = some row := by
  have invariant := reached_invariant reached
  obtain ⟨row,stored,running,_⟩ := executing_stored invariant there executes
  refine ⟨row,stored,running,?_⟩
  rw [(step_kept step invariant there executes unreported).2]
  exact stored

end

-- One worker that polls every five seconds, and one backup in the queue.
def second : Int := 1000000000

def poller : Worker := ⟨⟨ascii "a1",1,Time.zero⟩,5 * second,1⟩

def sample : World := start (30 * second) second waitingStores (row [poller])

def SampleReached (allowed : World → Move → Prop) (w : World) : Prop := Reached plainSettings allowed sample w

def beating : AgentRegistry := heartbeat (newAgentRegistry (30 * second)) poller.heartbeat ⟨second,0⟩

def startedJob : JobRecord := startedOn (ascii "a1") ⟨second,0⟩ waitingJob

def startedStores : Stores := holding startedJob

def executing (duration : Int) : Runner := ⟨poller,.executing startedJob (second + duration) 0,none⟩

def executed (duration clock : Int) : World := ⟨clock,beating,startedStores,row [executing duration]⟩

theorem sample_runners : sample.runners = row [⟨poller,.waiting,none⟩] := by
  funext place
  exact List.getElem?_map.symm

def polling : World := ⟨second,beating,waitingStores,row [⟨poller,.claiming 1,none⟩]⟩

theorem sample_ticks : Step plainSettings sample (.tick 0) polling := by
  have ticked := @Step.tick plainSettings sample 0 ⟨poller,.waiting,none⟩ rfl rfl (fun _ same => nomatch same)
  unfold World.put at ticked
  rw [sample_runners,row_set Nat.one_pos] at ticked
  exact ticked

theorem polling_claimed : run exec (handler plainSettings (claimOf polling ⟨poller,.claiming 1,none⟩)) waitingStores =
    (.claimed (some startedJob),startedStores) := by
  have trimmed : trimSpace poller.heartbeat.id = ascii "a1" := by decide
  unfold claimOf
  rw [trimmed]
  exact waiting_claimed (by decide) ⟨second,0⟩

theorem polling_claims (takes : 0 ≤ duration) :
    Step plainSettings polling (.claim 0 duration) (executed duration second) := by
  have given : response plainSettings (claimOf polling ⟨poller,.claiming 1,none⟩) polling = .claimed (some startedJob) :=
    congrArg Prod.fst polling_claimed
  have stores : after plainSettings (claimOf polling ⟨poller,.claiming 1,none⟩) polling = startedStores :=
    congrArg Prod.snd polling_claimed
  have claimed := @Step.claim plainSettings polling 0 duration ⟨poller,.claiming 1,none⟩ 1 startedJob rfl rfl takes given
  unfold World.put at claimed
  rw [stores,show polling.runners = row [⟨poller,.claiming 1,none⟩] from rfl,row_set Nat.one_pos] at claimed
  exact claimed

theorem sample_executes {allowed : World → Move → Prop} (takes : 0 ≤ duration) (later : second ≤ clock)
    (before : clock ≤ second + duration) (ticks : allowed sample (.tick 0))
    (claims : allowed polling (.claim 0 duration)) (passes : ∀ w, allowed w (.pass clock)) :
    SampleReached allowed (executed duration clock) := by
  have passed : Step plainSettings (executed duration second) (.pass clock) (executed duration clock) := by
    refine .pass clock later ?_
    intro place r job ends left there executes
    cases List.mem_singleton.1 (List.mem_of_getElem? there)
    cases executes
    exact before
  exact .step (.step (.step .start sample_ticks ticks) (polling_claims takes) claims) passed (passes _)

def sweptAt (clock : Int) : Stores := (run exec (sweep (list beating ⟨clock,0⟩) ⟨clock,0⟩) startedStores).2

theorem sweeps (duration clock : Int) :
    Step plainSettings (executed duration clock) .sweep {executed duration clock with stores := sweptAt clock} := .sweep

theorem late_swept : (sweptAt (32 * second)).jobs.get startedJob.id =
    some (ended .failed (ascii "agent_lost") ⟨32 * second,0⟩ startedJob) := by
  have listed : (exec .list startedStores).1 = [startedJob] := List.mergeSort_singleton _
  have lost : lostAgents (list beating ⟨32 * second,0⟩) = [ascii "a1"] := by decide
  unfold sweptAt sweep
  rw [failLost_bind,lost,if_neg (fun same => nomatch same)]
  unfold run
  rw [listed]
  rfl

-- A backup that takes longer than thirty seconds, and a sweep before it is done.
theorem long_job_lost : ∃ w next, SampleReached (fun _ _ => True) w ∧ w.runners 0 = some (executing (60 * second)) ∧
    Step plainSettings w .sweep next ∧
    next.stores.jobs.get startedJob.id = some (ended .failed (ascii "agent_lost") ⟨32 * second,0⟩ startedJob) := by
  have reached : SampleReached (fun _ _ => True) (executed (60 * second) (32 * second)) :=
    sample_executes (by decide) (by decide) (by decide) trivial trivial (fun _ => trivial)
  exact ⟨_,_,reached,rfl,sweeps (60 * second) (32 * second),late_swept⟩

theorem short_job_kept : ∃ w next, SampleReached Brief w ∧ w.runners 0 = some (executing (20 * second)) ∧
    Step plainSettings w .sweep next ∧ ∃ row, w.stores.jobs.get startedJob.id = some row ∧ row.status = .running ∧
      next.stores.jobs.get startedJob.id = some row := by
  have reached : SampleReached Brief (executed (20 * second) (21 * second)) := by
    refine sample_executes (by decide) (by decide) (by decide) ?_ ?_ (fun _ => trivial)
    · intro r there
      cases there
      rfl
    · intro r there
      cases there
      exact ⟨by decide,_,rfl,by decide⟩
  have there : (executed (20 * second) (21 * second)).runners 0 = some (executing (20 * second)) := rfl
  have swept := sweeps (20 * second) (21 * second)
  exact ⟨_,_,reached,there,swept,running_job_kept reached there rfl swept (fun _ same => nomatch same)⟩

end Kronos.LostAgents
