import Kronos.JobProtocol

namespace Kronos.ActiveJobs
open ByteRange Utf8 Strings Rfc3339 RecordTable Agents JobRecords JobServer JobProtocol Interleaving

def OnePerTarget (jobs : JobTable) : Prop :=
  ∀ one ∈ jobs.rows, ∀ other ∈ jobs.rows, active one.status = true → active other.status = true →
    isZero one.targetID = false → one.targetID = other.targetID → one.id = other.id

def Asks {α : Type} (id : Bytes) (program : Server α) : Prop := ∃ next, program = .call (.get id) next

-- A claim between its listing and its save of a job.
def Engaged {α : Type} (id : Bytes) (program : Server α) : Prop :=
  Asks id program ∨ ∃ job, Upcoming job program ∧ job.status = .running ∧ job.id = id

-- A claim lists the jobs only while no other claim stands between its listing and its
-- save, and a new job has an ID of its own.
def Serial (s : JobSystem) : Move Request Op → Prop
  | .perform place .list => ∀ request program, s.tasks place = some (request,program) → request.isClaim = true →
      ∀ other served rest id, other ≠ place → s.tasks other = some (served,rest) → served.isClaim = true → ¬ Engaged id rest
  | .accept _ (.enqueue record _) => Fresh s record.id
  | _ => True

-- What a claim goes on to read is a candidate of its listing, and it reads one job only.
def Screens {α : Type} : Server α → Prop
  | .done _ => True
  | .call .list next => ∀ jobs : List JobRecord,
      (∀ id, Asks id (next jobs) → ∃ job ∈ jobs, job.id = id ∧ targetHasActiveJob jobs job = false) ∧ Screens (next jobs)
  | .call (.get _) next => ∀ found : Option JobRecord, (∀ id, ¬ Asks id (next found)) ∧ Screens (next found)
  | .call (.save _) next => (∀ id, ¬ Asks id (next ())) ∧ Screens (next ())
  | .call (.saveBackup _) _ => False
  | .call (.saveEvidence _) _ => False

section
variable {settings : Settings}

theorem unasked_done {α : Type} {id : Bytes} {a : α} : ¬ Asks id (.done a : Server α) := by
  intro asks
  obtain ⟨_,same⟩ := asks
  cases same

theorem begin_screens (agentID : Bytes) (now : Time) (job : JobRecord) :
    (∀ id, ¬ Asks id (begin agentID now job)) ∧ Screens (begin agentID now job) := by
  unfold begin
  split
  · exact ⟨fun _ => unasked_done,trivial⟩
  · refine ⟨?_,fun _ => unasked_done,trivial⟩
    intro id asks
    obtain ⟨_,same⟩ := asks
    cases same

theorem pick_screens (agentID : Bytes) (agents : List AgentSnapshot) (now : Time) (jobs : List JobRecord) :
    (∀ id, Asks id (pick settings agentID agents now jobs) →
      ∃ job ∈ jobs, job.id = id ∧ targetHasActiveJob jobs job = false) ∧ Screens (pick settings agentID agents now jobs) := by
  rcases @pick_cases settings agentID agents now jobs with same | ⟨job,listed,chosen,same⟩
  · rw [same]
    exact ⟨fun _ asks => absurd asks unasked_done,trivial⟩
  · rw [same]
    have free : targetHasActiveJob jobs job = false := by
      simp only [claimable,Bool.and_eq_true,Bool.not_eq_true'] at chosen
      exact chosen.1.2
    unfold withJob
    split
    · exact ⟨fun _ asks => absurd asks unasked_done,trivial⟩
    · refine ⟨?_,?_⟩
      · intro id asks
        obtain ⟨_,same⟩ := asks
        cases same
        exact ⟨job,listed,rfl,free⟩
      · intro found
        cases found with
        | none => exact ⟨fun _ => unasked_done,trivial⟩
        | some current => exact begin_screens agentID now current

theorem failEach_screens {α : Type} {now : Time} {f : List Bytes → Server α} (jobs : List JobRecord)
    (unasked : ∀ ids id, ¬ Asks id (f ids)) (screens : ∀ ids, Screens (f ids)) :
    (∀ id, ¬ Asks id (failEach now jobs >>= f)) ∧ Screens (failEach now jobs >>= f) := by
  induction jobs generalizing f with
  | nil => exact ⟨unasked [],screens []⟩
  | cons _ _ ih =>
    rw [failEach_bind]
    refine ⟨?_,ih (fun ids => unasked _) (fun ids => screens _)⟩
    intro id asks
    obtain ⟨_,same⟩ := asks
    cases same

theorem handleClaimJob_screens (header : Bytes) (seen : List AgentSnapshot) (swept : Time) (agents : List AgentSnapshot)
    (now : Time) : (∀ id, ¬ Asks id (handleClaimJob settings header seen swept agents now)) ∧
      Screens (handleClaimJob settings header seen swept agents now) := by
  have unasked : ∀ id, ¬ Asks id (.call .list (pick settings (trimSpace header) agents now)) := by
    intro id asks
    obtain ⟨_,same⟩ := asks
    cases same
  have screens : Screens (.call .list (pick settings (trimSpace header) agents now)) :=
    pick_screens (trimSpace header) agents now
  rw [handleClaimJob_pick,failLost_bind]
  split
  · exact ⟨unasked,screens⟩
  · refine ⟨?_,?_⟩
    · intro id asks
      obtain ⟨_,same⟩ := asks
      cases same
    · intro jobs
      have each := @failEach_screens _ swept _ (jobs.filter (isLost (lostAgents seen))) (fun _ => unasked) (fun _ => screens)
      exact ⟨fun id asks => absurd asks (each.1 id),each.2⟩

end

theorem claim_screens (claim : request.isClaim = true) : Screens (handler settings request) := by
  cases request with
  | claim header seen swept agents now => exact (handleClaimJob_screens header seen swept agents now).2
  | finish | cancel | retry | sweep | enqueue => cases claim

theorem claim_unengaged {id : Bytes} (claim : request.isClaim = true) : ¬ Engaged id (handler settings request) := by
  intro engaged
  rcases engaged with asks | ⟨_,upcoming,_⟩
  · cases request with
    | claim header seen swept agents now => exact (handleClaimJob_screens header seen swept agents now).1 id asks
    | finish | cancel | retry | sweep | enqueue => cases claim
  · obtain ⟨_,_,same,_⟩ := handler_start upcoming
    rw [same] at claim
    cases claim

def Names (s : JobSystem) (id targetID : Bytes) : Prop :=
  (∃ job ∈ s.state.jobs.rows, job.id = id ∧ job.targetID = targetID) ∨
    ∃ place job, Pending s place job ∧ job.id = id ∧ job.targetID = targetID

def Clear (jobs : JobTable) (id : Bytes) : Prop :=
  ∃ job, jobs.get id = some job ∧ ∀ row ∈ jobs.rows, active row.status = true → isZero job.targetID = false →
    row.targetID = job.targetID → row.id = id

structure Invariant (s : JobSystem) : Prop where
  orderly : Orderly s
  single : OnePerTarget s.state.jobs
  named : ∀ id one other, Names s id one → Names s id other → one = other
  screens : ∀ place request program, s.tasks place = some (request,program) → request.isClaim = true → Screens program
  clear : ∀ place request program id, s.tasks place = some (request,program) → request.isClaim = true →
    Engaged id program → Clear s.state.jobs id
  alone : ∀ place other request served program rest id another, s.tasks place = some (request,program) →
    s.tasks other = some (served,rest) → request.isClaim = true → served.isClaim = true →
    Engaged id program → Engaged another rest → place = other

section
variable {settings : Settings} {first : Stores} {s next : JobSystem} {move : Move Request Op} {place : Nat} {job : JobRecord}

theorem start_invariant (single : OnePerTarget first.jobs) : Invariant ⟨first,fun _ => none,[]⟩ := by
  refine ⟨start_orderly first,single,?_,?_,?_,?_⟩
  · intro id one other names namesToo
    rcases names with ⟨row,member,known,target⟩ | ⟨_,_,pending,_⟩
    · rcases namesToo with ⟨rowToo,memberToo,knownToo,targetToo⟩ | ⟨_,_,pending,_⟩
      · have same : row = rowToo := Option.some.inj
          ((first.jobs.get_exact.2 ⟨member,known⟩).symm.trans (first.jobs.get_exact.2 ⟨memberToo,knownToo⟩))
        rw [← target,← targetToo,same]
      · exact absurd pending start_pending
    · exact absurd pending start_pending
  · intro place request program there
    cases there
  · intro place request program id there
    cases there
  · intro place other request served program rest id another there
    cases there

theorem names_before (step : Step exec (handler settings) s move next) (may : Serial s move) (orderly : Orderly s)
    {id : Bytes} (names : Names next id targetID) : Names s id targetID ∨ ((∀ other, ¬ Names s id other) ∧
      ∃ spot record parentID, move = .accept spot (.enqueue record parentID) ∧ record.targetID = targetID) := by
  rcases names with ⟨job,member,known,target⟩ | ⟨place,job,pending,known,target⟩
  · refine Or.inl ?_
    rcases step_jobs step orderly with ⟨place,_,_,pending,stored,_⟩ | ⟨stored,_⟩
    · rw [stored] at member
      rcases s.state.jobs.mem_put.1 member with same | ⟨kept,_⟩
      · subst same
        exact Or.inr ⟨place,job,pending,known,target⟩
      · exact Or.inl ⟨job,kept,known,target⟩
    · rw [stored] at member
      exact Or.inl ⟨job,member,known,target⟩
  · cases step_arrival step orderly pending with
    | kept before => exact Or.inl (Or.inr ⟨place,job,before,known,target⟩)
    | read _ _ _ old _ _ found follows =>
      obtain ⟨stored,same⟩ := s.state.jobs.get_exact.1 found
      exact Or.inl (Or.inl ⟨old,stored,follows.id.symm.trans known,follows.target.symm.trans target⟩)
    | swept _ old _ _ found follows =>
      obtain ⟨stored,same⟩ := s.state.jobs.get_exact.1 found
      exact Or.inl (Or.inl ⟨old,stored,same.trans known,follows.target.symm.trans target⟩)
    | new record parentID accepted same =>
      subst accepted
      have fresh : record.id = id := same.id.symm.trans known
      refine Or.inr ⟨?_,place,record,parentID,rfl,same.target.symm.trans target⟩
      intro other names
      rcases names with ⟨_,member,knownToo,_⟩ | ⟨spot,later,waiting,knownToo,_⟩
      · have stored := s.state.jobs.get_exact.2 ⟨member,knownToo⟩
        rw [← fresh,may.1] at stored
        cases stored
      · exact may.2 spot later waiting (knownToo.trans fresh.symm)

theorem step_named (step : Step exec (handler settings) s move next) (may : Serial s move) (invariant : Invariant s)
    {id : Bytes} (names : Names next id one) (namesToo : Names next id other) : one = other := by
  rcases names_before step may invariant.orderly names with before | ⟨fresh,_,_,_,moved,target⟩
  · rcases names_before step may invariant.orderly namesToo with beforeToo | ⟨fresh,_⟩
    · exact invariant.named id one other before beforeToo
    · exact absurd before (fresh one)
  · rcases names_before step may invariant.orderly namesToo with beforeToo | ⟨_,_,_,_,movedToo,targetToo⟩
    · exact absurd beforeToo (fresh other)
    · rw [moved] at movedToo
      cases movedToo
      exact target.symm.trans targetToo

theorem listed_clear (member : job ∈ jobs.rows.mergeSort jobOrder)
    (free : targetHasActiveJob (jobs.rows.mergeSort jobOrder) job = false) : Clear jobs job.id := by
  refine ⟨job,jobs.get_exact.2 ⟨List.mem_mergeSort.1 member,rfl⟩,?_⟩
  intro row present going targeted same
  unfold targetHasActiveJob at free
  rw [targeted] at free
  by_contra different
  have rival := List.any_eq_false.1 free row (List.mem_mergeSort.2 present)
  rw [decide_eq_true different,decide_eq_true same,going] at rival
  exact rival rfl

theorem engaged_before (step : Step exec (handler settings) s move next) (invariant : Invariant s) {id : Bytes}
    {request : Request} {program : Server Response} (there : next.tasks place = some (request,program))
    (claim : request.isClaim = true) (engaged : Engaged id program) :
    (∃ before, s.tasks place = some (request,before) ∧ Engaged id before ∧ ∀ job, move ≠ .perform place (.save job)) ∨
      (move = .perform place .list ∧ Clear s.state.jobs id ∧ ∃ before, s.tasks place = some (request,before)) := by
  cases step with
  | accept =>
    rcases updated_task there with ⟨_,same⟩ | ⟨_,before⟩
    · cases same
      exact absurd engaged (claim_unengaged claim)
    · exact Or.inl ⟨program,before,engaged,fun _ moved => nomatch moved⟩
  | perform _ _ op after turn =>
    rcases updated_task there with ⟨here,same⟩ | ⟨elsewhere,before⟩
    · cases same
      subst here
      have lawful := invariant.orderly.lawful place request _ turn
      have screens := invariant.screens place request _ turn claim
      cases op with
      | get read =>
        refine Or.inl ⟨_,turn,?_,fun _ moved => nomatch moved⟩
        rcases engaged with asks | ⟨job,upcoming,running,known⟩
        · exact absurd asks ((screens _).1 id)
        · obtain ⟨_,found,follows⟩ := (lawful _ (fun job found => (s.state.jobs.get_exact.1 found).2)).1 job upcoming
          have same : read = id := by
            rw [← known,follows.id]
            exact (s.state.jobs.get_exact.1 found).2.symm
          exact Or.inl ⟨after,by rw [same]⟩
      | list =>
        refine Or.inr ⟨rfl,?_,_,turn⟩
        rcases engaged with asks | ⟨job,upcoming,running,known⟩
        · obtain ⟨job,listed,known,free⟩ := (screens _).1 id asks
          rw [← known]
          exact listed_clear listed free
        · have failed := ((lawful _ (listed_distinct s.state.jobs)).1 job upcoming).1
          exact nomatch failed.symm.trans running
      | save =>
        rcases engaged with asks | ⟨job,upcoming,running,_⟩
        · exact absurd asks (screens.1 id)
        · have idle := (lawful.1 job upcoming).1
          rw [running] at idle
          cases idle
      | saveBackup | saveEvidence => exact screens.elim
    · refine Or.inl ⟨program,before,engaged,?_⟩
      intro job moved
      exact elsewhere (Move.perform.inj moved).1.symm

theorem step_screens (step : Step exec (handler settings) s move next) (invariant : Invariant s) {request : Request}
    {program : Server Response} (there : next.tasks place = some (request,program)) (claim : request.isClaim = true) :
    Screens program := by
  cases step with
  | accept =>
    rcases updated_task there with ⟨_,same⟩ | ⟨_,before⟩
    · cases same
      exact claim_screens claim
    · exact invariant.screens place request program before claim
  | perform spot _ op _ turn =>
    rcases updated_task there with ⟨_,same⟩ | ⟨_,before⟩
    · cases same
      have screens := invariant.screens spot request _ turn claim
      cases op with
      | get | list => exact (screens _).2
      | save => exact screens.2
      | saveBackup | saveEvidence => exact screens.elim
    · exact invariant.screens place request program before claim

theorem step_alone (step : Step exec (handler settings) s move next) (may : Serial s move) (invariant : Invariant s)
    {other : Nat} {request served : Request} {program rest : Server Response} {id another : Bytes}
    (there : next.tasks place = some (request,program)) (thereToo : next.tasks other = some (served,rest))
    (claim : request.isClaim = true) (claimToo : served.isClaim = true) (engaged : Engaged id program)
    (engagedToo : Engaged another rest) : place = other := by
  rcases engaged_before step invariant there claim engaged with ⟨before,task,was,_⟩ | ⟨moved,_,before,task⟩
  · rcases engaged_before step invariant thereToo claimToo engagedToo with ⟨beforeToo,taskToo,wasToo,_⟩ | ⟨moved,_,beforeToo,taskToo⟩
    · exact invariant.alone place other request served before beforeToo id another task taskToo claim claimToo was wasToo
    · subst moved
      by_contra different
      exact may served beforeToo taskToo claimToo place request before id different task claim was
  · rcases engaged_before step invariant thereToo claimToo engagedToo with ⟨beforeToo,taskToo,wasToo,_⟩ | ⟨movedToo,_,_,_⟩
    · subst moved
      by_contra different
      exact may request before task claim other served beforeToo another (Ne.symm different) taskToo claimToo wasToo
    · rw [moved] at movedToo
      exact (Move.perform.inj movedToo).1

theorem put_clear (invariant : Invariant s) (pending : Pending s place job) (idle : active job.status = false) {id : Bytes}
    (clear : Clear s.state.jobs id) : Clear (s.state.jobs.put job) id := by
  obtain ⟨old,found,only⟩ := clear
  have kept : ∀ row ∈ (s.state.jobs.put job).rows, active row.status = true → isZero old.targetID = false →
      row.targetID = old.targetID → row.id = id := by
    intro row member going targeted same
    rcases s.state.jobs.mem_put.1 member with saved | ⟨present,_⟩
    · rw [saved,idle] at going
      cases going
    · exact only row present going targeted same
  by_cases same : id = job.id
  · refine ⟨job,by rw [Table.get_put,if_pos same],?_⟩
    obtain ⟨stored,known⟩ := s.state.jobs.get_exact.1 found
    have target : old.targetID = job.targetID := invariant.named id _ _ (Or.inl ⟨old,stored,known,rfl⟩)
      (Or.inr ⟨place,job,pending,same.symm,rfl⟩)
    rw [← target]
    exact kept
  · exact ⟨old,by rw [Table.get_put,if_neg same,found],kept⟩

theorem pending_clear (invariant : Invariant s) (pending : Pending s place job) (going : active job.status = true) :
    Clear s.state.jobs job.id := by
  obtain ⟨request,program,there,upcoming⟩ := pending
  obtain ⟨running,claim⟩ := invariant.orderly.starts place request program job there upcoming going
  exact invariant.clear place request program job.id there claim (Or.inr ⟨job,upcoming,running,rfl⟩)

theorem put_single (invariant : Invariant s) (pending : Pending s place job) : OnePerTarget (s.state.jobs.put job) := by
  have rival : ∀ row ∈ s.state.jobs.rows, active job.status = true → active row.status = true → isZero job.targetID = false →
      row.targetID = job.targetID → row.id = job.id := by
    intro row present going goingToo targeted same
    obtain ⟨old,found,only⟩ := pending_clear invariant pending going
    obtain ⟨stored,known⟩ := s.state.jobs.get_exact.1 found
    have target : old.targetID = job.targetID := invariant.named job.id _ _ (Or.inl ⟨old,stored,known,rfl⟩)
      (Or.inr ⟨place,job,pending,rfl,rfl⟩)
    rw [← target] at targeted same
    exact only row present goingToo targeted same
  intro one present other presentToo going goingToo targeted same
  rcases s.state.jobs.mem_put.1 present with saved | ⟨before,_⟩
  · subst saved
    rcases s.state.jobs.mem_put.1 presentToo with savedToo | ⟨beforeToo,_⟩
    · rw [savedToo]
    · exact (rival other beforeToo going goingToo targeted same.symm).symm
  · rcases s.state.jobs.mem_put.1 presentToo with savedToo | ⟨beforeToo,_⟩
    · subst savedToo
      rw [same] at targeted
      exact rival one before goingToo going targeted same
    · exact invariant.single one before other beforeToo going goingToo targeted same

theorem step_preserves (step : Step exec (handler settings) s move next) (may : Serial s move) (invariant : Invariant s) :
    Invariant next := by
  refine ⟨step_orderly step invariant.orderly,?_,?_,?_,?_,?_⟩
  · rcases step_jobs step invariant.orderly with ⟨place,job,_,pending,stored,_⟩ | ⟨stored,_⟩
    · rw [stored]
      exact put_single invariant pending
    · rw [stored]
      exact invariant.single
  · intro id one other names namesToo
    exact step_named step may invariant names namesToo
  · intro place request program there claim
    exact step_screens step invariant there claim
  · intro place request program id there claim engaged
    rcases engaged_before step invariant there claim engaged with ⟨before,task,was,unsaved⟩ | ⟨moved,clear,_⟩
    · have clear := invariant.clear place request before id task claim was
      rcases step_jobs step invariant.orderly with ⟨spot,job,moved,pending,stored,_⟩ | ⟨stored,_⟩
      · rw [stored]
        cases going : active job.status with
        | false => exact put_clear invariant pending going clear
        | true =>
          -- Another claim would be starting a job at the same time.
          obtain ⟨served,rest,taskToo,upcoming⟩ := pending
          obtain ⟨running,claimToo⟩ := invariant.orderly.starts spot served rest job taskToo upcoming going
          have here := invariant.alone place spot request served before rest id job.id task taskToo claim claimToo was
            (Or.inr ⟨job,upcoming,running,rfl⟩)
          subst here
          exact absurd moved (unsaved job)
      · rw [stored]
        exact clear
    · rcases step_jobs step invariant.orderly with ⟨_,_,movedToo,_⟩ | ⟨stored,_⟩
      · rw [moved] at movedToo
        cases movedToo
      · rw [stored]
        exact clear
  · intro place other request served program rest id another there thereToo claim claimToo engaged engagedToo
    exact step_alone step may invariant there thereToo claim claimToo engaged engagedToo

-- In every run in which claims do not list and start jobs at the same time, no target
-- has two active jobs.
theorem one_active_per_target (single : OnePerTarget first.jobs) (reached : Reached exec (handler settings) Serial first s) :
    OnePerTarget s.state.jobs :=
  (reached.invariant (start_invariant single) (fun _ _ _ => step_preserves)).single

end

def firstJob : JobRecord := backupOf (ascii "j1")

def secondJob : JobRecord := backupOf (ascii "j2")

def twoWaiting : Stores := ⟨(Table.single firstJob).put secondJob,.empty,.empty,.empty⟩

def TwoReached (allowed : JobSystem → Move Request Op → Prop) (s : JobSystem) : Prop :=
  Reached exec (handler plainSettings) allowed twoWaiting s

-- The first claim reads j1 as queued, the second one starts j1, the third one finds the
-- agent of the second lost, fails j1 and starts j2, and then the first one starts j1.
theorem two_active_of_target : ∃ s, TwoReached (fun _ _ => True) s ∧ ¬ OnePerTarget s.state.jobs := by
  have asked : TwoReached (fun _ _ => True) ⟨twoWaiting,row [(claimBy (ascii "a1") [],choose (ascii "a1")),
      (claimBy (ascii "b1") [],choose (ascii "b1")),
      (claimBy (ascii "c1") [lostAgent],.call .list (fun jobs =>
        failEach Time.zero (jobs.filter (isLost [ascii "b1"])) >>= fun _ => choose (ascii "c1")))],[]⟩ :=
    ((Reached.none.accepts (claimBy (ascii "a1") []) trivial).accepts (claimBy (ascii "b1") []) trivial).accepts
      (claimBy (ascii "c1") [lostAgent]) trivial
  have firstListed := performs_list asked 0 rfl (by decide) (@pick_found _ _ _ _ _ firstJob rfl (by decide) rfl) trivial
  have firstRead := firstListed.performs 0 rfl trivial
  have secondListed := performs_list firstRead 1 rfl (by decide) (@pick_found _ _ _ _ _ firstJob rfl (by decide) rfl) trivial
  have secondStarted := (secondListed.performs 1 rfl trivial).performs 1 rfl trivial
  have swept := (performs_list secondStarted 2 rfl (by decide) rfl trivial).performs 2 rfl trivial
  have thirdListed := performs_list swept 2 rfl (by decide) (@pick_found _ _ _ _ _ secondJob rfl (by decide) rfl) trivial
  have thirdStarted := (thirdListed.performs 2 rfl trivial).performs 2 rfl trivial
  have firstStarted := thirdStarted.performs 0 rfl trivial
  refine ⟨_,firstStarted,?_⟩
  intro single
  have same := single (startedOn (ascii "a1") Time.zero firstJob) (by decide)
    (startedOn (ascii "c1") Time.zero secondJob) (by decide) rfl rfl rfl rfl
  exact absurd same (by decide)

theorem row_serial {state : Stores} {tasks : List (Request × Server Response)} {log : List Op} {place : Nat}
    (unengaged : ∀ task ∈ tasks, ∀ id, ¬ Engaged id task.2) : Serial ⟨state,row tasks,log⟩ (.perform place .list) := by
  intro request program there claim other served rest id different thereToo claimToo
  exact unengaged _ (List.mem_of_getElem? thereToo) id

theorem unengaged_done {α : Type} {id : Bytes} {a : α} : ¬ Engaged id (.done a : Server α) := by
  intro engaged
  rcases engaged with asks | ⟨_,upcoming,_⟩
  · exact unasked_done asks
  · exact quiet_done upcoming

theorem unengaged_list {α : Type} {id : Bytes} {next : Reply .list → Server α} : ¬ Engaged id (.call .list next) := by
  intro engaged
  rcases engaged with asks | ⟨_,upcoming,_⟩
  · obtain ⟨_,same⟩ := asks
    cases same
  · exact quiet_list upcoming

theorem second_claim_waits : ∃ s, TwoReached Serial s ∧ startedOn (ascii "a1") Time.zero firstJob ∈ s.state.jobs.rows ∧
    secondJob ∈ s.state.jobs.rows ∧ OnePerTarget s.state.jobs := by
  have asked : TwoReached Serial ⟨twoWaiting,row [(claimBy (ascii "a1") [],choose (ascii "a1")),
      (claimBy (ascii "b1") [],choose (ascii "b1"))],[]⟩ :=
    (Reached.none.accepts (claimBy (ascii "a1") []) trivial).accepts (claimBy (ascii "b1") []) trivial
  have listed := performs_list asked 0 rfl (by decide) (@pick_found _ _ _ _ _ firstJob rfl (by decide) rfl)
    (row_serial (List.forall_mem_cons.2 ⟨fun _ => unengaged_list,List.forall_mem_singleton.2 (fun _ => unengaged_list)⟩))
  have started := (listed.performs 0 rfl trivial).performs 0 rfl trivial
  have finished := performs_list started 1 rfl (by decide) rfl
    (row_serial (List.forall_mem_cons.2 ⟨fun _ => unengaged_done,List.forall_mem_singleton.2 (fun _ => unengaged_list)⟩))
  have single : OnePerTarget twoWaiting.jobs := by
    intro one present other presentToo going
    have idle : ∀ job ∈ twoWaiting.jobs.rows, active job.status = false := by decide
    rw [idle one present] at going
    cases going
  exact ⟨_,finished,by decide,by decide,one_active_per_target single finished⟩

end Kronos.ActiveJobs
