import Kronos.JobProtocol

namespace Kronos.FinishJob
open ByteRange Utf8 Rfc3339 RecordTable JobRecords JobServer JobProtocol Interleaving Program

section
variable {settings : Settings} {α : Type} {job : JobRecord}

theorem run_withJob (id : Bytes) (missing : Fault → Server α) (found : JobRecord → Server α) (s : Stores) :
    run exec (withJob id missing found) s =
      if isZero id then run exec (missing .idRequired) s
      else match s.jobs.get id with
        | none => run exec (missing (.notFound id)) s
        | some job => run exec (found job) s := by
  unfold withJob
  split
  · rfl
  · change run exec (match s.jobs.get id with
      | none => missing (.notFound id)
      | some job => found job) s = _
    cases s.jobs.get id <;> rfl

theorem appends_run {result : α → Prop} {p : Server α} (appends : Appends job result p) {s : Stores}
    (stored : ∃ old, s.jobs.get job.id = some old ∧ Same job old) :
    (∃ new, (run exec p s).2.jobs.get job.id = some new ∧ Same job new) ∧
      ∀ id, id ≠ job.id → (run exec p s).2.jobs.get id = s.jobs.get id := by
  induction p generalizing s with
  | done => exact ⟨stored,fun _ _ => rfl⟩
  | call op _ ih =>
    cases op with
    | get | list => exact appends.elim
    | save later =>
      have known : (s.jobs.put later).get job.id = some later := by
        rw [Table.get_put,if_pos appends.1.id.symm]
      obtain ⟨kept,others⟩ := @ih () appends.2 {s with jobs := s.jobs.put later} ⟨later,known,appends.1⟩
      refine ⟨kept,?_⟩
      intro id different
      rw [← appends.1.id] at different
      refine (others id (appends.1.id ▸ different)).trans ?_
      change (s.jobs.put later).get id = _
      rw [Table.get_put,if_neg different]
    | saveBackup backup =>
      have jobs : (exec (.saveBackup backup) s).2.jobs = s.jobs := by
        rcases exec_jobs (.saveBackup backup) s with ⟨_,same,_⟩ | ⟨_,same⟩
        · cases same
        · exact same
      rw [← jobs] at stored ⊢
      exact @ih _ (appends _) _ stored
    | saveEvidence => exact @ih () appends _ stored

structure Accepted (settings : Settings) (id : Bytes) (body : Option FinishRequest) (s : Stores) (request : FinishRequest)
    (job : JobRecord) (status : JobStatus) : Prop where
  decoded : body = some request
  named : isZero id = false
  found : s.jobs.get id = some job
  passes : finishRefusal settings request job = none
  terminal : request.status.terminal = some status
  going : terminalJobStatus job.status = false

def finished (request : FinishRequest) (status : JobStatus) (now : Time) (job : JobRecord) : JobRecord :=
  ended status request.error now job

theorem handleFinishJob_run (id : Bytes) (body : Option FinishRequest) (now : Time) (s : Stores) :
    (∃ request job status, Accepted settings id body s request job status ∧
      run exec (handleFinishJob settings id body now) s =
        run exec (attachAll settings request now (.ok (finished request status now job)))
          {s with jobs := s.jobs.put (finished request status now job)}) ∨
    ((∀ request job status, ¬ Accepted settings id body s request job status) ∧
      ∃ refusal, run exec (handleFinishJob settings id body now) s = (.refused refusal,s)) := by
  cases body with
  | none => exact Or.inr ⟨(fun _ _ _ accepted => nomatch accepted.decoded),_,rfl⟩
  | some request =>
    unfold handleFinishJob
    dsimp only
    rw [getJob_bind,run_withJob]
    cases named : isZero id with
    | true => exact Or.inr ⟨(fun _ _ _ accepted => nomatch named.symm.trans accepted.named),_,rfl⟩
    | false =>
      rw [if_neg nofun]
      cases found : s.jobs.get id with
      | none => exact Or.inr ⟨(fun _ _ _ accepted => nomatch found.symm.trans accepted.found),_,rfl⟩
      | some job =>
        have same : ∀ {other given status}, Accepted settings id (some request) s other given status →
            other = request ∧ given = job := fun accepted =>
          ⟨(Option.some.inj accepted.decoded).symm,(Option.some.inj (found.symm.trans accepted.found)).symm⟩
        dsimp only
        cases passes : finishRefusal settings request job with
        | some refusal =>
          refine Or.inr ⟨?_,refusal,rfl⟩
          intro other given status accepted
          obtain ⟨rfl,rfl⟩ := same accepted
          exact nomatch passes.symm.trans accepted.passes
        | none =>
          dsimp only
          rw [finish_bind]
          cases terminal : request.status.terminal with
          | none =>
            refine Or.inr ⟨?_,_,rfl⟩
            intro other given status accepted
            obtain ⟨rfl,rfl⟩ := same accepted
            exact nomatch terminal.symm.trans accepted.terminal
          | some status =>
            dsimp only
            rw [run_withJob,named,if_neg nofun,found]
            dsimp only
            cases going : terminalJobStatus job.status with
            | true =>
              refine Or.inr ⟨?_,_,rfl⟩
              intro other given status accepted
              obtain ⟨rfl,rfl⟩ := same accepted
              exact nomatch going.symm.trans accepted.going
            | false => exact Or.inl ⟨request,job,status,⟨rfl,named,found,passes,terminal,going⟩,rfl⟩

theorem accepted_unique {id : Bytes} (accepted : Accepted settings id body s one job status)
    (too : Accepted settings id body s other given last) : one = other ∧ job = given ∧ status = last := by
  have request : one = other := Option.some.inj (accepted.decoded.symm.trans too.decoded)
  subst request
  exact ⟨rfl,Option.some.inj (accepted.found.symm.trans too.found),
    Option.some.inj (accepted.terminal.symm.trans too.terminal)⟩

theorem accepted_run {id : Bytes} (accepted : Accepted settings id body s request job status) (now : Time) :
    (∃ later, (run exec (handleFinishJob settings id body now) s).2.jobs.get id = some later ∧ later.status = status) ∧
      ∀ other, other ≠ id → (run exec (handleFinishJob settings id body now) s).2.jobs.get other = s.jobs.get other := by
  rcases @handleFinishJob_run settings id body now s with ⟨_,_,_,too,ran⟩ | ⟨refused,_⟩
  · obtain ⟨rfl,rfl,rfl⟩ := accepted_unique accepted too
    have known : job.id = id := (s.jobs.get_exact.1 accepted.found).2
    have stored : (s.jobs.put (finished request status now job)).get job.id = some (finished request status now job) := by
      rw [Table.get_put]
      exact if_pos rfl
    obtain ⟨⟨later,found,same⟩,others⟩ := @appends_run _ _ _ _
      (@attachAll_appends settings request now (finished request status now job))
      {s with jobs := s.jobs.put (finished request status now job)} ⟨_,stored,same_refl _⟩
    rw [ran]
    refine ⟨⟨later,known ▸ found,same.status⟩,?_⟩
    intro other different
    rw [← known] at different
    refine (others other different).trans ?_
    change (s.jobs.put (finished request status now job)).get other = _
    rw [Table.get_put]
    exact if_neg different
  · exact absurd accepted (refused request job status)

theorem finish_others {id : Bytes} (different : other ≠ id) (body : Option FinishRequest) (now : Time) (s : Stores) :
    (run exec (handleFinishJob settings id body now) s).2.jobs.get other = s.jobs.get other := by
  rcases @handleFinishJob_run settings id body now s with ⟨_,_,_,accepted,_⟩ | ⟨_,_,ran⟩
  · exact (accepted_run accepted now).2 other different
  · rw [ran]

theorem accepted_changes {id : Bytes} (accepted : Accepted settings id body s request job status) (now : Time) :
    ∃ later, (run exec (handleFinishJob settings id body now) s).2.jobs.get id = some later ∧ later.status = status ∧
      job.status ≠ status := by
  obtain ⟨later,found,ends⟩ := (accepted_run accepted now).1
  refine ⟨later,found,ends,?_⟩
  intro equal
  have terminal := terminal_known accepted.terminal
  rw [← equal,accepted.going] at terminal
  cases terminal

end

section
variable {settings : Settings} {job : JobRecord}

end

end Kronos.FinishJob
