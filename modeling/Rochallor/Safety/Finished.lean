import Rochallor.Safety.Callbacks
import Rochallor.Safety.Isolation
import Rochallor.Safety.Status

/-! # Jobs that are done with

    `COMPLETED` and `CANCELLED` are final: no later transaction writes the
    status of such an instance.  `FAILED` is not, since `RetryFailedStep` takes
    the instance up again, with every job its other branches had.

    So a job whose callback the engine has answered is done with for good,
    unless its instance had failed by then.
-/

namespace Rochallor

/-! ## Final instances -/

/-- A status no operation takes an instance out of. -/
def InstanceStatus.final : InstanceStatus → Bool
  | .completed | .cancelled => true
  | _ => false

theorem InstanceStatus.final_eq_false {s : InstanceStatus}
    (h : s.inFlight = true ∨ s = .failed) : s.final = false := by
  rcases h with h | rfl
  · cases s <;> first | rfl | cases h
  · rfl

/-- The instance has ended for good. -/
def Db.Final (db : Db) (instanceID : Nat) : Prop :=
  ∃ inst ∈ db.instances, inst.id = instanceID ∧ inst.status.final = true

section Final

variable {svc : Service} {db db' : Db} {i : Nat}

/-- The entry points write to no final status. -/
theorem Db.Final.step (h : db.Final i) (hlog : Logged db) (hstep : StatusStep EntryWrite db db') :
    db'.Final i := by
  obtain ⟨inst, hinst, hid, hfinal⟩ := h
  cases hstep with
  | keep p f hrows hkey hstatus hdone hwrites hnext =>
    refine ⟨if p inst then f inst else inst, ?_, ?_, ?_⟩
    · rw [hrows]
      exact Table.mem_update.mpr ⟨inst, hinst, rfl⟩
    · split
      · exact (congrArg InstanceKey.id (hkey inst)).trans hid
      · exact hid
    · split
      · rw [hstatus]
        exact hfinal
      · exact hfinal
  | insert new hnew hflight hdone hrows hwrites hnext =>
    refine ⟨inst, ?_, hid, hfinal⟩
    rw [hrows]
    exact List.mem_append_left _ hinst
  | write w f row hrow hw hallowed hrows hkey hstatus hset hclear hkeep hwrites hnext =>
    have hfound : row.status.final = false := by
      rcases hallowed with ⟨hflight, -⟩ | ⟨hfailed, -, -⟩
      · exact InstanceStatus.final_eq_false (.inl hflight)
      · exact InstanceStatus.final_eq_false (.inr hfailed)
    have hother : inst.id ≠ w.instanceID := by
      intro heq
      have hlast := hlog.last inst hinst
      rw [heq, ← hw, hlog.last row hrow] at hlast
      rw [← Option.some.inj hlast, hfound] at hfinal
      cases hfinal
    refine ⟨inst, ?_, hid, hfinal⟩
    rw [hrows]
    exact Table.mem_update_of_not hinst (by simpa using hother)

theorem Db.Final.statuses (h : db.Final i) (hlog : Logged db) (hsteps : Statuses db db') :
    db'.Final i := by
  have : Logged db' ∧ db'.Final i := by
    induction hsteps with
    | refl => exact ⟨hlog, h⟩
    | tail _ hstep ih => exact ⟨ih.1.step hstep, ih.2.step ih.1 hstep⟩
  exact this.2

/-- A transaction on an instance that has not ended for good. -/
private theorem ne_of_final {d : WorkflowDefinition} {tx : Tx} (hwf : TxWF svc d tx)
    (h : tx.db.Final i) (hstatus : tx.inst.status.final = false) : tx.inst.id ≠ i := by
  rintro rfl
  obtain ⟨inst, hinst, hid, hfinal⟩ := h
  rw [hwf.row_status hinst hid, hstatus] at hfinal
  cases hfinal

theorem final_invariant (svc : Service) (i : Nat) :
    TxInvariant svc (fun db => db.WF svc ∧ Logged db) (fun d tx _ => TxWF svc d tx ∧ Logged tx.db)
      (fun _ _ => True) (fun _ => True) (fun db => db.Final i)
      (fun _ tx _ => tx.db.Final i ∧ tx.inst.id ≠ i) where
  opening := by
    intro db op now p fuel h₀ h _ hop
    have htables := h.statuses h₀.2 hop.statuses
    have hest := (wf_invariant svc).opening fuel trivial h₀.1 trivial hop
    have hagenda : ∀ {d tx steps}, p.agenda = some (d, tx, steps) →
        tx.inst.status.final = false := by
      intro d tx steps hp
      rcases hop.agenda_status h₀.1 hp with hfailed | ⟨hflight, -⟩
      · exact InstanceStatus.final_eq_false (.inr hfailed)
      · exact InstanceStatus.final_eq_false (.inl hflight)
    cases p with
    | commit db reply => exact htables
    | dispatch d tx steps => exact ⟨htables, ne_of_final hest htables (hagenda rfl)⟩
    | chain d tx steps source => exact ⟨htables, ne_of_final hest htables (hagenda rfl)⟩
  step := by
    intro now d tx step pending tx' next hJ h _ hfind hdisp
    obtain ⟨f, hv⟩ := hdisp.instance_view
    obtain ⟨⟨inst, hinst, hid, hfinal⟩, hne⟩ := h
    refine ⟨⟨inst, ?_, hid, hfinal⟩, ?_⟩
    · exact ((hdisp.untouched hJ.1 hfind hne).mem_instance hid).mpr hinst
    · have hid' : tx'.inst.id = tx.inst.id := congrArg InstanceKey.id hv.inst_key
      rw [hid']
      exact hne
  closing := fun _ h => h.1
  acknowledge := fun h => h

theorem logged_apply (hwf : db.WF svc) (h : Logged db) (call : Call) :
    Logged (apply svc db call) :=
  (((wf_invariant svc).and (logged_invariant svc)).apply ⟨hwf, h⟩ trivial fun _ _ => trivial).2

/-- A final status outlives every call. -/
theorem Db.Final.apply (h : db.Final i) (hwf : db.WF svc) (hlog : Logged db) (call : Call) :
    (apply svc db call).Final i := by
  have hinv := ((wf_invariant svc).and (logged_invariant svc)).and (final_invariant svc i)
  exact (hinv.apply ⟨⟨hwf, hlog⟩, h⟩ trivial fun _ _ => trivial).2

end Final

/-! ## Finished jobs -/

/-- A worker can still be asked to execute the job: it is `UNLOCKED`, its step
    execution is `RUNNING`, and the status of its instance is as given. -/
def Db.awaits (db : Db) (status : InstanceStatus → Bool) (job : Job) : Bool :=
  decide (job.status = .unlocked) &&
    (db.getStepExecution job.stepExecutionID).any (fun se => decide (se.status = .running)) &&
    (db.getInstance job.instanceID).any fun inst => status inst.status

theorem Db.awaits_eq_true {db : Db} {status : InstanceStatus → Bool} {job : Job} :
    db.awaits status job = true ↔ job.status = .unlocked ∧
      (∃ se, db.getStepExecution job.stepExecutionID = some se ∧ se.status = .running) ∧
      ∃ inst, db.getInstance job.instanceID = some inst ∧ status inst.status = true := by
  simp [Db.awaits, Option.any_eq_true, and_assoc]

/-- No worker will be asked to execute the job any more. -/
inductive Finished (db : Db) (jobID : Nat) : Prop
  | taken (job : Job) (hjob : job ∈ db.jobs) (hid : job.id = jobID) (h : job.status ≠ .unlocked)
  | closed (job : Job) (hjob : job ∈ db.jobs) (hid : job.id = jobID) (se : StepExecution)
      (hse : se ∈ db.stepExecutions) (hse_id : se.id = job.stepExecutionID)
      (h : se.status ≠ .running)
  | final (job : Job) (hjob : job ∈ db.jobs) (hid : job.id = jobID) (h : db.Final job.instanceID)

section Finished

variable {svc : Service} {db : Db} {jobID : Nat}

/-- A finished job awaits no worker. -/
theorem Finished.not_awaits (h : Finished db jobID) (hwf : db.WF svc) {job : Job} (hjob : job ∈ db.jobs)
    (hid : job.id = jobID) {status : InstanceStatus → Bool}
    (hstatus : ∀ s, status s = true → s.final = false) : db.awaits status job = false := by
  rw [Bool.eq_false_iff]
  intro hawaits
  obtain ⟨hunlocked, ⟨se, hse, hrun⟩, ⟨inst, hinst, hok⟩⟩ := Db.awaits_eq_true.mp hawaits
  cases h with
  | taken job' hjob' hid' h =>
    obtain rfl := hwf.job_eq hjob' hjob (hid'.trans hid.symm)
    exact h hunlocked
  | closed job' hjob' hid' se' hse' hse_id h =>
    obtain rfl := hwf.job_eq hjob' hjob (hid'.trans hid.symm)
    obtain rfl := hwf.step_eq hse' (getStepExecution_mem hse)
      (hse_id.trans (getStepExecution_id hse).symm)
    exact h hrun
  | final job' hjob' hid' h =>
    obtain rfl := hwf.job_eq hjob' hjob (hid'.trans hid.symm)
    obtain ⟨inst', hinst', hid', hfinal⟩ := h
    obtain rfl := hwf.instance_eq hinst' (getInstance_mem hinst)
      (hid'.trans (getInstance_id hinst).symm)
    rw [hstatus _ hok] at hfinal
    cases hfinal

/-- A finished job stays finished. -/
theorem Finished.apply (h : Finished db jobID) (hwf : db.WF svc) (hlog : Logged db) (call : Call) :
    Finished (apply svc db call) jobID := by
  have hev := evolves_apply hwf call
  have hkept : ∀ job ∈ db.jobs, ∃ job' ∈ (Rochallor.apply svc db call).jobs,
      Job.Later job job' ∧ job'.id = job.id ∧ job'.instanceID = job.instanceID ∧
      job'.stepExecutionID = job.stepExecutionID := by
    intro job hjob
    obtain ⟨job', hjob', hlater⟩ := hev.jobs.mem hjob
    exact ⟨job', hjob', hlater, congrArg ChildKey.id hlater.key,
      congrArg ChildKey.instanceID hlater.key, congrArg ChildKey.stepExecutionID hlater.key⟩
  cases h with
  | taken job hjob hid h =>
    obtain ⟨job', hjob', hlater, hid', -, -⟩ := hkept job hjob
    refine .taken job' hjob' (hid'.trans hid) ?_
    by_cases hlocked : job.status = .locked
    · rcases hlater.leased hlocked with hdead | ⟨hlocked', -⟩
      · intro heq
        simp [heq, JobStatus.live] at hdead
      · simp [hlocked']
    · have hdead : job.status.live = false := by
        cases hs : job.status <;> simp_all [JobStatus.live]
      rw [hlater.terminal hdead]
      exact h
  | closed job hjob hid se hse hse_id h =>
    obtain ⟨job', hjob', -, hid', -, hstep'⟩ := hkept job hjob
    obtain ⟨se', hse', hlater⟩ := hev.steps.mem hse
    obtain rfl := hlater.closed h
    exact .closed job' hjob' (hid'.trans hid) se' hse' (hse_id.trans hstep'.symm) h
  | final job hjob hid h =>
    obtain ⟨job', hjob', -, hid', hinst', -⟩ := hkept job hjob
    refine .final job' hjob' (hid'.trans hid) ?_
    rw [hinst']
    exact h.apply hwf hlog call

/-- A report looks at the rows of its job. -/
theorem report_callback {now : Time} {op : Op} {p : Plan} {workerID : String}
    (hop : op.Reports jobID workerID) (h : Opened svc now db op p) :
    ∃ job se inst, Callback db jobID job se inst := by
  cases h with
  | ignored op hrefused =>
    cases op with
    | completeJob j w vars =>
      obtain ⟨rfl, rfl⟩ := hop
      obtain ⟨job, se, inst, hcb, -⟩ := hrefused
      exact ⟨job, se, inst, hcb⟩
    | failJob j w msg retryable =>
      obtain ⟨rfl, rfl⟩ := hop
      obtain ⟨job, se, inst, hcb, -⟩ := hrefused
      exact ⟨job, se, inst, hcb⟩
    | _ => exact absurd hop id
  | outputsRejected j w vars job se inst violations hcb hacc =>
    exact ⟨job, se, inst, hop.1 ▸ hcb⟩
  | jobCompleted j w vars job se inst d step g hcb hacc hd hstep hnext =>
    exact ⟨job, se, inst, hop.1 ▸ hcb⟩
  | jobAdvanced j w vars job se inst d step g json tx next hcb hacc hd hstep hadv =>
    exact ⟨job, se, inst, hop.1 ▸ hcb⟩
  | jobRetried j w msg job se inst hcb hacc hretries => exact ⟨job, se, inst, hop.1 ▸ hcb⟩
  | jobFailed j w msg retryable job se inst hcb hacc => exact ⟨job, se, inst, hop.1 ▸ hcb⟩
  | jobReplaced op' j job se inst hop' hcb halive hlocked =>
    rcases hop' with rfl | ⟨rfl, -⟩ <;> exact absurd hop id
  | _ => exact absurd hop id

/-- A report that is not accepted is on a finished job, or on one that waits for
    its failed instance. -/
private theorem finished_of_ignored {now : Time} {job : Job} {se : StepExecution}
    {inst : WorkflowInstance} {workerID : String} (hcb : Callback db jobID job se inst)
    (hacc : (jobExecution now job se inst).acceptsCallback workerID = false)
    (hheeded : db.awaits (fun s => decide (s = .failed)) job = false) : Finished db jobID := by
  obtain ⟨hjob, hid⟩ := getJob_mem hcb.job_eq
  by_cases hunlocked : job.status = .unlocked
  · by_cases hrun : se.status = .running
    · refine .final job hjob hid ⟨inst, getInstance_mem hcb.inst_eq, getInstance_id hcb.inst_eq, ?_⟩
      have hended : inst.status.inFlight = false := by
        rw [Bool.eq_false_iff]
        intro hflight
        have hactive : (jobExecution now job se inst).active = true :=
          active_iff.mpr ⟨hflight, hrun⟩
        have hok : (jobExecution now job se inst).acceptsCallback workerID = true := by
          unfold JobExecution.acceptsCallback
          rw [hactive]
          simp [jobExecution, hunlocked]
        rw [hacc] at hok
        cases hok
      have hfailed : inst.status ≠ .failed := by
        intro hfailed
        rw [Bool.eq_false_iff] at hheeded
        exact hheeded (Db.awaits_eq_true.mpr
          ⟨hunlocked, ⟨se, hcb.se_eq, hrun⟩, inst, hcb.inst_eq, by simp [hfailed]⟩)
      cases hs : inst.status <;> simp_all [InstanceStatus.inFlight, InstanceStatus.final]
    · exact .closed job hjob hid se (getStepExecution_mem hcb.se_eq)
        (getStepExecution_id hcb.se_eq) hrun
  · exact .taken job hjob hid hunlocked

/-- A report the engine has answered without an error leaves its job finished,
    unless it found the job waiting for its failed instance. -/
theorem finished_of_answered (hwf : db.WF svc) (hlog : Logged db) {call : Call} {workerID : String}
    (hop : call.op.Reports jobID workerID) (hok : (perform svc db call).2 = none)
    (hheeded : ∀ job ∈ db.jobs, job.id = jobID →
      db.awaits (fun s => decide (s = .failed)) job = false) :
    Finished (Rochallor.apply svc db call) jobID := by
  obtain ⟨p, r, hp, hsettle, happly⟩ := perform_plan hok
  have hopened := plan_opened hp
  cases hacc : callbackAccepted call.now db jobID workerID with
  | true =>
    obtain ⟨job, hjob, hid, hdead⟩ := report_retires hop hacc hopened
    obtain ⟨job', hjob', hlater⟩ := (evolves_settle hwf hp hsettle).jobs.mem hjob
    obtain rfl := hlater.terminal hdead
    rw [happly]
    refine .taken job' hjob' hid ?_
    intro heq
    simp [heq, JobStatus.live] at hdead
  | false =>
    obtain ⟨job, se, inst, hcb⟩ := report_callback hop hopened
    rw [callbackAccepted_of hcb] at hacc
    obtain ⟨hjob, hid⟩ := getJob_mem hcb.job_eq
    exact (finished_of_ignored hcb hacc (hheeded job hjob hid)).apply hwf hlog call

end Finished

end Rochallor
