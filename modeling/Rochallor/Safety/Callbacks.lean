import Rochallor.Safety.Lifecycle

/-! # Job callbacks

    Every callback re-reads the instance, the step and the job under their
    locks and is dropped if one of them is no longer alive or if the lease is
    not the caller's.  So a job id is good for one completion or failure, and a
    stale call changes nothing at all.
-/

namespace Rochallor

/-! ## Accepted callbacks -/

/-- Whether a completion or failure by `workerID` would be accepted. -/
def callbackAccepted (now : Time) (db : Db) (jobID : Nat) (workerID : String) : Bool :=
  match lockJobExecution now db jobID with
  | .error _ => false
  | .ok state => state.acceptsCallback workerID

/-- The job whose completion or failure takes effect in this call, if any. -/
def acceptedCallbacks (svc : Service) (db : Db) (call : Call) : List Nat :=
  match transact svc db call, call.op with
  | .ok _, .completeJob jobID workerID _ =>
    if callbackAccepted call.now db jobID workerID then [jobID] else []
  | .ok _, .failJob jobID workerID _ _ =>
    if callbackAccepted call.now db jobID workerID then [jobID] else []
  | _, _ => []

theorem callbackAccepted_of {now : Time} {db : Db} {jobID : Nat} {job : Job}
    {se : StepExecution} {inst : WorkflowInstance} (h : Callback db jobID job se inst)
    (workerID : String) : callbackAccepted now db jobID workerID =
      (jobExecution now job se inst).acceptsCallback workerID := by
  unfold callbackAccepted
  rw [lockJobExecution_of h]

theorem callback_of_accepted {now : Time} {db : Db} {jobID : Nat} {workerID : String}
    (h : callbackAccepted now db jobID workerID = true) :
    ∃ job se inst, Callback db jobID job se inst ∧
      (jobExecution now job se inst).acceptsCallback workerID = true := by
  unfold callbackAccepted at h
  split at h
  · cases h
  · rename_i state hstate
    obtain ⟨job, se, inst, hcb, rfl⟩ := lockJobExecution_eq_ok hstate
    exact ⟨job, se, inst, hcb, h⟩

/-- The rows of a callback are determined by the job id. -/
theorem Callback.unique {db : Db} {jobID : Nat} {job job' : Job} {se se' : StepExecution}
    {inst inst' : WorkflowInstance} (h : Callback db jobID job se inst)
    (h' : Callback db jobID job' se' inst') : job' = job ∧ se' = se ∧ inst' = inst := by
  obtain rfl : job' = job := Option.some.inj (h'.job_eq.symm.trans h.job_eq)
  exact ⟨rfl, Option.some.inj (h'.se_eq.symm.trans h.se_eq),
    Option.some.inj (h'.inst_eq.symm.trans h.inst_eq)⟩

theorem Advanced.jobs {now : Time} {d : WorkflowDefinition} {tx tx' : Tx} {step : WorkflowStep}
    {next : List StepId} (h : Advanced now d tx step tx' next) : tx'.db.jobs = tx.db.jobs := by
  cases h <;> rfl

/-- The operation is a completion or failure of the job by the worker. -/
def Op.Reports (jobID : Nat) (workerID : String) : Op → Prop
  | .completeJob j w _ | .failJob j w _ _ => j = jobID ∧ w = workerID
  | _ => False

section Accepted

variable {svc : Service} {now : Time} {db : Db} {op : Op} {p : Plan} {jobID : Nat}
  {workerID : String}

/-- An update that retires the job puts a terminal row in place of it. -/
private theorem retired_row {job : Job} {q : Job → Bool} (f : Job → Job) {jobs : List Job}
    (hjob : db.getJob jobID = some job) (hq : q job = true) (hid : (f job).id = job.id)
    (hdead : (f job).status.live = false) (hsub : ∀ r ∈ Table.update q f db.jobs, r ∈ jobs) :
    ∃ job ∈ jobs, job.id = jobID ∧ job.status.live = false := by
  obtain ⟨hmem, hjid⟩ := getJob_mem hjob
  exact ⟨f job, hsub _ (Table.mem_update_of hmem hq), hid.trans hjid, hdead⟩

/-- An accepted report retires its job before anything is dispatched. -/
theorem report_retires (hop : op.Reports jobID workerID)
    (hacc : callbackAccepted now db jobID workerID = true) (h : Opened svc now db op p) :
    ∃ job ∈ p.tables.jobs, job.id = jobID ∧ job.status.live = false := by
  have hown : ∀ job se inst, Callback db jobID job se inst → decide (job.id = jobID) = true :=
    fun job se inst hcb => by simp [(getJob_mem hcb.job_eq).2]
  cases h with
  | ignored op hrefused =>
    exfalso
    cases op with
    | completeJob j w vars =>
      obtain ⟨rfl, rfl⟩ := hop
      obtain ⟨job, se, inst, hcb, hno⟩ := hrefused
      rw [callbackAccepted_of hcb, hno] at hacc
      cases hacc
    | failJob j w msg retryable =>
      obtain ⟨rfl, rfl⟩ := hop
      obtain ⟨job, se, inst, hcb, hno⟩ := hrefused
      rw [callbackAccepted_of hcb, hno] at hacc
      cases hacc
    | _ => exact hop
  | outputsRejected j w vars job se inst violations hcb hacc' =>
    obtain ⟨rfl, rfl⟩ := hop
    obtain ⟨-, hlive⟩ := alive_of_acceptsCallback hacc'
    refine retired_row (fun r => { r with status := .cancelled }) hcb.job_eq ?_ rfl rfl
      fun r hr => hr
    simp [hlive, getStepExecution_id hcb.se_eq]
  | jobCompleted j w vars job se inst d step g hcb hacc' hd hstep hnext =>
    obtain ⟨rfl, rfl⟩ := hop
    exact retired_row (fun r => { r with status := .completed, workerID := some w }) hcb.job_eq
      (hown _ _ _ hcb) rfl rfl fun r hr => hr
  | jobAdvanced j w vars job se inst d step g json tx next hcb hacc' hd hstep hadv =>
    obtain ⟨rfl, rfl⟩ := hop
    refine retired_row (q := fun r => decide (r.id = j))
      (fun r => { r with status := .completed, workerID := some w }) hcb.job_eq
      (hown _ _ _ hcb) rfl rfl fun r hr => ?_
    rw [Plan.tables, hadv.jobs]
    exact hr
  | jobRetried j w msg job se inst hcb hacc' hretries =>
    obtain ⟨rfl, rfl⟩ := hop
    refine retired_row (q := fun r => decide (r.id = j))
      (fun r => { r with status := .failed, workerID := some w }) hcb.job_eq
      (hown _ _ _ hcb) rfl rfl fun r hr => ?_
    rw [Plan.tables, enqueueReplacement_jobs]
    exact List.mem_append_left _ hr
  | jobFailed j w msg retryable job se inst hcb hacc' =>
    obtain ⟨rfl, rfl⟩ := hop
    exact retired_row (fun r => { r with status := .failed, workerID := some w }) hcb.job_eq
      (hown _ _ _ hcb) rfl rfl fun r hr => hr
  | jobReplaced op' j job se inst hop' hcb halive hlocked =>
    rcases hop' with rfl | ⟨rfl, -⟩ <;> exact absurd hop id
  | _ => exact absurd hop id

end Accepted

/-! ## One callback a job -/

/-- A job reported on is terminal, and each report names another job. -/
structure Reported (svc : Service) (db : Db) (reports : List Nat) : Prop where
  wf : db.WF svc
  nodup : reports.Nodup
  terminal : ∀ jobID ∈ reports, ∃ job ∈ db.jobs, job.id = jobID ∧ job.status.live = false

section Reports

variable {svc : Service} {db : Db} {call : Call}

/-- An accepted report finds its job live. -/
theorem accepted_live {jobID : Nat} (h : jobID ∈ acceptedCallbacks svc db call) :
    ∃ workerID r, call.op.Reports jobID workerID ∧ transact svc db call = .ok r ∧
      callbackAccepted call.now db jobID workerID = true := by
  unfold acceptedCallbacks at h
  split at h
  · rename_i r j w vars ht hop
    split at h
    · obtain rfl := List.mem_singleton.mp h
      exact ⟨w, r, by rw [hop]; exact ⟨rfl, rfl⟩, ht, by assumption⟩
    · cases h
  · rename_i r j w msg retryable ht hop
    split at h
    · obtain rfl := List.mem_singleton.mp h
      exact ⟨w, r, by rw [hop]; exact ⟨rfl, rfl⟩, ht, by assumption⟩
    · cases h
  · cases h

theorem acceptedCallbacks_nodup : (acceptedCallbacks svc db call).Nodup := by
  unfold acceptedCallbacks
  split
  · split <;> simp
  · split <;> simp
  · simp

/-- An accepted report leaves its job terminal. -/
theorem accepted_terminal {jobID : Nat} (hwf : db.WF svc)
    (h : jobID ∈ acceptedCallbacks svc db call) :
    ∃ job ∈ (apply svc db call).jobs, job.id = jobID ∧ job.status.live = false := by
  obtain ⟨workerID, r, hop, ht, hacc⟩ := accepted_live h
  obtain ⟨p, hp, hsettle⟩ := bind_eq_ok ht
  obtain ⟨job, hjob, hid, hdead⟩ := report_retires hop hacc (plan_opened hp)
  obtain ⟨job', hjob', hlater⟩ := (evolves_settle hwf hp hsettle).jobs.mem hjob
  obtain rfl := hlater.terminal hdead
  refine ⟨job', ?_, hid, hdead⟩
  unfold apply perform
  rw [ht]
  exact hjob'

theorem reported_step {reports : List Nat} (h : Reported svc db reports) :
    Reported svc (apply svc db call) (reports ++ acceptedCallbacks svc db call) where
  wf := wf_apply h.wf call
  nodup := by
    refine List.nodup_append.mpr ⟨h.nodup, acceptedCallbacks_nodup, ?_⟩
    rintro jobID hold _ hnew rfl
    -- the job was terminal already, so the report cannot be accepted
    obtain ⟨job, hjob, hid, hdead⟩ := h.terminal jobID hold
    obtain ⟨workerID, r, -, -, hacc⟩ := accepted_live hnew
    obtain ⟨job', se, inst, hcb, hacc⟩ := callback_of_accepted hacc
    obtain rfl := hcb.job_unique h.wf job hjob hid
    obtain ⟨-, hlive⟩ := alive_of_acceptsCallback hacc
    simp [hdead] at hlive
  terminal := by
    intro jobID hmem
    rcases List.mem_append.mp hmem with hold | hnew
    · obtain ⟨job, hjob, hid, hdead⟩ := h.terminal jobID hold
      obtain ⟨job', hjob', hlater⟩ := (evolves_apply h.wf call).jobs.mem hjob
      obtain rfl := hlater.terminal hdead
      exact ⟨job', hjob', hid, hdead⟩
    · exact accepted_terminal h.wf hnew

theorem reported_run (svc : Service) (calls : List Call) :
    Reported svc (run svc calls) (Run.outputs (apply svc) (acceptedCallbacks svc) {} calls) := by
  have hstep : ∀ db reports call, Reported svc db reports → True →
      Reported svc (apply svc db call) (reports ++ acceptedCallbacks svc db call) :=
    fun _ _ _ h _ => reported_step h
  have h₀ : Reported svc {} [] := ⟨wf_empty svc, List.nodup_nil, by simp⟩
  simpa [run] using Run.history (G := fun _ _ => True) hstep h₀ (Run.guarded_true _ calls)

end Reports

/-! ## Fenced calls -/

/-- Why a callback by `workerID` is stale. -/
inductive Stale (now : Time) (job : Job) (se : StepExecution) (inst : WorkflowInstance)
    (workerID : String) : Prop
  | instanceEnded (h : inst.status.inFlight = false)
  | stepClosed (h : se.status ≠ .running)
  | jobTerminal (h : job.status.live = false)
  | otherWorker (other : String) (hlocked : job.status = .locked)
      (howner : job.workerID = some other) (h : other ≠ workerID)
  | leaseExpired (t : Time) (hlocked : job.status = .locked)
      (hlease : job.lockExpiresAt = some t) (h : t ≤ now)

/-- The calls the engine fences off: stale completions, failures and
    heartbeats, a forced retry of a job that is not leased, and a lease sweep
    of a job whose lease is still valid. -/
inductive Fenced (now : Time) (db : Db) : Op → Prop
  | complete (jobID : Nat) (workerID : String) (vars : GoMap Value) (job : Job)
      (se : StepExecution) (inst : WorkflowInstance) (hcb : Callback db jobID job se inst)
      (hstale : Stale now job se inst workerID) :
      Fenced now db (.completeJob jobID workerID vars)
  | fail (jobID : Nat) (workerID errorMessage : String) (retryable : Bool) (job : Job)
      (se : StepExecution) (inst : WorkflowInstance) (hcb : Callback db jobID job se inst)
      (hstale : Stale now job se inst workerID) :
      Fenced now db (.failJob jobID workerID errorMessage retryable)
  | heartbeat (later : Time) (jobID : Nat) (workerID : String) (seconds : Int) (job : Job)
      (se : StepExecution) (inst : WorkflowInstance) (hcb : Callback db jobID job se inst)
      (hstale : Stale now job se inst workerID) :
      Fenced now db (.heartbeat later jobID workerID seconds)
  | retry (jobID : Nat) (job : Job) (se : StepExecution) (inst : WorkflowInstance)
      (hcb : Callback db jobID job se inst) (h : job.status ≠ .locked) :
      Fenced now db (.retryJob jobID)
  | sweep (jobID : Nat) (job : Job) (se : StepExecution) (inst : WorkflowInstance) (t : Time)
      (hcb : Callback db jobID job se inst) (hlease : job.lockExpiresAt = some t) (h : now < t) :
      Fenced now db (.sweepLease jobID)

section Fence

variable {svc : Service} {now : Time} {db : Db} {job : Job} {se : StepExecution}
  {inst : WorkflowInstance} {workerID : String}

/-- A stale callback is not accepted. -/
theorem Stale.rejected (h : Stale now job se inst workerID) :
    (jobExecution now job se inst).acceptsCallback workerID = false := by
  rw [Bool.eq_false_iff]
  intro hacc
  obtain ⟨⟨hflight, hrun⟩, hlive⟩ := alive_of_acceptsCallback hacc
  simp only [JobExecution.acceptsCallback, Bool.and_eq_true, Bool.or_eq_true, decide_eq_true_eq,
    beq_iff_eq] at hacc
  cases h with
  | instanceEnded h => simp [h] at hflight
  | stepClosed h => exact h hrun
  | jobTerminal h => simp [h] at hlive
  | otherWorker other hlocked howner h =>
    rcases hacc.2 with hu | ⟨⟨-, hw⟩, -⟩
    · simp [jobExecution, hlocked] at hu
    · simp only [jobExecution, howner, Option.getD_some] at hw
      exact h hw
  | leaseExpired t hlocked hlease h =>
    rcases hacc.2 with hu | ⟨-, hv⟩
    · simp [jobExecution, hlocked] at hu
    · simp only [jobExecution, hlease, Option.any_some, decide_eq_true_eq] at hv
      exact absurd hv (Int.not_lt.mpr h)

/-- A stale heartbeat does not find the lease it renews. -/
theorem Stale.no_lease (h : Stale now job se inst workerID) (halive : Alive se inst)
    (hlocked : job.status = .locked) (howner : job.workerID.getD "" = workerID)
    (hvalid : (jobExecution now job se inst).leaseValid = true) : False := by
  cases h with
  | instanceEnded h => simp [halive.1] at h
  | stepClosed h => exact h halive.2
  | jobTerminal h => simp [hlocked, JobStatus.live] at h
  | otherWorker other _ howner' h =>
    rw [howner', Option.getD_some] at howner
    exact h howner
  | leaseExpired t _ hlease h =>
    simp only [jobExecution, hlease, Option.any_some, decide_eq_true_eq] at hvalid
    exact absurd hvalid (Int.not_lt.mpr h)

/-- A fenced call plans nothing. -/
theorem fenced_plan {op : Op} {p : Plan} (hf : Fenced now db op) (h : Opened svc now db op p) :
    p = .commit db none := by
  cases h with
  | ignored op hrefused => rfl
  | outputsRejected jobID w vars job se inst violations hcb hacc =>
    cases hf with
    | complete _ _ _ job' se' inst' hcb' hstale =>
      obtain ⟨rfl, rfl, rfl⟩ := hcb'.unique hcb
      simp [hstale.rejected] at hacc
  | jobCompleted jobID w vars job se inst d step g hcb hacc hd hstep hnext =>
    cases hf with
    | complete _ _ _ job' se' inst' hcb' hstale =>
      obtain ⟨rfl, rfl, rfl⟩ := hcb'.unique hcb
      simp [hstale.rejected] at hacc
  | jobAdvanced jobID w vars job se inst d step g json tx next hcb hacc hd hstep hadv =>
    cases hf with
    | complete _ _ _ job' se' inst' hcb' hstale =>
      obtain ⟨rfl, rfl, rfl⟩ := hcb'.unique hcb
      simp [hstale.rejected] at hacc
  | jobRetried jobID w msg job se inst hcb hacc hretries =>
    cases hf with
    | fail _ _ _ _ job' se' inst' hcb' hstale =>
      obtain ⟨rfl, rfl, rfl⟩ := hcb'.unique hcb
      simp [hstale.rejected] at hacc
  | jobFailed jobID w msg retryable job se inst hcb hacc =>
    cases hf with
    | fail _ _ _ _ job' se' inst' hcb' hstale =>
      obtain ⟨rfl, rfl, rfl⟩ := hcb'.unique hcb
      simp [hstale.rejected] at hacc
  | jobReplaced op jobID job se inst hop hcb halive hlocked =>
    rcases hop with rfl | ⟨rfl, hexpired⟩
    · cases hf with
      | retry _ job' se' inst' hcb' h =>
        obtain ⟨rfl, rfl, rfl⟩ := hcb'.unique hcb
        exact absurd hlocked h
    · cases hf with
      | sweep _ job' se' inst' t hcb' hlease h =>
        obtain ⟨rfl, rfl, rfl⟩ := hcb'.unique hcb
        simp only [jobExecution, hlease, Option.any_some, decide_eq_false_iff_not] at hexpired
        exact absurd h hexpired
  | leaseExtended later jobID w seconds lease job se inst hcb halive hlocked howner hvalid =>
    cases hf with
    | heartbeat _ _ _ _ job' se' inst' hcb' hstale =>
      obtain ⟨rfl, rfl, rfl⟩ := hcb'.unique hcb
      exact (hstale.no_lease halive hlocked howner hvalid).elim
  | _ => cases hf

/-- A fenced call changes nothing. -/
theorem fenced_apply {call : Call} (h : Fenced call.now db call.op) : apply svc db call = db := by
  unfold apply perform
  cases ht : transact svc db call with
  | error e => rfl
  | ok r =>
    obtain ⟨p, hp, hsettle⟩ := bind_eq_ok ht
    rw [fenced_plan h (plan_opened hp)] at hsettle
    cases hsettle
    rfl

end Fence

/-- In every run: a step execution that has left `RUNNING` and a job that has
    left `UNLOCKED` and `LOCKED` are found unchanged ever after, no job id has
    two completions or failures accepted, and a fenced call leaves the whole
    state as it was. -/
theorem callbacks_fenced (svc : Service) (calls more : List Call) :
    (∀ se, (run svc calls).getStepExecution se.id = some se → se.status ≠ .running →
      (run svc (calls ++ more)).getStepExecution se.id = some se) ∧
    (∀ job, (run svc calls).getJob job.id = some job → job.status.live = false →
      (run svc (calls ++ more)).getJob job.id = some job) ∧
    (Run.outputs (apply svc) (acceptedCallbacks svc) {} calls).Nodup ∧
    (∀ call, Fenced call.now (run svc calls) call.op →
      apply svc (run svc calls) call = run svc calls) := by
  have hwf := wf_run svc calls
  refine ⟨?_, ?_, (reported_run svc calls).nodup, fun call h => fenced_apply h⟩
  · intro se hse hclosed
    rw [run_append]
    exact closed_step_stable hwf more hse hclosed
  · intro job hjob hdead
    rw [run_append]
    exact terminal_job_stable hwf more hjob hdead

end Rochallor
