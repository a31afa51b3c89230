import Rochallor.Safety.Delivery
import Rochallor.Safety.Status

/-! # Polling workers

    `PollJobs` takes no instance lock and looks at job rows only.  A job it
    hands out stays with its worker until it is terminal, so of all the workers
    that ever polled a job of a step execution at most one can still report on
    it.  The instance of a job handed out may have ended meanwhile; then
    nothing that is reported on the job has any effect.
-/

namespace Rochallor

/-! ## Jobs handed out -/

/-- The rows a call returns to a polling worker. -/
def handedOut (db : Db) (call : Call) : List Job :=
  match call.op with
  | .poll workerID jobTypes max seconds rowLocked =>
    match pollWithLease call.now db workerID jobTypes max seconds rowLocked with
    | .ok (jobs, _) => jobs
    | .error _ => []
  | _ => []

/-- The row was `UNLOCKED` and is now leased to the worker who polled. -/
structure Leased (db db' : Db) (workerID : String) (job : Job) : Prop where
  unlocked : ∃ old ∈ db.jobs, old.key = job.key ∧ old.status = .unlocked
  locked : job.status = .locked
  owner : job.workerID = some workerID
  stored : job ∈ db'.jobs

section Polls

variable {svc : Service} {db : Db} {call : Call} {job : Job}

theorem pollJobs_leased (hwf : db.WF svc) {now : Time} {workerID : String}
    {jobTypes : List String} {max : Nat} {seconds : Int} {rowLocked : List Nat}
    (h : job ∈ (db.pollJobs now workerID jobTypes max seconds rowLocked).1) :
    Leased db (db.pollJobs now workerID jobTypes max seconds rowLocked).2 workerID job := by
  unfold Db.pollJobs at h ⊢
  split at h
  · cases h
  · rename_i hguard
    rw [if_neg hguard]
    obtain ⟨hmem, hclaim⟩ := List.mem_filter.mp h
    obtain ⟨r, hr, hrow⟩ := Table.mem_update.mp hmem
    by_cases hp : (db.pollCandidates jobTypes max rowLocked).contains r.id = true
    · rw [if_pos hp] at hrow
      subst hrow
      exact ⟨⟨r, hr, rfl, claimed_unlocked hwf hr (by simpa using hp)⟩, rfl, rfl, hmem⟩
    · rw [if_neg hp] at hrow
      subst hrow
      exact absurd hclaim hp

/-- Only a poll hands out jobs. -/
theorem handedOut_leased (hwf : db.WF svc) (h : job ∈ handedOut db call) :
    ∃ workerID, Leased db (apply svc db call) workerID job := by
  unfold handedOut at h
  split at h
  · rename_i workerID jobTypes max seconds rowLocked hop
    split at h
    · rename_i jobs db' hpoll
      have hsettle : apply svc db call = db' := by
        simp [apply, perform, transact, plan, hop, hpoll, Except.map, Plan.settle, bind,
          Except.bind]
      unfold pollWithLease at hpoll
      obtain ⟨lease, -, hpoll⟩ := bind_eq_ok hpoll
      have hclaim : db.pollJobs call.now workerID jobTypes max lease rowLocked = (jobs, db') :=
        Except.ok.inj hpoll
      obtain rfl := congrArg Prod.fst hclaim
      obtain rfl := congrArg Prod.snd hclaim
      rw [hsettle]
      exact ⟨workerID, pollJobs_leased hwf h⟩
    · cases h
  · cases h

end Polls

/-- Every job handed out so far is there in a later form. -/
structure Kept (svc : Service) (db : Db) (jobs : List Job) : Prop where
  wf : db.WF svc
  locked : ∀ job ∈ jobs, job.status = .locked
  later : ∀ job ∈ jobs, ∃ r ∈ db.jobs, job.Later r

theorem kept_step {svc : Service} {db : Db} {jobs : List Job} (h : Kept svc db jobs)
    (call : Call) : Kept svc (apply svc db call) (jobs ++ handedOut db call) where
  wf := wf_apply h.wf call
  locked := by
    intro job hjob
    rcases List.mem_append.mp hjob with hold | hnew
    · exact h.locked job hold
    · obtain ⟨workerID, hl⟩ := handedOut_leased h.wf hnew
      exact hl.locked
  later := by
    intro job hjob
    rcases List.mem_append.mp hjob with hold | hnew
    · obtain ⟨r, hr, hlater⟩ := h.later job hold
      obtain ⟨r', hr', hlater'⟩ := (evolves_apply h.wf call).jobs.mem hr
      exact ⟨r', hr', hlater.trans hlater'⟩
    · obtain ⟨workerID, hl⟩ := handedOut_leased h.wf hnew
      exact ⟨job, hl.stored, .refl job⟩

theorem kept_run (svc : Service) (calls : List Call) :
    Kept svc (run svc calls) (Run.outputs (apply svc) handedOut {} calls) := by
  have hstep : ∀ db jobs call, Kept svc db jobs → True →
      Kept svc (apply svc db call) (jobs ++ handedOut db call) :=
    fun _ _ call h _ => kept_step h call
  have h₀ : Kept svc {} [] := ⟨wf_empty svc, by simp, by simp⟩
  simpa [run] using Run.history (G := fun _ _ => True) hstep h₀ (Run.guarded_true _ calls)

/-! ## One worker at a time -/

/-- A polled job whose callback is accepted is still leased, to the worker who
    reports. -/
theorem Kept.accepted {svc : Service} {db : Db} {jobs : List Job} (h : Kept svc db jobs)
    {job : Job} (hjob : job ∈ jobs) {now : Time} {workerID : String}
    (hacc : callbackAccepted now db job.id workerID = true) :
    ∃ r se, r ∈ db.jobs ∧ r.key = job.key ∧ r.status.live = true ∧ r.workerID.getD "" = workerID ∧
      se ∈ db.stepExecutions ∧ se.id = job.stepExecutionID ∧ se.status = .running ∧
      se.stepType = .serviceTask := by
  obtain ⟨job', se, inst, hcb, hacc⟩ := callback_of_accepted hacc
  obtain ⟨⟨-, hrun⟩, hlive⟩ := alive_of_acceptsCallback hacc
  obtain ⟨r, hr, hlater⟩ := h.later job hjob
  have hrid : r.id = job.id := congrArg ChildKey.id hlater.key
  obtain rfl := hcb.job_unique h.wf r hr hrid
  have hrse : r.stepExecutionID = job.stepExecutionID := congrArg ChildKey.stepExecutionID hlater.key
  refine ⟨r, se, hr, hlater.key, hlive, ?_, getStepExecution_mem hcb.se_eq,
    (getStepExecution_id hcb.se_eq).trans hrse, hrun, (hcb.service h.wf).1⟩
  rcases hlater.leased (h.locked job hjob) with hdead | ⟨hlocked, -⟩
  · simp [hdead] at hlive
  · simp only [JobExecution.acceptsCallback, jobExecution, hlocked, Bool.and_eq_true,
      Bool.or_eq_true, decide_eq_true_eq, beq_iff_eq, reduceCtorEq, false_or, true_and] at hacc
    exact hacc.2.1

/-- In every run, a running service task has exactly one job to deliver, a
    running user task exactly one open task, and an open task a running step
    execution; and if two polled jobs of a step execution would both be
    accepted from the workers they were handed to, it is one job and one
    worker. -/
theorem work_delivered (svc : Service) (calls : List Call) :
    (∀ se ∈ (run svc calls).stepExecutions, se.status = .running → se.stepType = .serviceTask →
      (run svc calls).jobs.countP (liveFor se.id) = 1) ∧
    (∀ now, ∀ job ∈ Run.outputs (apply svc) handedOut {} calls,
      ∀ job' ∈ Run.outputs (apply svc) handedOut {} calls,
      job.stepExecutionID = job'.stepExecutionID → ∀ workerID workerID',
      callbackAccepted now (run svc calls) job.id workerID = true →
      callbackAccepted now (run svc calls) job'.id workerID' = true →
      job.id = job'.id ∧ workerID = workerID') ∧
    (∀ se ∈ (run svc calls).stepExecutions, se.status = .running → se.stepType = .userTask →
      (run svc calls).userTasks.countP (openFor se.id) = 1) ∧
    (∀ u ∈ (run svc calls).userTasks, u.status = .opened →
      ∃ se ∈ (run svc calls).stepExecutions, se.id = u.stepExecutionID ∧ se.status = .running) := by
  have hd := delivery_run svc calls
  have hk := kept_run svc calls
  refine ⟨hd.job, ?_, hd.task, hd.opened⟩
  intro now job hjob job' hjob' hse workerID workerID' hacc hacc'
  obtain ⟨r, se, hr, hkey, hlive, hw, hmem, hid, hrun, htype⟩ := hk.accepted hjob hacc
  obtain ⟨r', -, hr', hkey', hlive', hw', -⟩ := hk.accepted hjob' hacc'
  have hrse : r.stepExecutionID = se.id :=
    (congrArg ChildKey.stepExecutionID hkey).trans hid.symm
  have hrse' : r'.stepExecutionID = se.id :=
    (congrArg ChildKey.stepExecutionID hkey').trans (hse.symm.trans hid.symm)
  obtain rfl := hd.live_unique hmem hrun htype hr hr' hlive hlive' hrse hrse'
  have hjid : job.id = job'.id := congrArg ChildKey.id (hkey.symm.trans hkey')
  exact ⟨hjid, hw.symm.trans hw'⟩

/-! ## Jobs of ended instances -/

/-- A terminal status has been written for the instance at some time. -/
def Ended (db : Db) (instanceID : Nat) : Prop :=
  ∃ w ∈ db.statusWrites, w.instanceID = instanceID ∧ w.status.terminal = true

theorem Ended.mono {db db' : Db} {instanceID : Nat} (h : Ended db instanceID)
    (hw : db.statusWrites ⊆ db'.statusWrites) : Ended db' instanceID := by
  obtain ⟨w, hmem, rest⟩ := h
  exact ⟨w, hw hmem, rest⟩

/-- The live jobs of an instance that has never ended belong to running
    steps. -/
def JobsAlive (db : Db) : Prop :=
  ∀ job ∈ db.jobs, job.status.live = true → Ended db job.instanceID ∨
    ∃ se ∈ db.stepExecutions, se.id = job.stepExecutionID ∧ se.status = .running

namespace JobsAlive

variable {svc : Service} {db db' : Db}

/-- Closing step executions: a job left alive on one of them is a job of an
    instance that ends. -/
theorem close (h : JobsAlive db) {p : StepExecution → Bool}
    {f : StepExecution → StepExecution}
    (hs : db'.stepExecutions = Table.update p f db.stepExecutions)
    (hw : db.statusWrites ⊆ db'.statusWrites)
    (hj : ∀ job' ∈ db'.jobs, job'.status.live = true → Ended db' job'.instanceID ∨
      ∃ job ∈ db.jobs, job.status.live = true ∧ job'.key = job.key ∧
        ∀ se ∈ db.stepExecutions, se.id = job.stepExecutionID → p se = false) : JobsAlive db' := by
  intro job' hjob' hlive'
  rcases hj job' hjob' hlive' with hended | ⟨job, hjob, hlive, hkey, hp⟩
  · exact .inl hended
  · have hi : job'.instanceID = job.instanceID := congrArg ChildKey.instanceID hkey
    have hse : job'.stepExecutionID = job.stepExecutionID :=
      congrArg ChildKey.stepExecutionID hkey
    rw [hi, hse]
    rcases h job hjob hlive with hended | ⟨se, hmem, hid, hrun⟩
    · exact .inl (hended.mono hw)
    · refine .inr ⟨se, ?_, hid, hrun⟩
      rw [hs]
      exact Table.mem_update_of_not hmem (hp se hmem hid)

/-- Step executions are left alone, and every live job was one before. -/
theorem frame (h : JobsAlive db) (hs : db'.stepExecutions = db.stepExecutions)
    (hw : db.statusWrites ⊆ db'.statusWrites)
    (hj : ∀ job' ∈ db'.jobs, job'.status.live = true →
      ∃ job ∈ db.jobs, job.status.live = true ∧ job'.key = job.key) : JobsAlive db' := by
  refine h.close (p := fun _ => false) (f := id) (by rw [hs, Table.update_id]) hw ?_
  intro job' hjob' hlive'
  obtain ⟨job, hjob, hlive, hkey⟩ := hj job' hjob' hlive'
  exact .inr ⟨job, hjob, hlive, hkey, fun _ _ _ => rfl⟩

/-- Jobs and step executions are left alone. -/
theorem tables (h : JobsAlive db) (hs : db'.stepExecutions = db.stepExecutions)
    (hj : db'.jobs = db.jobs) (hw : db.statusWrites ⊆ db'.statusWrites) : JobsAlive db' :=
  h.frame hs hw fun job' hjob' hlive' => ⟨job', hj ▸ hjob', hlive', rfl⟩

/-- A live job after an update that retires what it touches is an old one the
    update has not touched. -/
theorem untouched {jobs : List Job} {p : Job → Bool} {g : Job → Job}
    (hg : ∀ r, (g r).status.live = false) {job' : Job} (hjob' : job' ∈ Table.update p g jobs)
    (hlive : job'.status.live = true) : job' ∈ jobs ∧ p job' = false := by
  obtain ⟨r, hr, rfl⟩ := Table.mem_update.mp hjob'
  by_cases hp : p r = true
  · simp [hp, hg] at hlive
  · simp only [hp, Bool.false_eq_true, if_false]
    exact ⟨hr, by simp⟩

/-- An accepted report closes the step together with its only live job. -/
theorem closeCallback (h : JobsAlive db) (hwf : db.WF svc) (hd : Delivery db) {jobID : Nat}
    {job : Job} {se : StepExecution} {inst : WorkflowInstance}
    (hcb : Callback db jobID job se inst) (hrun : se.status = .running)
    (hlive : job.status.live = true) {g : Job → Job} {f : StepExecution → StepExecution}
    (hs : db'.stepExecutions =
      Table.update (fun r => decide (r.id = se.id)) f db.stepExecutions)
    (hj : db'.jobs = Table.update (fun r => decide (r.id = jobID)) g db.jobs)
    (hw : db.statusWrites ⊆ db'.statusWrites) (hg : ∀ r, (g r).status.live = false) :
    JobsAlive db' := by
  refine h.close hs hw ?_
  intro job' hjob' hlive'
  rw [hj] at hjob'
  obtain ⟨hmem, hne⟩ := untouched hg hjob' hlive'
  refine .inr ⟨job', hmem, hlive', rfl, ?_⟩
  intro se' _ hid
  rw [decide_eq_false_iff_not] at hne ⊢
  intro heq
  -- the step execution has one live job, the one that reports
  obtain rfl := hd.live_unique (getStepExecution_mem hcb.se_eq) hrun (hcb.service hwf).1 hmem
    (getJob_mem hcb.job_eq).1 hlive' hlive (hid.symm.trans heq) (getStepExecution_id hcb.se_eq).symm
  exact hne (getJob_mem hcb.job_eq).2

/-- Closing steps of another type than `SERVICE_TASK` concerns no job. -/
theorem closeAt (h : JobsAlive db) (hwf : db.WF svc) {inst : WorkflowInstance}
    (hinst : inst ∈ db.instances) {d : WorkflowDefinition} (hd : Runs svc inst d)
    {step : WorkflowStep} (hfind : findStep d step.id = some step)
    (htype : step.type ≠ .serviceTask) {f : StepExecution → StepExecution}
    (hs : db'.stepExecutions =
      Table.update (Db.runningAt inst.id step.id) f db.stepExecutions)
    (hj : db'.jobs = db.jobs) (hw : db.statusWrites ⊆ db'.statusWrites) : JobsAlive db' := by
  refine h.close hs hw ?_
  intro job' hjob' hlive'
  rw [hj] at hjob'
  refine .inr ⟨job', hjob', hlive', rfl, ?_⟩
  intro se hse hid
  rw [Bool.eq_false_iff]
  intro hrun
  simp only [Db.runningAt, Bool.and_eq_true, decide_eq_true_eq] at hrun
  obtain ⟨se', hse', hid', -, hservice⟩ := hwf.job_step hjob'
  obtain rfl := hwf.step_eq hse' hse (hid'.trans hid.symm)
  exact htype ((hwf.step_type hinst hd hse' hrun.1.1 (hrun.1.2 ▸ hfind)).symm.trans hservice)

/-- A replacement belongs to the running step of the job it replaces. -/
theorem replace (h : JobsAlive db) {jobID : Nat} {job : Job} {se : StepExecution}
    {inst : WorkflowInstance} (hcb : Callback db jobID job se inst) (hrun : se.status = .running)
    {p : Job → Bool} {g : Job → Job} {new : Job} (hs : db'.stepExecutions = db.stepExecutions)
    (hw : db'.statusWrites = db.statusWrites) (hj : db'.jobs = Table.update p g db.jobs ++ [new])
    (hnew : new.stepExecutionID = job.stepExecutionID) (hg : ∀ r, (g r).status.live = false) :
    JobsAlive db' := by
  have hold : JobsAlive { db with jobs := Table.update p g db.jobs } :=
    h.frame rfl (List.Subset.refl _) fun r hr hlive => ⟨r, (untouched hg hr hlive).1, hlive, rfl⟩
  intro job' hjob' hlive'
  rw [hj] at hjob'
  rcases List.mem_append.mp hjob' with hjob' | hjob'
  · rcases hold job' hjob' hlive' with hended | hse
    · exact .inl (hended.mono (by rw [hw]; exact List.Subset.refl _))
    · exact .inr (hs ▸ hse)
  · obtain rfl := List.mem_singleton.mp hjob'
    refine .inr ⟨se, hs ▸ getStepExecution_mem hcb.se_eq, ?_, hrun⟩
    rw [hnew]
    exact getStepExecution_id hcb.se_eq

end JobsAlive

/-- Advancing past a step.  If it fails, the jobs of the instance are excused. -/
theorem Advanced.jobsAlive {svc : Service} {now : Time} {d : WorkflowDefinition} {tx tx' : Tx}
    {step : WorkflowStep} {next : List StepId} (h : Advanced now d tx step tx' next)
    (hwf : TxWF svc d tx) (ha : JobsAlive tx.db) : JobsAlive tx'.db := by
  have hadv : JobsAlive (advanced d tx step).db :=
    ha.tables rfl rfl (List.subset_append_left _ _)
  cases h with
  | on target htarget => exact hadv
  | stop hnext hlen => exact hadv
  | fail reason =>
    refine hadv.close rfl (List.subset_append_left _ _) ?_
    intro job hjob hlive
    by_cases hi : job.instanceID = tx.inst.id
    · exact .inl ⟨⟨tx.inst.id, .failed, .failInstance⟩, by simp, hi.symm, rfl⟩
    · refine .inr ⟨job, hjob, hlive, rfl, ?_⟩
      intro se hse hid
      obtain ⟨se', hse', hid', hinst', -⟩ := hwf.wf.job_step hjob
      obtain rfl := hwf.wf.step_eq hse' hse (hid'.trans hid.symm)
      have hne : se'.instanceID ≠ tx.inst.id := fun heq => hi (hinst'.symm.trans heq)
      simp [Db.runningAt, hne]

/-- A dispatch gives a new job a running step. -/
theorem Dispatched.jobsAlive {svc : Service} {now : Time} {d : WorkflowDefinition} {tx tx' : Tx}
    {step : WorkflowStep} {next : List StepId} (h : Dispatched svc now d tx step tx' next)
    (hwf : TxWF svc d tx) (hfind : findStep d step.id = some step) (ha : JobsAlive tx.db) :
    JobsAlive tx'.db := by
  obtain ⟨row, hrows, hkey, -, hstatus⟩ := h.rows hwf hfind
  obtain ⟨f, hv⟩ := h.instance_view
  obtain ⟨statement, -, -, hwrites⟩ := hv.writes
  intro job hjob hlive
  have hold : job ∈ tx.db.jobs → Ended tx'.db job.instanceID ∨
      ∃ se ∈ tx'.db.stepExecutions, se.id = job.stepExecutionID ∧ se.status = .running := by
    intro hmem
    rcases ha job hmem hlive with hended | ⟨se, hse, rest⟩
    · exact .inl (hended.mono (hwrites ▸ List.subset_append_left _ _))
    · exact .inr ⟨se, hrows ▸ List.mem_append_left _ hse, rest⟩
  rcases h.job_view with ⟨-, hj⟩ | ⟨hservice, new, hj, hjkey, -⟩
  · exact hold (hj ▸ hjob)
  · rw [hj] at hjob
    rcases List.mem_append.mp hjob with hjob | hjob
    · exact hold hjob
    · obtain rfl := List.mem_singleton.mp hjob
      refine .inr ⟨row, by rw [hrows]; simp, ?_, ?_⟩
      · exact (congrArg StepKey.id hkey).trans (congrArg ChildKey.stepExecutionID hjkey).symm
      · rw [hstatus, hservice]
        rfl

theorem jobsAlive_invariant (svc : Service) :
    TxInvariant svc (fun db => db.WF svc ∧ Delivery db)
      (fun d tx _ => TxWF svc d tx ∧ Delivery tx.db) (fun _ _ => True) (fun _ => True) JobsAlive
      (fun _ tx _ => JobsAlive tx.db) where
  opening := by
    intro db op now p _ hI h _ hop
    obtain ⟨hwf, hd⟩ := hI
    cases hop with
    | ignored op hrefused => exact h
    | started definitionID version vars businessKey d json key hd hsteps =>
      exact h.tables rfl rfl (List.subset_append_left _ _)
    | chainStarted source d json key hd hsteps hclaim =>
      exact h.tables rfl rfl (List.subset_append_left _ _)
    | outputsRejected jobID workerID vars job se inst violations hcb hacc =>
      refine h.close rfl (List.subset_append_left _ _) ?_
      intro job' hjob' hlive'
      obtain ⟨hmem, hne⟩ := JobsAlive.untouched (fun _ => rfl) hjob' hlive'
      refine .inr ⟨job', hmem, hlive', rfl, fun se' _ hid => ?_⟩
      simpa [hlive', hid] using hne
    | jobCompleted jobID workerID vars job se inst d step g hcb hacc hd' hstep hnext =>
      obtain ⟨⟨-, hrun⟩, hlive⟩ := alive_of_acceptsCallback hacc
      exact h.closeCallback hwf hd hcb hrun hlive rfl rfl (List.Subset.refl _) fun _ => rfl
    | jobAdvanced jobID workerID vars job se inst d step g json tx next hcb hacc hd' hstep hadv =>
      obtain ⟨⟨-, hrun⟩, hlive⟩ := alive_of_acceptsCallback hacc
      refine hadv.jobsAlive (jobClosed_wf hwf hcb.read_inst hd' ..) ?_
      exact h.closeCallback hwf hd hcb hrun hlive rfl rfl (List.Subset.refl _) fun _ => rfl
    | jobRetried jobID workerID errorMessage job se inst hcb hacc hretries =>
      obtain ⟨⟨-, hrun⟩, -⟩ := alive_of_acceptsCallback hacc
      exact h.replace hcb hrun (enqueueReplacement_stepExecutions ..)
        (enqueueReplacement_statusWrites ..) (enqueueReplacement_jobs ..) rfl fun _ => rfl
    | jobFailed jobID workerID errorMessage retryable job se inst hcb hacc =>
      obtain ⟨⟨-, hrun⟩, hlive⟩ := alive_of_acceptsCallback hacc
      exact h.closeCallback hwf hd hcb hrun hlive rfl rfl (List.subset_append_left _ _) fun _ => rfl
    | jobReplaced op jobID job se inst hop hcb halive hlocked =>
      exact h.replace hcb halive.2 (enqueueReplacement_stepExecutions ..)
        (enqueueReplacement_statusWrites ..) (enqueueReplacement_jobs ..) rfl fun _ => rfl
    | leaseExtended later jobID workerID seconds lease job se inst hcb halive hlocked howner hvalid =>
      refine h.frame rfl (List.Subset.refl _) ?_
      intro job' hjob' hlive'
      obtain ⟨r, hr, rfl⟩ := Table.mem_update.mp hjob'
      refine ⟨r, hr, ?_, by split <;> rfl⟩
      split at hlive' <;> exact hlive'
    | polled workerID jobTypes max seconds lease rowLocked =>
      unfold Db.pollJobs
      split
      · exact h
      · refine h.frame rfl (List.Subset.refl _) ?_
        intro job' hjob' hlive'
        obtain ⟨r, hr, rfl⟩ := Table.mem_update.mp hjob'
        refine ⟨r, hr, ?_, by split <;> rfl⟩
        split at hlive'
        · rename_i hclaim
          have := claimed_unlocked hwf hr (by simpa using hclaim)
          simp [this, JobStatus.live]
        · exact hlive'
    | userTaskCompleted stepID vars inst d step result merged g tx next hinst hflight hd' hstep
        htype hrows hadv =>
      obtain rfl := findStep_id hstep
      refine hadv.jobsAlive (taskClosed_wf hwf hinst hd' ..) ?_
      exact h.closeAt hwf (getInstance_mem hinst) hd' hstep (by simp [htype]) rfl rfl
        (List.Subset.refl _)
    | waitSignalled stepID vars inst d step merged g tx next hinst hflight hd' hstep htype hrows
        hadv =>
      obtain rfl := findStep_id hstep
      refine hadv.jobsAlive (waitClosed_wf hwf hinst hd' ..) ?_
      exact h.closeAt hwf (getInstance_mem hinst) hd' hstep (by simp [htype]) rfl rfl
        (List.Subset.refl _)
    | timerConsumed eventID inst event hinst hevent hdead =>
      exact h.tables rfl rfl (List.Subset.refl _)
    | timerInterrupts eventID inst event se d hinst hevent hinterrupting hse halive hd' =>
      refine h.close (p := fun r => decide (r.id = se.id)) rfl (List.Subset.refl _) ?_
      intro job' hjob' hlive'
      obtain ⟨hmem, hne⟩ := JobsAlive.untouched (fun _ => rfl) hjob' hlive'
      refine .inr ⟨job', hmem, hlive', rfl, fun se' _ hid => ?_⟩
      simpa [hlive', hid] using hne
    | timerForks eventID inst event se d hinst hevent hinterrupting hse halive hd' =>
      exact h.tables rfl rfl (List.Subset.refl _)
    | housekept retention => exact h.tables rfl rfl (List.Subset.refl _)
    | cancelled inst reason hinst hflight => exact h.tables rfl rfl (List.subset_append_left _ _)
    | stepRetried inst stepID patch d g json hinst hfailed hlatest hd' =>
      exact h.tables rfl rfl (List.subset_append_left _ _)
  step := fun hJ h _ hfind hdisp => hdisp.jobsAlive hJ.1 hfind h
  closing := fun _ h => h
  acknowledge := fun h => h.tables rfl rfl (List.Subset.refl _)

/-- The operation is a report, a heartbeat or a replacement of the job. -/
def Op.Concerns (jobID : Nat) : Op → Prop
  | .completeJob j _ _ | .failJob j _ _ _ | .heartbeat _ j _ _ | .retryJob j | .sweepLease j =>
    j = jobID
  | _ => False

/-- On a job whose instance or step is no longer alive nothing is planned. -/
theorem dead_plan {svc : Service} {now : Time} {db : Db} {op : Op} {p : Plan} {jobID : Nat}
    {job : Job} {se : StepExecution} {inst : WorkflowInstance}
    (hcb : Callback db jobID job se inst) (hdead : ¬ Alive se inst) (hop : op.Concerns jobID)
    (h : Opened svc now db op p) : p = .commit db none := by
  have hnot : ∀ {job' se' inst'}, Callback db jobID job' se' inst' → ¬ Alive se' inst' := by
    intro job' se' inst' hcb'
    obtain ⟨rfl, rfl, rfl⟩ := hcb'.unique hcb
    exact hdead
  cases h with
  | ignored op hrefused => rfl
  | outputsRejected j w vars job' se' inst' violations hcb' hacc =>
    obtain rfl : j = jobID := hop
    exact absurd (alive_of_acceptsCallback hacc).1 (hnot hcb')
  | jobCompleted j w vars job' se' inst' d step g hcb' hacc hd hstep hnext =>
    obtain rfl : j = jobID := hop
    exact absurd (alive_of_acceptsCallback hacc).1 (hnot hcb')
  | jobAdvanced j w vars job' se' inst' d step g json tx next hcb' hacc hd hstep hadv =>
    obtain rfl : j = jobID := hop
    exact absurd (alive_of_acceptsCallback hacc).1 (hnot hcb')
  | jobRetried j w msg job' se' inst' hcb' hacc hretries =>
    obtain rfl : j = jobID := hop
    exact absurd (alive_of_acceptsCallback hacc).1 (hnot hcb')
  | jobFailed j w msg retryable job' se' inst' hcb' hacc =>
    obtain rfl : j = jobID := hop
    exact absurd (alive_of_acceptsCallback hacc).1 (hnot hcb')
  | jobReplaced op' j job' se' inst' hop' hcb' halive hlocked =>
    rcases hop' with rfl | ⟨rfl, -⟩
    · obtain rfl : j = jobID := hop
      exact absurd halive (hnot hcb')
    · obtain rfl : j = jobID := hop
      exact absurd halive (hnot hcb')
  | leaseExtended later j w seconds lease job' se' inst' hcb' halive hlocked howner hvalid =>
    obtain rfl : j = jobID := hop
    exact absurd halive (hnot hcb')
  | _ => exact absurd hop id

theorem dead_apply {svc : Service} {db : Db} {call : Call} {jobID : Nat} {job : Job}
    {se : StepExecution} {inst : WorkflowInstance} (hcb : Callback db jobID job se inst)
    (hdead : ¬ Alive se inst) (hop : call.op.Concerns jobID) : apply svc db call = db := by
  unfold apply perform
  cases ht : transact svc db call with
  | error e => rfl
  | ok r =>
    obtain ⟨p, hp, hsettle⟩ := bind_eq_ok ht
    rw [dead_plan hcb hdead hop (plan_opened hp)] at hsettle
    cases hsettle
    rfl

/-- A job in the tables has its step execution and its instance there too. -/
theorem Db.WF.callback {svc : Service} {db : Db} (h : db.WF svc) {job : Job}
    (hjob : job ∈ db.jobs) : ∃ se inst, Callback db job.id job se inst := by
  obtain ⟨se, hse, hid, hinst, -⟩ := h.job_step hjob
  obtain ⟨i, hi, hikey, -⟩ := h.shape.step_instance se.key (List.mem_map_of_mem hse)
  obtain ⟨inst, hmem, rfl⟩ := List.mem_map.mp hi
  have hi' : inst.id = job.instanceID := hikey.trans hinst
  have hjobs := h.shape.job_ids.nodup
  have hsteps := h.shape.step_ids.nodup
  have hinsts := h.shape.instance_ids.nodup
  simp only [Db.shape, List.map_map] at hjobs hsteps hinsts
  exact ⟨se, inst, Table.find_eq_some hjobs hjob rfl, Table.find_eq_some hinsts hmem hi',
    Table.find_eq_some hsteps hse hid⟩

theorem logged_run (svc : Service) (calls : List Call) : Logged (run svc calls) :=
  (((wf_invariant svc).and (logged_invariant svc)).run ⟨wf_empty svc, logged_empty⟩
    ((Run.guarded_true _ calls).mono fun _ _ _ => ⟨trivial, fun _ _ => trivial⟩)).2

theorem jobsAlive_run (svc : Service) (calls : List Call) : JobsAlive (run svc calls) := by
  have hbase := (wf_invariant svc).and (delivery_invariant svc)
  have h₀ : (({} : Db).WF svc ∧ Delivery {}) ∧ JobsAlive {} :=
    ⟨⟨wf_empty svc, delivery_empty⟩, fun _ h => by simp at h⟩
  exact ((hbase.and (jobsAlive_invariant svc)).run h₀
    ((Run.guarded_true _ calls).mono fun _ _ _ => ⟨trivial, fun _ _ => trivial⟩)).2

/-- A terminal status has been written at some time. -/
theorem Logged.ended {db : Db} (h : Logged db) {r : WorkflowInstance} (hr : r ∈ db.instances)
    (hterm : r.status.terminal = true) : Ended db r.id := by
  obtain ⟨w, hw, hstatus⟩ := Option.map_eq_some_iff.mp (h.last r hr)
  obtain ⟨hmem, hid⟩ := Log.last_mem hw
  exact ⟨w, hmem, hid, by rw [hstatus]; exact hterm⟩

/-- Every job handed out was `UNLOCKED` and is leased to the worker who polled.
    As long as its instance has never been given a terminal status, the
    instance is in flight and the step is running.  Whenever, from the poll on,
    the instance is not in flight or the step not running, no report,
    heartbeat, forced retry or lease sweep of the job changes anything. -/
theorem polled_jobs_fenced (svc : Service) (calls more : List Call) (call : Call) (job : Job)
    (hjob : job ∈ handedOut (run svc calls) call) :
    (∃ workerID, Leased (run svc calls) (run svc (calls ++ [call])) workerID job) ∧
    (¬ Ended (run svc calls) job.instanceID → ∃ old se inst,
      Callback (run svc calls) job.id old se inst ∧ Alive se inst) ∧
    (∃ later se inst, Callback (run svc (calls ++ call :: more)) job.id later se inst ∧
      (¬ Alive se inst → ∀ c : Call, c.op.Concerns job.id →
        apply svc (run svc (calls ++ call :: more)) c = run svc (calls ++ call :: more))) := by
  have hwf := wf_run svc calls
  obtain ⟨workerID, hl⟩ := handedOut_leased hwf hjob
  refine ⟨⟨workerID, by rw [run_append]; exact hl⟩, ?_, ?_⟩
  · intro hnever
    obtain ⟨old, hold, hkey, hunlocked⟩ := hl.unlocked
    obtain ⟨se, inst, hcb⟩ := hwf.callback hold
    have hid : old.id = job.id := congrArg ChildKey.id hkey
    have hi : old.instanceID = job.instanceID := congrArg ChildKey.instanceID hkey
    refine ⟨old, se, inst, hid ▸ hcb, ?_, ?_⟩
    · by_contra hflight
      refine hnever ?_
      rw [← hi, ← getInstance_id hcb.inst_eq]
      exact (logged_run svc calls).ended (getInstance_mem hcb.inst_eq)
        (by simpa [InstanceStatus.terminal] using hflight)
    · have hlive : old.status.live = true := by simp [hunlocked, JobStatus.live]
      rcases jobsAlive_run svc calls old hold hlive with hended | ⟨se', hse', hid', hrun⟩
      · exact absurd (hi ▸ hended) hnever
      · obtain rfl := hwf.step_eq hse' (getStepExecution_mem hcb.se_eq)
          (hid'.trans (getStepExecution_id hcb.se_eq).symm)
        exact hrun
  · have hafter : run svc (calls ++ call :: more) =
        Run.after (apply svc) (apply svc (run svc calls) call) more := by
      rw [run_append]
      rfl
    obtain ⟨later, hlater, hkey⟩ : ∃ later ∈ (run svc (calls ++ call :: more)).jobs,
        later.id = job.id := by
      rw [hafter]
      obtain ⟨later, hmem, hlater⟩ := (evolves_after (wf_apply hwf call) more).jobs.mem hl.stored
      exact ⟨later, hmem, congrArg ChildKey.id hlater.key⟩
    obtain ⟨se, inst, hcb⟩ := (wf_run svc _).callback hlater
    rw [hkey] at hcb
    exact ⟨later, se, inst, hcb, fun hdead c hc => dead_apply hcb hdead hc⟩

/-- A charge, then `END`. -/
def chargeOnly : WorkflowDefinition where
  id := "charge-only"
  version := 1
  name := "charge only"
  steps := [
    { id := "charge", name := "charge", type := .serviceTask, jobType := "charge",
      nextStep := "end" },
    { id := "end", name := "end", type := .endStep }]

/-- A worker polls for charges. -/
def pollCharge : Call :=
  ⟨.poll "worker" ["charge"] 1 30 [], 2, 16⟩

/-- The job of a cancelled instance is handed out. -/
theorem cancelled_job_polled :
    ¬ ∀ svc : Service, svc.Uploaded Accepted → ∀ calls call, ∀ job ∈ handedOut (run svc calls) call,
      ∃ old se inst, Callback (run svc calls) job.id old se inst ∧ Alive se inst := by
  intro h
  have hup : (Service.ofList [chargeOnly]).Uploaded Accepted :=
    Service.uploaded_ofList (by decide +kernel)
  let cancelled := run (Service.ofList [chargeOnly]) [chargeOnly.start, ⟨.cancel 0 "", 1, 16⟩]
  have hpolled : handedOut cancelled pollCharge ≠ [] := by
    rw [← List.length_pos_iff]
    decide +kernel
  obtain ⟨job, hjob⟩ := List.exists_mem_of_ne_nil _ hpolled
  obtain ⟨old, se, inst, hcb, hflight, -⟩ := h _ hup _ _ job hjob
  have hstatus : cancelled.instances.all fun r => decide (r.status = .cancelled) := by
    decide +kernel
  have := List.all_eq_true.mp hstatus inst (getInstance_mem hcb.inst_eq)
  rw [of_decide_eq_true this] at hflight
  cases hflight

theorem polled_jobs_fenced_chargeOnly : ∃ job,
    (∃ workerID, Leased (run (Service.ofList [chargeOnly]) [chargeOnly.start])
      (run (Service.ofList [chargeOnly]) [chargeOnly.start, pollCharge]) workerID job) ∧
    ∃ later se inst, Callback (run (Service.ofList [chargeOnly])
      [chargeOnly.start, pollCharge, ⟨.cancel 0 "", 3, 16⟩]) job.id later se inst ∧
      ∀ c : Call, c.op.Concerns job.id →
        apply (Service.ofList [chargeOnly]) (run (Service.ofList [chargeOnly])
          [chargeOnly.start, pollCharge, ⟨.cancel 0 "", 3, 16⟩]) c =
        run (Service.ofList [chargeOnly])
          [chargeOnly.start, pollCharge, ⟨.cancel 0 "", 3, 16⟩] := by
  have hpolled : handedOut (run (Service.ofList [chargeOnly]) [chargeOnly.start]) pollCharge ≠ [] := by
    rw [← List.length_pos_iff]
    decide +kernel
  obtain ⟨job, hjob⟩ := List.exists_mem_of_ne_nil _ hpolled
  obtain ⟨hl, -, later, se, inst, hcb, hfence⟩ := polled_jobs_fenced (Service.ofList [chargeOnly])
    [chargeOnly.start] [⟨.cancel 0 "", 3, 16⟩] pollCharge job hjob
  refine ⟨job, hl, later, se, inst, hcb, hfence ?_⟩
  rintro ⟨hflight, -⟩
  have hstatus : (run (Service.ofList [chargeOnly]) ([chargeOnly.start] ++ pollCharge ::
      [⟨.cancel 0 "", 3, 16⟩])).instances.all fun r => decide (r.status = .cancelled) := by
    decide +kernel
  have := List.all_eq_true.mp hstatus inst (getInstance_mem hcb.inst_eq)
  rw [of_decide_eq_true this] at hflight
  cases hflight

end Rochallor
