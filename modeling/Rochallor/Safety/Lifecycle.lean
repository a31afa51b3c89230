import Rochallor.Safety.Shape

/-! # Row lifecycles

    Which changes a row can undergo, whatever operation makes them.  A step
    execution changes only while it is running and a job only while it is live;
    a leased job is never handed to another worker.  These relations are
    preorders, so what holds of one write holds of a call and of a run.

    On top of them: a job accepts at most one callback, and the callbacks the
    engine fences off leave no trace.
-/

namespace Rochallor

/-! ## Later forms of a row -/

def WorkflowInstance.Later (r r' : WorkflowInstance) : Prop :=
  r'.key = r.key

theorem WorkflowInstance.Later.refl (r : WorkflowInstance) : Later r r := rfl

/-- Once closed, a step execution is never written again. -/
structure StepExecution.Later (r r' : StepExecution) : Prop where
  key : r'.key = r.key
  attempt : r'.attemptNumber = r.attemptNumber
  closed : r.status ≠ .running → r' = r

/-- Once terminal, a job is never written again, and a leased job stays with
    its worker. -/
structure Job.Later (r r' : Job) : Prop where
  key : r'.key = r.key
  terminal : r.status.live = false → r' = r
  leased : r.status = .locked →
    r'.status.live = false ∨ (r'.status = .locked ∧ r'.workerID = r.workerID)

structure UserTask.Later (r r' : UserTask) : Prop where
  key : r'.key = r.key
  closed : r.status ≠ .opened → r' = r

namespace StepExecution.Later

theorem refl (r : StepExecution) : Later r r := ⟨rfl, rfl, fun _ => rfl⟩

theorem trans {a b c : StepExecution} (h : Later a b) (h' : Later b c) : Later a c where
  key := h'.key.trans h.key
  attempt := h'.attempt.trans h.attempt
  closed := by
    intro ha
    obtain rfl := h.closed ha
    exact h'.closed ha

/-- A running row may be closed. -/
theorem of_running {r r' : StepExecution} (h : r.status = .running) (hkey : r'.key = r.key)
    (hattempt : r'.attemptNumber = r.attemptNumber) : Later r r' :=
  ⟨hkey, hattempt, fun hne => absurd h hne⟩

end StepExecution.Later

namespace Job.Later

theorem refl (r : Job) : Later r r := ⟨rfl, fun _ => rfl, fun h => .inr ⟨h, rfl⟩⟩

theorem trans {a b c : Job} (h : Later a b) (h' : Later b c) : Later a c where
  key := h'.key.trans h.key
  terminal := by
    intro ha
    obtain rfl := h.terminal ha
    exact h'.terminal ha
  leased := by
    intro ha
    rcases h.leased ha with hdead | ⟨hlock, hworker⟩
    · exact .inl (h'.terminal hdead ▸ hdead)
    · rcases h'.leased hlock with hdead | ⟨hlock', hworker'⟩
      · exact .inl hdead
      · exact .inr ⟨hlock', hworker'.trans hworker⟩

/-- A live job may be retired. -/
theorem of_live {r r' : Job} (h : r.status.live = true) (hkey : r'.key = r.key)
    (hdead : r'.status.live = false) : Later r r' :=
  ⟨hkey, fun hne => by simp [h] at hne, fun _ => .inl hdead⟩

end Job.Later

namespace UserTask.Later

theorem refl (r : UserTask) : Later r r := ⟨rfl, fun _ => rfl⟩

theorem trans {a b c : UserTask} (h : Later a b) (h' : Later b c) : Later a c where
  key := h'.key.trans h.key
  closed := by
    intro ha
    obtain rfl := h.closed ha
    exact h'.closed ha

end UserTask.Later

/-! ## Later forms of the database -/

/-- No row disappears from the four tables, and each changes as its lifecycle
    allows. -/
structure Db.Evolves (db db' : Db) : Prop where
  instances : Table.Evolves WorkflowInstance.Later db.instances db'.instances
  steps : Table.Evolves StepExecution.Later db.stepExecutions db'.stepExecutions
  jobs : Table.Evolves Job.Later db.jobs db'.jobs
  tasks : Table.Evolves UserTask.Later db.userTasks db'.userTasks

namespace Db.Evolves

variable {svc : Service} {db db' db'' : Db}

theorem refl (db : Db) : Evolves db db where
  instances := .refl WorkflowInstance.Later.refl _
  steps := .refl StepExecution.Later.refl _
  jobs := .refl Job.Later.refl _
  tasks := .refl UserTask.Later.refl _

theorem trans (h : Evolves db db') (h' : Evolves db' db'') : Evolves db db'' where
  instances := h.instances.trans (fun hab hbc => Eq.trans hbc hab) h'.instances
  steps := h.steps.trans (fun hab hbc => hab.trans hbc) h'.steps
  jobs := h.jobs.trans (fun hab hbc => hab.trans hbc) h'.jobs
  tasks := h.tasks.trans (fun hab hbc => hab.trans hbc) h'.tasks

/-- Rewriting instance rows under their keys. -/
theorem updateInstance (h : Evolves db db') {p : WorkflowInstance → Bool}
    {f : WorkflowInstance → WorkflowInstance}
    (hi : db''.instances = Table.update p f db'.instances)
    (hs : db''.stepExecutions = db'.stepExecutions) (hj : db''.jobs = db'.jobs)
    (ht : db''.userTasks = db'.userTasks) (hf : ∀ r, (f r).key = r.key) : Evolves db db'' := by
  refine h.trans ⟨?_, hs ▸ (refl db').steps, hj ▸ (refl db').jobs, ht ▸ (refl db').tasks⟩
  rw [hi]
  exact .update WorkflowInstance.Later.refl fun r _ _ => hf r

/-- Closing running step executions. -/
theorem closeSteps (h : Evolves db db') {p : StepExecution → Bool}
    {f : StepExecution → StepExecution} (hi : db''.instances = db'.instances)
    (hs : db''.stepExecutions = Table.update p f db'.stepExecutions)
    (hj : db''.jobs = db'.jobs) (ht : db''.userTasks = db'.userTasks)
    (hf : ∀ r, (f r).key = r.key) (hattempt : ∀ r, (f r).attemptNumber = r.attemptNumber)
    (hp : ∀ r ∈ db'.stepExecutions, p r = true → r.status = .running) : Evolves db db'' := by
  refine h.trans ⟨hi ▸ (refl db').instances, ?_, hj ▸ (refl db').jobs, ht ▸ (refl db').tasks⟩
  rw [hs]
  exact .update StepExecution.Later.refl fun r hr hpr =>
    .of_running (hp r hr hpr) (hf r) (hattempt r)

/-- Changing jobs as their lifecycle allows. -/
theorem updateJobs (h : Evolves db db') {p : Job → Bool} {f : Job → Job}
    (hi : db''.instances = db'.instances) (hs : db''.stepExecutions = db'.stepExecutions)
    (hj : db''.jobs = Table.update p f db'.jobs) (ht : db''.userTasks = db'.userTasks)
    (hf : ∀ r ∈ db'.jobs, p r = true → Job.Later r (f r)) : Evolves db db'' := by
  refine h.trans ⟨hi ▸ (refl db').instances, hs ▸ (refl db').steps, ?_, ht ▸ (refl db').tasks⟩
  rw [hj]
  exact .update Job.Later.refl hf

/-- Closing open user tasks. -/
theorem closeTasks (h : Evolves db db') {p : UserTask → Bool} {f : UserTask → UserTask}
    (hi : db''.instances = db'.instances) (hs : db''.stepExecutions = db'.stepExecutions)
    (hj : db''.jobs = db'.jobs) (ht : db''.userTasks = Table.update p f db'.userTasks)
    (hf : ∀ r, (f r).key = r.key) (hp : ∀ r, p r = true → r.status = .opened) :
    Evolves db db'' := by
  refine h.trans ⟨hi ▸ (refl db').instances, hs ▸ (refl db').steps, hj ▸ (refl db').jobs, ?_⟩
  rw [ht]
  exact .update UserTask.Later.refl fun r _ hpr => ⟨hf r, fun hne => absurd (hp r hpr) hne⟩

/-- Inserting rows. -/
theorem insert (h : Evolves db db') {i : List WorkflowInstance} {s : List StepExecution}
    {j : List Job} {t : List UserTask} (hi : db''.instances = db'.instances ++ i)
    (hs : db''.stepExecutions = db'.stepExecutions ++ s) (hj : db''.jobs = db'.jobs ++ j)
    (ht : db''.userTasks = db'.userTasks ++ t) : Evolves db db'' := by
  refine h.trans ⟨?_, ?_, ?_, ?_⟩
  · rw [hi]
    exact .insert WorkflowInstance.Later.refl _
  · rw [hs]
    exact .insert StepExecution.Later.refl _
  · rw [hj]
    exact .insert Job.Later.refl _
  · rw [ht]
    exact .insert UserTask.Later.refl _

/-- An instance row and its definition are found again later. -/
theorem runs (hev : db.Evolves db') {inst : WorkflowInstance} {d : WorkflowDefinition}
    (hinst : inst ∈ db.instances) (hd : Runs svc inst d) :
    ∃ inst' ∈ db'.instances, inst'.id = inst.id ∧ Runs svc inst' d := by
  obtain ⟨inst', hinst', hkey⟩ := hev.instances.mem hinst
  exact ⟨inst', hinst', congrArg InstanceKey.id hkey, hd.of_key hkey⟩

end Db.Evolves

/-- A dispatch inserts rows and rewrites the row of its instance. -/
theorem Dispatched.evolves {svc : Service} {now : Time} {d : WorkflowDefinition} {tx tx' : Tx}
    {step : WorkflowStep} {next : List StepId} (h : Dispatched svc now d tx step tx' next)
    (hwf : TxWF svc d tx) (hfind : findStep d step.id = some step) :
    Db.Evolves tx.db tx'.db := by
  obtain ⟨f, hv⟩ := h.instance_view
  obtain ⟨row, hrows, -⟩ := h.rows hwf hfind
  have hjobs : ∃ js, tx'.db.jobs = tx.db.jobs ++ js := by
    rcases h.job_view with ⟨-, hj⟩ | ⟨-, job, hj, -⟩
    · exact ⟨[], by simp [hj]⟩
    · exact ⟨[job], hj⟩
  have htasks : ∃ ts, tx'.db.userTasks = tx.db.userTasks ++ ts := by
    rcases h.task_view with ⟨-, ht⟩ | ⟨-, task, ht, -⟩
    · exact ⟨[], by simp [ht]⟩
    · exact ⟨[task], ht⟩
  obtain ⟨js, hjobs⟩ := hjobs
  obtain ⟨ts, htasks⟩ := htasks
  have hins : Db.Evolves tx.db { tx'.db with instances := tx.db.instances } :=
    (Db.Evolves.refl tx.db).insert (i := []) (by simp) hrows hjobs htasks
  exact hins.updateInstance hv.rows rfl rfl rfl hv.key

theorem Advanced.evolves {now : Time} {d : WorkflowDefinition} {db₀ : Db} {tx tx' : Tx}
    {step : WorkflowStep} {next : List StepId} (h : Advanced now d tx step tx' next)
    (he : Db.Evolves db₀ tx.db) : Db.Evolves db₀ tx'.db := by
  have hadv : Db.Evolves db₀ (advanced d tx step).db :=
    he.updateInstance rfl rfl rfl rfl fun _ => rfl
  cases h with
  | on target htarget => exact hadv
  | stop hnext hlen => exact hadv
  | fail reason =>
    have hclosed : Db.Evolves db₀ ((advanced d tx step).db.failStepExecutionByStep now
        (advanced d tx step).inst.id step.id reason) := by
      refine hadv.closeSteps rfl rfl rfl rfl (fun _ => rfl) (fun _ => rfl) ?_
      intro r _ hr
      simp only [Db.runningAt, Bool.and_eq_true, decide_eq_true_eq] at hr
      exact hr.2
    exact hclosed.updateInstance rfl rfl rfl rfl fun _ => rfl

section Openings

variable {svc : Service} {now : Time} {db₀ db : Db}

/-- The rows of a callback, by id. -/
theorem Callback.step_unique (hwf : db.WF svc) {jobID : Nat} {job : Job} {se : StepExecution}
    {inst : WorkflowInstance} (h : Callback db jobID job se inst) :
    ∀ r ∈ db.stepExecutions, decide (r.id = se.id) = true → r = se :=
  fun _ hr hid => hwf.step_eq hr (getStepExecution_mem h.se_eq) (of_decide_eq_true hid)

theorem Callback.job_unique (hwf : db.WF svc) {jobID : Nat} {job : Job} {se : StepExecution}
    {inst : WorkflowInstance} (h : Callback db jobID job se inst) :
    ∀ r ∈ db.jobs, r.id = jobID → r = job :=
  fun _ hr hid => hwf.job_eq hr (getJob_mem h.job_eq).1 (hid.trans (getJob_mem h.job_eq).2.symm)

/-- Retiring the job of a callback. -/
theorem Db.Evolves.retireJob (h : Db.Evolves db₀ db) (hwf : db.WF svc) {jobID : Nat} {job : Job}
    {se : StepExecution} {inst : WorkflowInstance} (hcb : Callback db jobID job se inst)
    (hlive : job.status.live = true) {f : Job → Job} (hkey : ∀ r, (f r).key = r.key)
    (hdead : ∀ r, (f r).status.live = false) :
    Db.Evolves db₀ (db.updateJobs (fun r => decide (r.id = jobID)) f) := by
  refine h.updateJobs rfl rfl rfl rfl ?_
  intro r hr hid
  obtain rfl := hcb.job_unique hwf r hr (of_decide_eq_true hid)
  exact .of_live hlive (hkey r) (hdead r)

/-- Closing the step of a callback or of a timer. -/
theorem Db.Evolves.closeStep (h : Db.Evolves db₀ db) {se : StepExecution}
    (hunique : ∀ r ∈ db.stepExecutions, decide (r.id = se.id) = true → r = se)
    (hrun : se.status = .running) {f : StepExecution → StepExecution}
    (hkey : ∀ r, (f r).key = r.key) (hattempt : ∀ r, (f r).attemptNumber = r.attemptNumber) :
    Db.Evolves db₀ (db.updateStepExecutions (fun r => decide (r.id = se.id)) f) := by
  refine h.closeSteps rfl rfl rfl rfl hkey hattempt ?_
  intro r hr hid
  rw [hunique r hr hid]
  exact hrun

theorem Db.Evolves.cancelJobs (h : Db.Evolves db₀ db) (seID : Nat) :
    Db.Evolves db₀ (db.cancelJobByStepExecution seID) := by
  refine h.updateJobs rfl rfl rfl rfl ?_
  intro r _ hr
  simp only [Bool.and_eq_true] at hr
  exact .of_live hr.2 rfl rfl

theorem Db.Evolves.enqueueReplacement (h : Db.Evolves db₀ db) (j : DispatchJob) :
    Db.Evolves db₀ (enqueueReplacement svc now db j) :=
  h.insert (i := []) (s := []) (t := []) (by simp) (by simp) (enqueueReplacement_jobs ..) (by simp)

/-- An accepted completion closes its job and its step. -/
theorem Db.Evolves.closeJob (h : Db.Evolves db₀ db) (hwf : db.WF svc) {jobID : Nat} {job : Job}
    {se : StepExecution} {inst : WorkflowInstance} (hcb : Callback db jobID job se inst)
    {workerID : String}
    (hacc : (jobExecution now job se inst).acceptsCallback workerID = true)
    (vars : GoMap Value) : Db.Evolves db₀ (closeJob now db jobID se.id workerID vars) := by
  obtain ⟨⟨-, hrun⟩, hlive⟩ := alive_of_acceptsCallback hacc
  have hjob : Db.Evolves db₀ (db.markJobCompleted jobID workerID) :=
    h.retireJob hwf hcb hlive (fun _ => rfl) fun _ => rfl
  exact hjob.closeStep (hcb.step_unique hwf) hrun (fun _ => rfl) fun _ => rfl

/-- The jobs a poll claims were unlocked. -/
theorem claimed_unlocked (hwf : db.WF svc) {jobTypes : List String} {max : Nat}
    {rowLocked : List Nat} {r : Job} (hr : r ∈ db.jobs)
    (hclaim : r.id ∈ db.pollCandidates jobTypes max rowLocked) : r.status = .unlocked := by
  unfold Db.pollCandidates at hclaim
  obtain ⟨r₀, hr₀, hid⟩ := List.mem_map.mp hclaim
  replace hr₀ := (List.mem_insertionSort _).mp (List.mem_of_mem_take hr₀)
  obtain ⟨hmem, hfilter⟩ := List.mem_filter.mp hr₀
  obtain rfl := hwf.job_eq hmem hr hid
  simp only [Bool.and_eq_true, decide_eq_true_eq] at hfilter
  exact hfilter.1.1

theorem Db.Evolves.pollJobs (h : Db.Evolves db₀ db) (hwf : db.WF svc) (workerID : String)
    (jobTypes : List String) (max : Nat) (seconds : Int) (rowLocked : List Nat) :
    Db.Evolves db₀ (db.pollJobs now workerID jobTypes max seconds rowLocked).2 := by
  unfold Db.pollJobs
  split
  · exact h
  · refine h.updateJobs rfl rfl rfl rfl ?_
    intro r hr hclaim
    have hunlocked := claimed_unlocked hwf hr (by simpa using hclaim)
    exact ⟨rfl, fun hdead => by simp [hunlocked, JobStatus.live] at hdead,
      fun hlocked => by simp [hunlocked] at hlocked⟩

end Openings

/-- Rows only change as their lifecycles allow, from any state of a run on. -/
theorem evolves_invariant (svc : Service) (db₀ : Db) :
    TxInvariant svc (fun db => db.WF svc) (fun d tx _ => TxWF svc d tx) (fun _ _ => True)
      (fun _ => True) (Db.Evolves db₀) (fun _ tx _ => Db.Evolves db₀ tx.db) where
  opening := by
    intro db op now p _ hwf h _ hop
    cases hop with
    | ignored op hrefused => exact h
    | started definitionID version vars businessKey d json key hd hsteps =>
      exact h.insert (s := []) (j := []) (t := []) rfl (by simp) (by simp) (by simp)
    | chainStarted source d json key hd hsteps hclaim =>
      exact h.insert (s := []) (j := []) (t := []) rfl (by simp) (by simp) (by simp)
    | outputsRejected jobID workerID vars job se inst violations hcb hacc =>
      obtain ⟨⟨-, hrun⟩, -⟩ := alive_of_acceptsCallback hacc
      have hstep : Db.Evolves db₀ ((db.cancelJobByStepExecution se.id).failStepExecutionByID now
          se.id (schemaViolationError violations)) :=
        (h.cancelJobs se.id).closeStep (hcb.step_unique hwf) hrun (fun _ => rfl) fun _ => rfl
      exact hstep.updateInstance rfl rfl rfl rfl fun _ => rfl
    | jobCompleted jobID workerID vars job se inst d step g hcb hacc hd hstep hnext =>
      exact (h.closeJob hwf hcb hacc vars).updateInstance rfl rfl rfl rfl fun _ => rfl
    | jobAdvanced jobID workerID vars job se inst d step g json tx next hcb hacc hd hstep hadv =>
      refine hadv.evolves ?_
      exact (h.closeJob hwf hcb hacc vars).updateInstance rfl rfl rfl rfl fun _ => rfl
    | jobRetried jobID workerID errorMessage job se inst hcb hacc hretries =>
      obtain ⟨-, hlive⟩ := alive_of_acceptsCallback hacc
      have hjob : Db.Evolves db₀ (db.markJobFailed jobID workerID) :=
        h.retireJob hwf hcb hlive (fun _ => rfl) fun _ => rfl
      exact hjob.enqueueReplacement _
    | jobFailed jobID workerID errorMessage retryable job se inst hcb hacc =>
      obtain ⟨⟨-, hrun⟩, hlive⟩ := alive_of_acceptsCallback hacc
      have hjob : Db.Evolves db₀ (db.markJobFailed jobID workerID) :=
        h.retireJob hwf hcb hlive (fun _ => rfl) fun _ => rfl
      have hstep : Db.Evolves db₀ ((db.markJobFailed jobID workerID).failStepExecutionByID now
          se.id errorMessage) :=
        hjob.closeStep (hcb.step_unique hwf) hrun (fun _ => rfl) fun _ => rfl
      exact hstep.updateInstance rfl rfl rfl rfl fun _ => rfl
    | jobReplaced op jobID job se inst hop hcb halive hlocked =>
      refine Db.Evolves.enqueueReplacement ?_ _
      refine h.updateJobs rfl rfl rfl rfl ?_
      intro r _ hr
      simp only [Bool.and_eq_true, decide_eq_true_eq] at hr
      exact .of_live (by simp [hr.2, JobStatus.live]) rfl rfl
    | leaseExtended later jobID workerID seconds lease job se inst hcb halive hlocked howner hvalid =>
      refine h.updateJobs rfl rfl rfl rfl ?_
      intro r _ hr
      simp only [renewable, Bool.and_eq_true, decide_eq_true_eq] at hr
      exact ⟨rfl, fun hdead => by simp [hr.1.2, JobStatus.live] at hdead,
        fun hl => .inr ⟨hl, rfl⟩⟩
    | polled workerID jobTypes max seconds lease rowLocked => exact h.pollJobs hwf ..
    | userTaskCompleted stepID vars inst d step result merged g tx next hinst hflight hd hstep
        htype hrows hadv =>
      refine hadv.evolves ?_
      have htasks : Db.Evolves db₀ (db.completeUserTask now inst.id stepID result).1 := by
        refine h.closeTasks rfl rfl rfl rfl (fun _ => rfl) ?_
        intro r hr
        simp only [Db.openAt, Bool.and_eq_true, decide_eq_true_eq] at hr
        exact hr.2
      have hsteps : Db.Evolves db₀ ((db.completeUserTask now inst.id stepID
          result).1.completeStepExecutionByStep now inst.id stepID merged).1 := by
        refine htasks.closeSteps rfl rfl rfl rfl (fun _ => rfl) (fun _ => rfl) ?_
        intro r _ hr
        simp only [Db.runningAt, Bool.and_eq_true, decide_eq_true_eq] at hr
        exact hr.2
      exact hsteps.updateInstance rfl rfl rfl rfl fun _ => rfl
    | waitSignalled stepID vars inst d step merged g tx next hinst hflight hd hstep htype hrows
        hadv =>
      refine hadv.evolves ?_
      have hsteps : Db.Evolves db₀ (db.completeStepExecutionByStep now inst.id stepID merged).1 := by
        refine h.closeSteps rfl rfl rfl rfl (fun _ => rfl) (fun _ => rfl) ?_
        intro r _ hr
        simp only [Db.runningAt, Bool.and_eq_true, decide_eq_true_eq] at hr
        exact hr.2
      exact hsteps.updateInstance rfl rfl rfl rfl fun _ => rfl
    | timerConsumed eventID inst event hinst hevent hdead =>
      exact ⟨h.instances, h.steps, h.jobs, h.tasks⟩
    | timerInterrupts eventID inst event se d hinst hevent hinterrupting hse halive hd =>
      have hfired : Db.Evolves db₀ (db.markFired now eventID inst.id) :=
        ⟨h.instances, h.steps, h.jobs, h.tasks⟩
      have hclosed : Db.Evolves db₀ ((db.markFired now eventID inst.id).failStepExecutionByID now
          se.id "interrupted by boundary timer") := by
        refine hfired.closeStep ?_ halive.2 (fun _ => rfl) fun _ => rfl
        intro r hr hid
        exact hwf.step_eq hr (getStepExecution_mem hse) (of_decide_eq_true hid)
      refine (hclosed.cancelJobs se.id).closeTasks rfl rfl rfl rfl (fun _ => rfl) ?_
      intro r hr
      simp only [Bool.and_eq_true, decide_eq_true_eq] at hr
      exact hr.2
    | timerForks eventID inst event se d hinst hevent hinterrupting hse halive hd =>
      exact ⟨h.instances, h.steps, h.jobs, h.tasks⟩
    | housekept retention => exact ⟨h.instances, h.steps, h.jobs, h.tasks⟩
    | cancelled inst reason hinst hflight => exact h.updateInstance rfl rfl rfl rfl fun _ => rfl
    | stepRetried inst stepID patch d g json hinst hfailed hlatest hd =>
      have hactive : Db.Evolves db₀ (db.reactivated inst.id) :=
        h.updateInstance rfl rfl rfl rfl fun _ => rfl
      exact hactive.updateInstance rfl rfl rfl rfl fun _ => rfl
  step := fun hwf h _ hfind hdisp => h.trans (hdisp.evolves hwf hfind)
  closing := fun _ h => h
  acknowledge := fun h => ⟨h.instances, h.steps, h.jobs, h.tasks⟩

/-! ## Along a run -/

theorem wf_empty (svc : Service) : ({} : Db).WF svc where
  shape := by
    refine ⟨⟨?_, ?_⟩, ⟨?_, ?_⟩, ⟨?_, ?_⟩, ⟨?_, ?_⟩, ⟨?_, ?_⟩, ?_, ?_, ?_, ?_⟩ <;> simp [Db.shape]
  parked := by simp [Parked]

section Runs

variable {svc : Service}

theorem wf_apply {db : Db} (h : db.WF svc) (call : Call) : (apply svc db call).WF svc :=
  (wf_invariant svc).apply h trivial fun _ _ => trivial

theorem wf_after {db : Db} (h : db.WF svc) (calls : List Call) :
    (Run.after (apply svc) db calls).WF svc := by
  induction calls generalizing db with
  | nil => exact h
  | cons call rest ih => exact ih (wf_apply h call)

theorem wf_run (svc : Service) (calls : List Call) : (run svc calls).WF svc :=
  wf_after (wf_empty svc) calls

theorem evolves_apply {db : Db} (h : db.WF svc) (call : Call) :
    db.Evolves (apply svc db call) :=
  (((wf_invariant svc).and (evolves_invariant svc db)).apply ⟨h, .refl db⟩ trivial
    fun _ _ => trivial).2

theorem evolves_after {db : Db} (h : db.WF svc) (calls : List Call) :
    db.Evolves (Run.after (apply svc) db calls) := by
  induction calls generalizing db with
  | nil => exact .refl db
  | cons call rest ih => exact (evolves_apply h call).trans (ih (wf_apply h call))

theorem run_append (svc : Service) (calls more : List Call) :
    run svc (calls ++ more) = Run.after (apply svc) (run svc calls) more :=
  Run.after_append ..

/-- The tables of a plan before its dispatches. -/
def Plan.tables : Plan → Db
  | .commit db _ => db
  | .dispatch _ tx _ => tx.db
  | .chain _ tx _ _ => tx.db

/-- What a plan has done by then stays done. -/
theorem evolves_settle {db : Db} (h : db.WF svc) {now : Time} {op : Op} {fuel : Nat} {p : Plan}
    {r : Db × Option EngineError} (hp : plan svc now db op = .ok p)
    (hsettle : p.settle svc now fuel = .ok r) : p.tables.Evolves r.1 := by
  have hinv := (wf_invariant svc).and (evolves_invariant svc p.tables)
  have hwf := (wf_invariant svc).opening fuel trivial h trivial (plan_opened hp)
  have hest : p.Establishes (fun db => db.WF svc ∧ p.tables.Evolves db)
      (fun d tx _ => TxWF svc d tx ∧ p.tables.Evolves tx.db) := by
    cases p with
    | commit db reply => exact ⟨hwf, .refl _⟩
    | dispatch d tx steps => exact ⟨hwf, .refl _⟩
    | chain d tx steps source => exact ⟨hwf, .refl _⟩
  exact (hinv.settle hest (fun _ _ => trivial) hsettle).2

/-- The tables after a call whose plan settles. -/
theorem apply_of_plan {db : Db} {call : Call} {p : Plan} {r : Db × Option EngineError}
    (hp : plan svc call.now db call.op = .ok p) (hsettle : p.settle svc call.now call.fuel = .ok r) :
    apply svc db call = r.1 := by
  have ht : transact svc db call = .ok r := by
    unfold transact
    rw [hp]
    exact hsettle
  unfold apply perform
  rw [ht]

/-- The plan of a call that answers without an error. -/
theorem perform_plan {db : Db} {call : Call} (hok : (perform svc db call).2 = none) :
    ∃ p r, plan svc call.now db call.op = .ok p ∧ p.settle svc call.now call.fuel = .ok r ∧
      apply svc db call = r.1 := by
  unfold perform at hok
  cases ht : transact svc db call with
  | error e =>
    rw [ht] at hok
    cases hok
  | ok r =>
    obtain ⟨p, hp, hsettle⟩ := bind_eq_ok ht
    exact ⟨p, r, hp, hsettle, apply_of_plan hp hsettle⟩

/-- A closed step execution is found unchanged ever after. -/
theorem closed_step_stable {db : Db} (h : db.WF svc) (calls : List Call) {se : StepExecution}
    (hse : db.getStepExecution se.id = some se) (hclosed : se.status ≠ .running) :
    (Run.after (apply svc) db calls).getStepExecution se.id = some se := by
  obtain ⟨se', hmem, hlater⟩ := (evolves_after h calls).steps.mem (getStepExecution_mem hse)
  obtain rfl := hlater.closed hclosed
  have hnd := (wf_after h calls).shape.step_ids.nodup
  simp only [Db.shape, List.map_map] at hnd
  exact Table.find_eq_some hnd hmem rfl

/-- A terminal job is found unchanged ever after. -/
theorem terminal_job_stable {db : Db} (h : db.WF svc) (calls : List Call) {job : Job}
    (hjob : db.getJob job.id = some job) (hdead : job.status.live = false) :
    (Run.after (apply svc) db calls).getJob job.id = some job := by
  obtain ⟨job', hmem, hlater⟩ := (evolves_after h calls).jobs.mem (getJob_mem hjob).1
  obtain rfl := hlater.terminal hdead
  have hnd := (wf_after h calls).shape.job_ids.nodup
  simp only [Db.shape, List.map_map] at hnd
  exact Table.find_eq_some hnd hmem rfl

end Runs

end Rochallor
