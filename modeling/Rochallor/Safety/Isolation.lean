import Rochallor.Safety.Lifecycle

/-! # Isolation

    An operation acts on one instance.  The rows of every other instance are
    as they were, up to the leases of their jobs, which polling changes.  So an
    invariant that speaks of each instance by itself need only be checked on
    the instance an operation acts on.
-/

namespace Rochallor

/-- What a job row says besides its lease. -/
def Job.gist (r : Job) : ChildKey × Bool :=
  (r.key, r.status.live)

/-- The rows of the instance are as before. -/
structure Untouched (i : Nat) (db db' : Db) : Prop where
  instances : db'.instances.filter (fun r => decide (r.id = i)) =
    db.instances.filter (fun r => decide (r.id = i))
  steps : db'.stepExecutions.filter (fun r => decide (r.instanceID = i)) =
    db.stepExecutions.filter (fun r => decide (r.instanceID = i))
  jobs : (db'.jobs.filter (fun r => decide (r.instanceID = i))).map Job.gist =
    (db.jobs.filter (fun r => decide (r.instanceID = i))).map Job.gist

namespace Untouched

variable {i : Nat} {db db' db'' : Db}

theorem refl (i : Nat) (db : Db) : Untouched i db db := ⟨rfl, rfl, rfl⟩

theorem trans (h : Untouched i db db') (h' : Untouched i db' db'') : Untouched i db db'' :=
  ⟨h'.instances.trans h.instances, h'.steps.trans h.steps, h'.jobs.trans h.jobs⟩

/-- The three tables are not touched at all. -/
theorem frame (hi : db'.instances = db.instances) (hs : db'.stepExecutions = db.stepExecutions)
    (hj : db'.jobs = db.jobs) : Untouched i db db' :=
  ⟨by rw [hi], by rw [hs], by rw [hj]⟩

theorem mem_instance (h : Untouched i db db') {r : WorkflowInstance} (hid : r.id = i) :
    r ∈ db'.instances ↔ r ∈ db.instances := by
  have := congrArg (fun rows => r ∈ rows) h.instances
  simpa [hid] using this

theorem mem_step (h : Untouched i db db') {r : StepExecution} (hid : r.instanceID = i) :
    r ∈ db'.stepExecutions ↔ r ∈ db.stepExecutions := by
  have := congrArg (fun rows => r ∈ rows) h.steps
  simpa [hid] using this

/-- A live job of the instance was live before. -/
theorem live_job (h : Untouched i db db') {r : Job} (hr : r ∈ db'.jobs) (hid : r.instanceID = i)
    (hlive : r.status.live = true) :
    ∃ old ∈ db.jobs, old.instanceID = i ∧ old.status.live = true := by
  have hmem : r.gist ∈ (db'.jobs.filter (fun r => decide (r.instanceID = i))).map Job.gist :=
    List.mem_map_of_mem (List.mem_filter.mpr ⟨hr, by simp [hid]⟩)
  rw [h.jobs] at hmem
  obtain ⟨old, hold, hgist⟩ := List.mem_map.mp hmem
  obtain ⟨hmem, hi⟩ := List.mem_filter.mp hold
  have hl : old.status.live = r.status.live := congrArg Prod.snd hgist
  exact ⟨old, hmem, of_decide_eq_true hi, hl.trans hlive⟩

/-- Rewriting rows of other instances. -/
theorem updateInstance (h : Untouched i db db') {p : WorkflowInstance → Bool}
    {f : WorkflowInstance → WorkflowInstance}
    (hi : db''.instances = Table.update p f db'.instances)
    (hs : db''.stepExecutions = db'.stepExecutions) (hj : db''.jobs = db'.jobs)
    (hf : ∀ r, (f r).key = r.key) (hp : ∀ r ∈ db'.instances, p r = true → r.id ≠ i) :
    Untouched i db db'' := by
  refine h.trans ⟨?_, by rw [hs], by rw [hj]⟩
  rw [hi]
  refine Table.filter_update_other fun r hr hpr => ?_
  have hid : (f r).id = r.id := congrArg InstanceKey.id (hf r)
  simp [hid, hp r hr hpr]

/-- Rewriting step executions of other instances. -/
theorem updateSteps (h : Untouched i db db') {p : StepExecution → Bool}
    {f : StepExecution → StepExecution} (hi : db''.instances = db'.instances)
    (hs : db''.stepExecutions = Table.update p f db'.stepExecutions)
    (hj : db''.jobs = db'.jobs) (hf : ∀ r, (f r).key = r.key)
    (hp : ∀ r ∈ db'.stepExecutions, p r = true → r.instanceID ≠ i) : Untouched i db db'' := by
  refine h.trans ⟨by rw [hi], ?_, by rw [hj]⟩
  rw [hs]
  refine Table.filter_update_other fun r hr hpr => ?_
  have hid : (f r).instanceID = r.instanceID := congrArg StepKey.instanceID (hf r)
  simp [hid, hp r hr hpr]

/-- Rewriting jobs: those of the instance keep their liveness. -/
theorem updateJobs (h : Untouched i db db') {p : Job → Bool} {f : Job → Job}
    (hi : db''.instances = db'.instances) (hs : db''.stepExecutions = db'.stepExecutions)
    (hj : db''.jobs = Table.update p f db'.jobs) (hf : ∀ r, (f r).key = r.key)
    (hp : ∀ r ∈ db'.jobs, p r = true →
      r.instanceID ≠ i ∨ (f r).status.live = r.status.live) : Untouched i db db'' := by
  refine h.trans ⟨by rw [hi], by rw [hs], ?_⟩
  rw [hj]
  refine Table.map_filter_update fun r hr hpr => ?_
  have hid : (f r).instanceID = r.instanceID := congrArg ChildKey.instanceID (hf r)
  refine ⟨by rw [hid], fun hq => ?_⟩
  rcases hp r hr hpr with hne | hlive
  · exact absurd (of_decide_eq_true hq) hne
  · simp [Job.gist, hf, hlive]

/-- Inserting another instance. -/
theorem insertInstance (h : Untouched i db db') {r : WorkflowInstance}
    (hi : db''.instances = db'.instances ++ [r])
    (hs : db''.stepExecutions = db'.stepExecutions) (hj : db''.jobs = db'.jobs) (hne : r.id ≠ i) :
    Untouched i db db'' := by
  refine h.trans ⟨?_, by rw [hs], by rw [hj]⟩
  rw [hi]
  exact Table.filter_insert_other fun r' hr' => by simp [List.mem_singleton.mp hr', hne]

/-- Inserting a job of another instance. -/
theorem insertJob (h : Untouched i db db') {r : Job} (hi : db''.instances = db'.instances)
    (hs : db''.stepExecutions = db'.stepExecutions) (hj : db''.jobs = db'.jobs ++ [r])
    (hne : r.instanceID ≠ i) : Untouched i db db'' := by
  refine h.trans ⟨by rw [hi], by rw [hs], ?_⟩
  rw [hj]
  exact congrArg _ (Table.filter_insert_other fun r' hr' => by simp [List.mem_singleton.mp hr', hne])

end Untouched

/-! ## The instance an operation acts on -/

/-- The instance the operation acts on, if there is one. -/
def Op.subject (db : Db) : Op → Option Nat
  | .start _ _ _ _ | .startChain _ => some db.nextId
  | .completeJob jobID _ _ | .failJob jobID _ _ _ | .heartbeat _ jobID _ _ | .retryJob jobID
  | .sweepLease jobID => (db.getJob jobID).map (·.instanceID)
  | .poll _ _ _ _ _ | .deleteObsoleteBoundaryEvents _ => none
  | .completeUserTask instanceID _ _ | .signalWait instanceID _ _
  | .fireBoundaryEvent _ instanceID | .cancel instanceID _ | .retryFailedStep instanceID _ _ =>
    some instanceID

section Openings

variable {svc : Service} {now : Time} {db : Db} {i : Nat}

/-- Retiring the jobs of a step execution of another instance. -/
theorem Untouched.cancelJobs {db₀ : Db} (h : Untouched i db₀ db) (hwf : db.WF svc)
    {se : StepExecution} (hse : se ∈ db.stepExecutions) (hne : se.instanceID ≠ i) :
    Untouched i db₀ (db.cancelJobByStepExecution se.id) := by
  refine h.updateJobs rfl rfl rfl (fun _ => rfl) ?_
  intro r hr hp
  simp only [Bool.and_eq_true, decide_eq_true_eq] at hp
  obtain ⟨se', hse', hid, hinst, -⟩ := hwf.job_step hr
  obtain rfl := hwf.step_eq hse' hse (hid.trans hp.1)
  exact .inl (hinst ▸ hne)

/-- Retiring the job of a callback on another instance. -/
theorem Untouched.retireJob {db₀ : Db} (h : Untouched i db₀ db) (hwf : db.WF svc) {jobID : Nat}
    {job : Job} {se : StepExecution} {inst : WorkflowInstance}
    (hcb : Callback db jobID job se inst) (hne : inst.id ≠ i) {p : Job → Bool} {f : Job → Job}
    (hp : ∀ r ∈ db.jobs, p r = true → r.id = jobID) (hf : ∀ r, (f r).key = r.key) :
    Untouched i db₀ (db.updateJobs p f) := by
  refine h.updateJobs rfl rfl rfl hf ?_
  intro r hr hpr
  rw [hcb.job_unique hwf r hr (hp r hr hpr), ← getInstance_id hcb.inst_eq]
  exact .inl hne

theorem Untouched.patchVars {db₀ : Db} (h : Untouched i db₀ db) {instanceID : Nat}
    (hne : instanceID ≠ i) (g : Json → Json) : Untouched i db₀ (db.patchVars instanceID g) := by
  refine h.updateInstance rfl rfl rfl (fun _ => rfl) ?_
  intro r _ hid
  rw [of_decide_eq_true hid]
  exact hne

/-- Closing the running rows of a step of another instance. -/
theorem Untouched.closeAt {db₀ : Db} (h : Untouched i db₀ db) {instanceID : Nat}
    (hne : instanceID ≠ i) {stepID : StepId} {f : StepExecution → StepExecution}
    (hf : ∀ r, (f r).key = r.key) :
    Untouched i db₀ (db.updateStepExecutions (Db.runningAt instanceID stepID) f) := by
  refine h.updateSteps rfl rfl rfl hf ?_
  intro r _ hp
  simp only [Db.runningAt, Bool.and_eq_true, decide_eq_true_eq] at hp
  rw [hp.1.1]
  exact hne

theorem Advanced.untouched {d : WorkflowDefinition} {tx tx' : Tx} {step : WorkflowStep}
    {next : List StepId} (h : Advanced now d tx step tx' next) (hne : tx.inst.id ≠ i)
    {db₀ : Db} (hu : Untouched i db₀ tx.db) : Untouched i db₀ tx'.db := by
  have hself : ∀ r : WorkflowInstance, decide (r.id = tx.inst.id) = true → r.id ≠ i := by
    intro r hid
    rw [of_decide_eq_true hid]
    exact hne
  have hadv : Untouched i db₀ (advanced d tx step).db :=
    hu.updateInstance rfl rfl rfl (fun _ => rfl) fun r _ hid => hself r hid
  cases h with
  | on target htarget => exact hadv
  | stop hnext hlen => exact hadv
  | fail reason =>
    have hclosed : Untouched i db₀ ((advanced d tx step).db.failStepExecutionByStep now
        (advanced d tx step).inst.id step.id reason) := hadv.closeAt hne fun _ => rfl
    exact hclosed.updateInstance rfl rfl rfl (fun _ => rfl) fun r _ hid => hself r hid

/-- A timer found for an instance is a timer of one of its step executions. -/
theorem timer_instance (hwf : db.WF svc) {eventID : Nat} {inst : WorkflowInstance}
    {event : BoundaryEventSchedule} {se : StepExecution}
    (hevent : db.boundaryEvents.find? (Db.dueEvent now eventID inst.id) = some event)
    (hse : db.getStepExecution event.stepExecutionID = some se) : se.instanceID = inst.id := by
  have hdue := List.find?_some hevent
  simp only [Db.dueEvent, Bool.and_eq_true, decide_eq_true_eq] at hdue
  obtain ⟨e, he, hid, hi⟩ := hwf.shape.timer_step event.key
    (List.mem_map_of_mem (List.mem_of_find?_eq_some hevent))
  obtain ⟨se', hse', rfl⟩ := List.mem_map.mp he
  obtain rfl := hwf.step_eq hse' (getStepExecution_mem hse)
    (hid.trans (getStepExecution_id hse).symm)
  exact hi.trans hdue.1.1.2

/-- The rows of an instance the operation does not act on are untouched. -/
theorem Opened.untouched {op : Op} {p : Plan} (h : Opened svc now db op p) (hwf : db.WF svc)
    (hi : op.subject db ≠ some i) : Untouched i db p.tables := by
  have hrefl := Untouched.refl i db
  -- the subject of a job operation is the instance of the callback
  have hjob : ∀ {jobID job se inst}, Callback db jobID job se inst →
      (db.getJob jobID).map (·.instanceID) ≠ some i → inst.id ≠ i := by
    intro jobID job se inst hcb hne heq
    rw [hcb.job_eq, Option.map_some, ← getInstance_id hcb.inst_eq] at hne
    exact hne (congrArg some heq)
  have hstep : ∀ {jobID job se inst}, Callback db jobID job se inst → inst.id ≠ i →
      se.instanceID ≠ i := by
    intro jobID job se inst hcb hne
    obtain ⟨se', hse', hid, hinst, -⟩ := hwf.job_step (getJob_mem hcb.job_eq).1
    obtain rfl := hwf.step_eq hse' (getStepExecution_mem hcb.se_eq)
      (hid.trans (getStepExecution_id hcb.se_eq).symm)
    rw [hinst, ← getInstance_id hcb.inst_eq]
    exact hne
  have hclose : ∀ {jobID job se inst}, Callback db jobID job se inst → inst.id ≠ i →
      ∀ r ∈ db.stepExecutions, decide (r.id = se.id) = true → r.instanceID ≠ i := by
    intro jobID job se inst hcb hne r hr hid
    rw [hcb.step_unique hwf r hr hid]
    exact hstep hcb hne
  have hreported : ∀ {jobID workerID vars job se inst}, Callback db jobID job se inst →
      inst.id ≠ i → Untouched i db (closeJob now db jobID se.id workerID vars) := by
    intro jobID workerID vars job se inst hcb hne
    have hretired : Untouched i db (db.markJobCompleted jobID workerID) :=
      hrefl.retireJob hwf hcb hne (fun r _ hid => of_decide_eq_true hid) fun _ => rfl
    exact hretired.updateSteps rfl rfl rfl (fun _ => rfl) (hclose hcb hne)
  have hother : ∀ {instanceID : Nat}, instanceID ≠ i →
      ∀ r : WorkflowInstance, decide (r.id = instanceID) = true → r.id ≠ i := by
    intro instanceID hne r hid
    rw [of_decide_eq_true hid]
    exact hne
  cases h with
  | ignored op hrefused => exact hrefl
  | started definitionID version vars businessKey d json key hd hsteps =>
    exact hrefl.insertInstance rfl rfl rfl fun heq => hi (congrArg some heq)
  | chainStarted source d json key hd hsteps hclaim =>
    exact hrefl.insertInstance rfl rfl rfl fun heq => hi (congrArg some heq)
  | outputsRejected jobID workerID vars job se inst violations hcb hacc =>
    have hne := hjob hcb hi
    have hcancel : Untouched i db (db.cancelJobByStepExecution se.id) :=
      hrefl.cancelJobs hwf (getStepExecution_mem hcb.se_eq) (hstep hcb hne)
    have hclosed : Untouched i db ((db.cancelJobByStepExecution se.id).failStepExecutionByID now
        se.id (schemaViolationError violations)) :=
      hcancel.updateSteps rfl rfl rfl (fun _ => rfl) (hclose hcb hne)
    exact hclosed.updateInstance rfl rfl rfl (fun _ => rfl) fun r _ hid => hother hne r hid
  | jobCompleted jobID workerID vars job se inst d step g hcb hacc hd hfind hnext =>
    have hne := hjob hcb hi
    exact (hreported hcb hne).patchVars hne g
  | jobAdvanced jobID workerID vars job se inst d step g json tx next hcb hacc hd hfind hadv =>
    have hne := hjob hcb hi
    exact hadv.untouched hne ((hreported hcb hne).patchVars hne g)
  | jobRetried jobID workerID errorMessage job se inst hcb hacc hretries =>
    have hne := hjob hcb hi
    have hretired : Untouched i db (db.markJobFailed jobID workerID) :=
      hrefl.retireJob hwf hcb hne (fun r _ hid => of_decide_eq_true hid) fun _ => rfl
    refine hretired.insertJob (enqueueReplacement_instances ..)
      (enqueueReplacement_stepExecutions ..) (enqueueReplacement_jobs ..) ?_
    exact fun heq => hne ((getInstance_id hcb.inst_eq).trans heq)
  | jobFailed jobID workerID errorMessage retryable job se inst hcb hacc =>
    have hne := hjob hcb hi
    have hretired : Untouched i db (db.markJobFailed jobID workerID) :=
      hrefl.retireJob hwf hcb hne (fun r _ hid => of_decide_eq_true hid) fun _ => rfl
    have hclosed : Untouched i db ((db.markJobFailed jobID workerID).failStepExecutionByID now
        se.id errorMessage) :=
      hretired.updateSteps rfl rfl rfl (fun _ => rfl) (hclose hcb hne)
    exact hclosed.updateInstance rfl rfl rfl (fun _ => rfl) fun r _ hid => hother hne r hid
  | jobReplaced op jobID job se inst hop hcb halive hlocked =>
    have hne : inst.id ≠ i := by
      rcases hop with rfl | ⟨rfl, -⟩ <;> exact hjob hcb hi
    have hretired : Untouched i db (db.cancelLockedJob jobID) := by
      refine hrefl.retireJob hwf hcb hne ?_ fun _ => rfl
      intro r _ hp
      simp only [Bool.and_eq_true, decide_eq_true_eq] at hp
      exact hp.1
    refine hretired.insertJob (enqueueReplacement_instances ..)
      (enqueueReplacement_stepExecutions ..) (enqueueReplacement_jobs ..) ?_
    exact fun heq => hne ((getInstance_id hcb.inst_eq).trans heq)
  | leaseExtended later jobID workerID seconds lease job se inst hcb halive hlocked howner hvalid =>
    exact hrefl.updateJobs rfl rfl rfl (fun _ => rfl) fun r _ _ => .inr rfl
  | polled workerID jobTypes max seconds lease rowLocked =>
    rw [Plan.tables]
    unfold Db.pollJobs
    split
    · exact hrefl
    · refine hrefl.updateJobs rfl rfl rfl (fun _ => rfl) ?_
      intro r hr hclaim
      have := claimed_unlocked hwf hr (by simpa using hclaim)
      exact .inr (by simp [this, JobStatus.live])
  | userTaskCompleted stepID vars inst d step result merged g tx next hinst hflight hd hfind
      htype hrows hadv =>
    have hne : inst.id ≠ i := fun heq => hi (congrArg some heq)
    have htasks : Untouched i db (db.completeUserTask now inst.id stepID result).1 :=
      .frame rfl rfl rfl
    have hclosed : Untouched i db ((db.completeUserTask now inst.id stepID
        result).1.completeStepExecutionByStep now inst.id stepID merged).1 :=
      htasks.closeAt hne fun _ => rfl
    exact hadv.untouched hne (hclosed.patchVars hne g)
  | waitSignalled stepID vars inst d step merged g tx next hinst hflight hd hfind htype hrows
      hadv =>
    have hne : inst.id ≠ i := fun heq => hi (congrArg some heq)
    have hclosed : Untouched i db (db.completeStepExecutionByStep now inst.id stepID merged).1 :=
      hrefl.closeAt hne fun _ => rfl
    exact hadv.untouched hne (hclosed.patchVars hne g)
  | timerConsumed eventID inst event hinst hevent hdead => exact .frame rfl rfl rfl
  | timerInterrupts eventID inst event se d hinst hevent hinterrupting hse halive hd =>
    have hne : se.instanceID ≠ i := by
      rw [timer_instance hwf hevent hse]
      exact fun heq => hi (congrArg some heq)
    have hmem := getStepExecution_mem hse
    have hcancel := hrefl.cancelJobs hwf hmem hne
    have hclosed : Untouched i db ((db.cancelJobByStepExecution se.id).failStepExecutionByID now
        se.id "interrupted by boundary timer") := by
      refine hcancel.updateSteps rfl rfl rfl (fun _ => rfl) ?_
      intro r hr hid
      rw [hwf.step_eq hr hmem (of_decide_eq_true hid)]
      exact hne
    exact hclosed.trans (.frame rfl rfl rfl)
  | timerForks eventID inst event se d hinst hevent hinterrupting hse halive hd =>
    exact .frame rfl rfl rfl
  | housekept retention => exact .frame rfl rfl rfl
  | cancelled inst reason hinst hflight =>
    exact hrefl.updateInstance rfl rfl rfl (fun _ => rfl) fun r _ hid =>
      hother (fun heq => hi (congrArg some heq)) r hid
  | stepRetried inst stepID patch d g json hinst hfailed hlatest hd =>
    have hne : inst.id ≠ i := fun heq => hi (congrArg some heq)
    have hactive : Untouched i db (db.reactivated inst.id) :=
      hrefl.updateInstance rfl rfl rfl (fun _ => rfl) fun r _ hid => hother hne r hid
    exact hactive.patchVars hne g

/-- The dispatches of an operation are for the instance it acts on. -/
theorem Opened.subject_agenda {op : Op} {p : Plan} (h : Opened svc now db op p)
    {d : WorkflowDefinition} {tx : Tx} {steps : List StepId}
    (hp : p.agenda = some (d, tx, steps)) : op.subject db = some tx.inst.id := by
  cases h with
  | started definitionID version vars businessKey d json key hd hsteps =>
    cases hp
    rfl
  | chainStarted source d json key hd hsteps hclaim =>
    cases hp
    rfl
  | jobAdvanced jobID workerID vars job se inst d step g json tx next hcb hacc hd hfind hadv =>
    cases hp
    have hinst : tx.inst.id = inst.id := by cases hadv <;> rfl
    simp [Op.subject, hcb.job_eq, hinst, getInstance_id hcb.inst_eq]
  | userTaskCompleted stepID vars inst d step result merged g tx next hinst hflight hd hfind
      htype hrows hadv =>
    cases hp
    cases hadv <;> rfl
  | waitSignalled stepID vars inst d step merged g tx next hinst hflight hd hfind htype hrows
      hadv =>
    cases hp
    cases hadv <;> rfl
  | timerInterrupts eventID inst event se d hinst hevent hinterrupting hse halive hd =>
    cases hp
    rfl
  | timerForks eventID inst event se d hinst hevent hinterrupting hse halive hd =>
    cases hp
    rfl
  | stepRetried inst stepID patch d g json hinst hfailed hlatest hd =>
    cases hp
    rfl
  | _ => cases hp

/-- The callback's service task, as its definition has it. -/
theorem Callback.step_type (hwf : db.WF svc) {jobID : Nat} {job : Job} {se : StepExecution}
    {inst : WorkflowInstance} (h : Callback db jobID job se inst) {d : WorkflowDefinition}
    (hd : Runs svc inst d) {step : WorkflowStep} (hfind : findStep d se.stepID = some step) :
    step.type = .serviceTask := by
  obtain ⟨se', hse', hid, hinst, htype⟩ := hwf.job_step (getJob_mem h.job_eq).1
  obtain rfl := hwf.step_eq hse' (getStepExecution_mem h.se_eq)
    (hid.trans (getStepExecution_id h.se_eq).symm)
  rw [← htype]
  exact (hwf.step_type (getInstance_mem h.inst_eq) hd hse'
    (hinst.trans (getInstance_id h.inst_eq).symm) hfind).symm

/-- What `advancePastStep` leaves behind: a failed instance, or one in flight
    that goes on unless the step has no successor. -/
theorem Advanced.agenda_status {d : WorkflowDefinition} {tx tx' : Tx} {step : WorkflowStep}
    {next : List StepId} (h : Advanced now d tx step tx' next) :
    tx'.inst.status = .failed ∨
      (tx'.inst.status.inFlight = true ∧ (next = [] → step.nextStep = "")) := by
  have hflight : (advanced d tx step).inst.status.inFlight = true := by
    simp only [advanced, recomputeInstanceStatus]
    split <;> rfl
  cases h with
  | on target htarget => exact .inr ⟨hflight, fun hnil => by cases hnil⟩
  | stop hnext hlen => exact .inr ⟨hflight, fun _ => hnext⟩
  | fail reason => exact .inl rfl

/-- The transaction in which an operation starts to dispatch: on a failed
    instance, or on one in flight, with a step to dispatch unless an external
    step without a successor has been completed. -/
theorem Opened.agenda_status {op : Op} {p : Plan} (h : Opened svc now db op p) (hwf : db.WF svc)
    {d : WorkflowDefinition} {tx : Tx} {steps : List StepId}
    (hp : p.agenda = some (d, tx, steps)) : tx.inst.status = .failed ∨
      (tx.inst.status.inFlight = true ∧
        (steps = [] → ∃ step ∈ d.steps, step.type.external = true ∧ step.nextStep = "")) := by
  cases h with
  | started definitionID version vars businessKey d json key hd hsteps =>
    cases hp
    exact .inr ⟨rfl, fun hnil => by cases hnil⟩
  | chainStarted source d json key hd hsteps hclaim =>
    cases hp
    exact .inr ⟨rfl, fun hnil => by cases hnil⟩
  | jobAdvanced jobID workerID vars job se inst d step g json tx next hcb hacc hd hfind hadv =>
    cases hp
    exact hadv.agenda_status.imp_right fun ⟨hflight, hnext⟩ => ⟨hflight, fun hnil =>
      ⟨step, findStep_mem hfind, by simp [hcb.step_type hwf hd hfind, StepType.external],
        hnext hnil⟩⟩
  | userTaskCompleted stepID vars inst d step result merged g tx next hinst hflight hd hfind
      htype hrows hadv =>
    cases hp
    exact hadv.agenda_status.imp_right fun ⟨hflight, hnext⟩ => ⟨hflight, fun hnil =>
      ⟨step, findStep_mem hfind, by simp [htype, StepType.external], hnext hnil⟩⟩
  | waitSignalled stepID vars inst d step merged g tx next hinst hflight hd hfind htype hrows
      hadv =>
    cases hp
    exact hadv.agenda_status.imp_right fun ⟨hflight, hnext⟩ => ⟨hflight, fun hnil =>
      ⟨step, findStep_mem hfind, by simp [htype, StepType.external], hnext hnil⟩⟩
  | timerInterrupts eventID inst event se d hinst hevent hinterrupting hse halive hd =>
    cases hp
    exact .inr ⟨halive.1, fun hnil => by cases hnil⟩
  | timerForks eventID inst event se d hinst hevent hinterrupting hse halive hd =>
    cases hp
    exact .inr ⟨halive.1, fun hnil => by cases hnil⟩
  | stepRetried inst stepID patch d g json hinst hfailed hlatest hd =>
    cases hp
    exact .inr ⟨rfl, fun hnil => by cases hnil⟩
  | _ => cases hp

/-- What an operation that dispatches nothing does to the instance it acts on. -/
inductive Committed (svc : Service) (i : Nat) (db db' : Db) : Prop
  | untouched (h : Untouched i db db')
  /-- Only jobs of an instance in flight change. -/
  | replaced (hflight : ∀ r ∈ db.instances, r.id = i → r.status.inFlight = true)
      (hi : db'.instances = db.instances) (hs : db'.stepExecutions = db.stepExecutions)
  /-- A service task without a successor is completed. -/
  | stopped (hflight : ∀ r ∈ db'.instances, r.id = i → r.status.inFlight = true)
      (inst : WorkflowInstance) (d : WorkflowDefinition) (hd : Runs svc inst d)
      (step : WorkflowStep) (hmem : step ∈ d.steps) (htype : step.type = .serviceTask)
      (hnext : step.nextStep = "")
  | ended (h : ∀ r ∈ db'.instances, r.id = i → r.status = .failed ∨ r.status = .cancelled)

/-- Every row with this id has been given the status. -/
private theorem rewritten_status {f : WorkflowInstance → WorkflowInstance} {rows : List WorkflowInstance}
    {P : InstanceStatus → Prop} (hf : ∀ r ∈ rows, r.id = i → P (f r).status)
    (hkey : ∀ r, (f r).key = r.key) :
    ∀ r ∈ Table.update (fun r => decide (r.id = i)) f rows, r.id = i → P r.status := by
  intro r hr hid
  obtain ⟨r₀, hr₀, rfl⟩ := Table.mem_update.mp hr
  have hid₀ : (f r₀).id = r₀.id := congrArg InstanceKey.id (hkey r₀)
  by_cases h : r₀.id = i
  · simpa [h] using hf r₀ hr₀ h
  · simp [h] at hid

theorem Opened.committed {op : Op} {db' : Db} {reply : Option EngineError}
    (h : Opened svc now db op (.commit db' reply)) (hwf : db.WF svc)
    (hi : op.subject db = some i) : Committed svc i db db' := by
  -- the instance of a job callback is the subject, and it is in flight
  have hcallback : ∀ {jobID job se inst}, Callback db jobID job se inst →
      (db.getJob jobID).map (·.instanceID) = some i → inst.id = i := by
    intro jobID job se inst hcb hsub
    rw [hcb.job_eq, Option.map_some, ← getInstance_id hcb.inst_eq] at hsub
    exact Option.some.inj hsub
  have hflying : ∀ {inst : WorkflowInstance}, inst ∈ db.instances → inst.id = i →
      inst.status.inFlight = true → ∀ r ∈ db.instances, r.id = i → r.status.inFlight = true := by
    intro inst hinst hid hflight r hr hrid
    rw [hwf.instance_eq hr hinst (hrid.trans hid.symm)]
    exact hflight
  cases h with
  | ignored op hrefused => exact .untouched (.refl i db)
  | outputsRejected jobID workerID vars job se inst violations hcb hacc =>
    obtain rfl := hcallback hcb hi
    exact .ended (rewritten_status (P := fun s => s = .failed ∨ s = .cancelled)
      (fun _ _ _ => .inl rfl) fun _ => rfl)
  | jobCompleted jobID workerID vars job se inst d step g hcb hacc hd hfind hnext =>
    obtain rfl := hcallback hcb hi
    obtain ⟨⟨hflight, -⟩, -⟩ := alive_of_acceptsCallback hacc
    refine .stopped ?_ inst d hd step (findStep_mem hfind) (hcb.step_type hwf hd hfind) hnext
    exact rewritten_status (P := fun s => s.inFlight = true)
      (hflying (getInstance_mem hcb.inst_eq) rfl hflight) fun _ => rfl
  | jobRetried jobID workerID errorMessage job se inst hcb hacc hretries =>
    obtain ⟨⟨hflight, -⟩, -⟩ := alive_of_acceptsCallback hacc
    exact .replaced (hflying (getInstance_mem hcb.inst_eq) (hcallback hcb hi) hflight)
      (enqueueReplacement_instances ..) (enqueueReplacement_stepExecutions ..)
  | jobFailed jobID workerID errorMessage retryable job se inst hcb hacc =>
    obtain rfl := hcallback hcb hi
    exact .ended (rewritten_status (P := fun s => s = .failed ∨ s = .cancelled)
      (fun _ _ _ => .inl rfl) fun _ => rfl)
  | jobReplaced op jobID job se inst hop hcb halive hlocked =>
    have hid : inst.id = i := by
      rcases hop with rfl | ⟨rfl, -⟩ <;> exact hcallback hcb hi
    exact .replaced (hflying (getInstance_mem hcb.inst_eq) hid halive.1)
      (enqueueReplacement_instances ..) (enqueueReplacement_stepExecutions ..)
  | leaseExtended later jobID workerID seconds lease job se inst hcb halive hlocked howner hvalid =>
    exact .untouched ((Untouched.refl i db).updateJobs rfl rfl rfl (fun _ => rfl)
      fun r _ _ => .inr rfl)
  | polled workerID jobTypes max seconds lease rowLocked => cases hi
  | timerConsumed eventID inst event hinst hevent hdead =>
    exact .untouched (.frame rfl rfl rfl)
  | housekept retention => cases hi
  | cancelled inst reason hinst hflight =>
    obtain rfl := Option.some.inj hi
    exact .ended (rewritten_status (P := fun s => s = .failed ∨ s = .cancelled)
      (fun _ _ _ => .inr rfl) fun _ => rfl)

end Openings

/-- The row of the transaction's instance has the status the transaction
    holds. -/
theorem TxWF.row_status {svc : Service} {d : WorkflowDefinition} {tx : Tx} (h : TxWF svc d tx)
    {r : WorkflowInstance} (hr : r ∈ tx.db.instances) (hid : r.id = tx.inst.id) :
    r.status = tx.inst.status := by
  obtain ⟨row, hrow, hkey, hstatus⟩ := h.mirror.row
  obtain rfl := h.wf.instance_eq hr hrow (hid.trans (congrArg InstanceKey.id hkey).symm)
  exact hstatus

/-- The row of the transaction's instance runs the transaction's definition. -/
theorem TxWF.row_runs {svc : Service} {d : WorkflowDefinition} {tx : Tx} (h : TxWF svc d tx) {r : WorkflowInstance}
    (hr : r ∈ tx.db.instances) (hid : r.id = tx.inst.id) {d' : WorkflowDefinition}
    (hd' : Runs svc r d') : d' = d := by
  obtain ⟨row, hrow, hkey, -⟩ := h.mirror.row
  obtain rfl := h.wf.instance_eq hr hrow (hid.trans (congrArg InstanceKey.id hkey).symm)
  have hruns := h.mirror.runs.of_key hkey
  unfold Runs at hruns hd'
  rw [hruns] at hd'
  cases hd'
  rfl

/-- A dispatch touches the rows of its own instance only. -/
theorem Dispatched.untouched {svc : Service} {now : Time} {d : WorkflowDefinition} {tx tx' : Tx}
    {step : WorkflowStep} {next : List StepId} (h : Dispatched svc now d tx step tx' next)
    (hwf : TxWF svc d tx) (hfind : findStep d step.id = some step) {i : Nat}
    (hi : tx.inst.id ≠ i) : Untouched i tx.db tx'.db := by
  obtain ⟨f, hv⟩ := h.instance_view
  obtain ⟨row, hrows, hkey, -⟩ := h.rows hwf hfind
  refine ⟨?_, ?_, ?_⟩
  · rw [hv.rows]
    refine Table.filter_update_other fun r _ hid => ?_
    have hid' : (f r).id = r.id := congrArg InstanceKey.id (hv.key r)
    simp [hid', of_decide_eq_true hid, hi]
  · rw [hrows]
    refine Table.filter_insert_other fun r hr => ?_
    obtain rfl := List.mem_singleton.mp hr
    have : r.instanceID = tx.inst.id := congrArg StepKey.instanceID hkey
    simp [this, hi]
  · rcases h.job_view with ⟨-, hj⟩ | ⟨-, job, hj, hjkey, -⟩
    · rw [hj]
    · rw [hj]
      refine congrArg _ (Table.filter_insert_other fun r hr => ?_)
      obtain rfl := List.mem_singleton.mp hr
      have : r.instanceID = tx.inst.id := congrArg ChildKey.instanceID hjkey
      simp [this, hi]

/-! ## The invariant rule for one instance -/

/-- `P` speaks of one instance and its rows, `Q` of a transaction on one.  It
    is enough to look at the instance an operation acts on. -/
theorem TxInvariant.ofLocal {svc : Service} {C : Db → Call → Prop} {G : Dispatch → Prop}
    {P : Db → Nat → Prop} {Q : WorkflowDefinition → Tx → List StepId → Prop}
    (hframe : ∀ {i db db'}, Untouched i db db' → P db i → P db' i)
    (hopen : ∀ {db op now p i} (fuel : Nat), db.WF svc → (∀ j, P db j) →
      C db ⟨op, now, fuel⟩ → Opened svc now db op p → op.subject db = some i →
      p.Establishes (fun db' => P db' i) Q)
    (hstep : ∀ {now d tx step pending tx' next}, TxWF svc d tx → Q d tx (step.id :: pending) →
      G ⟨now, d, tx, step.id, pending⟩ → findStep d step.id = some step →
      Dispatched svc now d tx step tx' next → Q d tx' (next ++ pending))
    (hclose : ∀ {d tx}, TxWF svc d tx → Q d tx [] → P tx.db tx.inst.id) :
    TxInvariant svc (fun db => db.WF svc) (fun d tx _ => TxWF svc d tx) C G
      (fun db => ∀ i, P db i)
      (fun d tx pending => (∀ i, i ≠ tx.inst.id → P tx.db i) ∧ Q d tx pending) where
  opening := by
    intro db op now p fuel hwf hP hC hop
    have hothers : ∀ i, op.subject db ≠ some i → P p.tables i :=
      fun i hi => hframe (hop.untouched hwf hi) (hP i)
    have hown : ∀ i, op.subject db = some i → p.Establishes (fun db' => P db' i) Q :=
      fun i hi => hopen fuel hwf hP hC hop hi
    have hagenda : ∀ d tx steps, p.agenda = some (d, tx, steps) →
        ∀ i, i ≠ tx.inst.id → op.subject db ≠ some i := by
      intro d tx steps hp i hne heq
      rw [hop.subject_agenda hp, Option.some.injEq] at heq
      exact hne heq.symm
    cases p with
    | commit db' reply =>
      intro i
      by_cases hi : op.subject db = some i
      · exact hown i hi
      · exact hothers i hi
    | dispatch d tx steps =>
      exact ⟨fun i hne => hothers i (hagenda d tx steps rfl i hne),
        hown _ (hop.subject_agenda rfl)⟩
    | chain d tx steps source =>
      exact ⟨fun i hne => hothers i (hagenda d tx steps rfl i hne),
        hown _ (hop.subject_agenda rfl)⟩
  step := by
    intro now d tx step pending tx' next hwf hJ hG hfind hdisp
    obtain ⟨f, hv⟩ := hdisp.instance_view
    have hid : tx'.inst.id = tx.inst.id := congrArg InstanceKey.id hv.inst_key
    refine ⟨?_, hstep hwf hJ.2 hG hfind hdisp⟩
    intro i hne
    rw [hid] at hne
    exact hframe (hdisp.untouched hwf hfind hne.symm) (hJ.1 i hne)
  closing := by
    intro d tx hwf hJ i
    by_cases hi : i = tx.inst.id
    · subst hi
      exact hclose hwf hJ.2
    · exact hJ.1 i hi
  acknowledge := by
    intro db source child hP i
    have hu : Untouched i db (db.completeWorkflowChain source child) := .frame rfl rfl rfl
    exact hframe hu (hP i)

end Rochallor
