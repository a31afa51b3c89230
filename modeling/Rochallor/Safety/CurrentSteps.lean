import Rochallor.Safety.Isolation
import Rochallor.Safety.Callbacks
import Rochallor.Safety.Delivery
import Rochallor.Safety.Timers

/-! # Current steps

    `current_step_ids` names the steps of an instance that have a running
    execution.  It is a list without repetition, while several executions of
    one step may run at once.  Completing a job, and an interrupting timer,
    close one execution and strike the step off the list; a second execution
    of the step, if there is one, then runs unlisted.

    The module also gives the list and the status each operation starts its
    dispatches with, for the relation between the two.
-/

namespace Rochallor

/-! ## Lists of steps -/

theorem mem_withStep {ids : List StepId} {stepID id : StepId} :
    id ∈ withStep ids stepID ↔ id ∈ ids ∨ id = stepID := by
  unfold withStep
  split
  · rename_i h
    have hmem : stepID ∈ ids := by simpa using h
    constructor
    · exact .inl
    · rintro (hid | rfl)
      · exact hid
      · exact hmem
  · simp

theorem mem_withoutStep {ids : List StepId} {stepID id : StepId} :
    id ∈ withoutStep ids stepID ↔ id ∈ ids ∧ id ≠ stepID := by
  simp [withoutStep]

theorem withStep_nodup {ids : List StepId} (h : ids.Nodup) (stepID : StepId) :
    (withStep ids stepID).Nodup := by
  unfold withStep
  split
  · exact h
  · rename_i hnot
    rw [List.nodup_append]
    refine ⟨h, by simp, ?_⟩
    intro a ha b hb hab
    obtain rfl := List.mem_singleton.mp hb
    subst hab
    exact hnot (by simpa using ha)

theorem withoutStep_nodup {ids : List StepId} (h : ids.Nodup) (stepID : StepId) :
    (withoutStep ids stepID).Nodup :=
  h.filter _

/-! ## What a dispatch does to the list -/

section Dispatches

variable {svc : Service} {now : Time} {d : WorkflowDefinition} {tx tx' : Tx} {step : WorkflowStep}
  {next : List StepId}

/-- The rows of the transaction's instance all have this list. -/
def RowSteps (tx : Tx) (ids : List StepId) : Prop :=
  ∀ r ∈ tx.db.instances, r.id = tx.inst.id → r.currentStepIDs = ids

/-- Entering a step writes the list, and what follows keeps it. -/
theorem rowSteps_of_enter {g : WorkflowInstance → WorkflowInstance}
    (hrows : tx'.db.instances = Table.update (fun r => decide (r.id = tx.inst.id)) g
      (enterStep tx step step.id).db.instances)
    (hid : tx'.inst.id = tx.inst.id) (hg : ∀ r, (g r).currentStepIDs = r.currentStepIDs) :
    RowSteps tx' (withStep tx.inst.currentStepIDs step.id) := by
  intro r hr hrid
  rw [hrows] at hr
  obtain ⟨r₁, hr₁, rfl⟩ := Table.mem_update.mp hr
  obtain ⟨r₀, hr₀, rfl⟩ := Table.mem_update.mp hr₁
  rw [hid] at hrid
  by_cases h : r₀.id = tx.inst.id
  · simp [h, hg]
  · simp [h] at hrid

theorem rowSteps_of_keep
    (hrows : tx'.db.instances = (enterStep tx step step.id).db.instances)
    (hid : tx'.inst.id = tx.inst.id) : RowSteps tx' (withStep tx.inst.currentStepIDs step.id) :=
  rowSteps_of_enter (g := id) (by rw [Table.update_id, hrows]) hid fun _ => rfl

/-- `END` writes the list without its step. -/
theorem rowSteps_of_finish {g : WorkflowInstance → WorkflowInstance} {ids : List StepId}
    (hrows : tx'.db.instances = Table.update (fun r => decide (r.id = tx.inst.id)) g
      (enterStep tx step step.id).db.instances)
    (hid : tx'.inst.id = tx.inst.id) (hg : ∀ r, (g r).currentStepIDs = ids) : RowSteps tx' ids := by
  intro r hr hrid
  rw [hrows] at hr
  obtain ⟨r₁, hr₁, rfl⟩ := Table.mem_update.mp hr
  rw [hid] at hrid
  by_cases h : r₁.id = tx.inst.id
  · simp [h, hg]
  · simp [h] at hrid

/-- The step is listed when it parks, holds or fails, and passes over the list
    otherwise.  `written` is the list in the row afterwards. -/
inductive ListView (tx tx' : Tx) (step : WorkflowStep) : Prop
  | listed (hmem : tx'.inst.currentStepIDs = withStep tx.inst.currentStepIDs step.id)
      (hrows : RowSteps tx' (withStep tx.inst.currentStepIDs step.id))
  | passed (hext : step.type.external = false)
      (hmem : tx'.inst.currentStepIDs =
        withoutStep (withStep tx.inst.currentStepIDs step.id) step.id)
      (written : List StepId) (hrows : RowSteps tx' written)
      (hwritten : written = withStep tx.inst.currentStepIDs step.id ∨
        written = withoutStep (withStep tx.inst.currentStepIDs step.id) step.id)

theorem Dispatched.list_view (h : Dispatched svc now d tx step tx' next) :
    ListView tx tx' step := by
  cases h with
  | service job rows htype hrows hids => exact .listed rfl (rowSteps_of_keep (by simp) rfl)
  | user rows htype hrows hids =>
    exact .listed rfl (rowSteps_of_enter (g := fun r => { r with status := .waiting }) rfl rfl
      fun _ => rfl)
  | wait rows htype hrows hids =>
    exact .listed rfl (rowSteps_of_enter (g := fun r => { r with status := .waiting }) rfl rfl
      fun _ => rfl)
  | route g vars next htype hpass hnext =>
    refine .passed (by rcases htype with h | h <;> simp [h, StepType.external]) rfl _ ?_ (.inl rfl)
    exact rowSteps_of_enter (g := fun r => { r with vars := g r.vars }) rfl rfl fun _ => rfl
  | fork htype =>
    exact .passed (by simp [htype, StepType.external]) rfl _ (rowSteps_of_keep rfl rfl) (.inl rfl)
  | transform g vars htype hpass =>
    refine .passed (by simp [htype, StepType.external]) rfl _ ?_ (.inl rfl)
    exact rowSteps_of_enter (g := fun r => { r with vars := g r.vars }) rfl rfl fun _ => rfl
  | hold gateway htype hgateway hcount => exact .listed rfl (rowSteps_of_keep rfl rfl)
  | join gateway htype hgateway hcount =>
    exact .passed (by simp [htype, StepType.external]) rfl _ (rowSteps_of_keep rfl rfl) (.inl rfl)
  | finish chains htype ids hids hchains =>
    refine .passed (by simp [htype, StepType.external]) hids _ ?_ (.inr rfl)
    exact rowSteps_of_finish (g := fun r =>
      { r with status := .completed, completedAt := some now, currentStepIDs := ids }) rfl rfl
      fun _ => hids
  | fail reason htype hfails =>
    exact .listed rfl (rowSteps_of_enter (g := fun r => { r with
      status := .failed, failureReason := some reason, completedAt := some now }) rfl rfl
      fun _ => rfl)

end Dispatches

/-! ## What an operation does to the list -/

/-- Another execution of the same step of the instance is running. -/
def Db.crowded (db : Db) (se : StepExecution) : Bool :=
  db.stepExecutions.any fun r => decide (r.id ≠ se.id) &&
    Db.runningAt se.instanceID se.stepID r

/-- The step a completed job belongs to. -/
def stepOfJob (svc : Service) (db : Db) (jobID : Nat) : Option (StepExecution × WorkflowStep) := do
  let job ← db.getJob jobID
  let se ← db.getStepExecution job.stepExecutionID
  let inst ← db.getInstance job.instanceID
  let d ← (svc.defRepo.getVersion inst.definitionID inst.definitionVersion).toOption
  let step ← findStep d se.stepID
  return (se, step)

/-- The operation closes one execution of a step and strikes the step off the
    list, while another execution of the step is running. -/
def Op.unlists (svc : Service) (now : Time) (db : Db) : Op → Bool
  | .completeJob jobID workerID vars =>
    callbackAccepted now db jobID workerID &&
      (stepOfJob svc db jobID).any fun x => x.2.leaves vars && db.crowded x.1
  | .fireBoundaryEvent eventID instanceID =>
    (db.boundaryEvents.find? (Db.dueEvent now eventID instanceID)).any fun event =>
      event.interrupting && (db.getInstance instanceID).any (·.status.inFlight) &&
        (db.getStepExecution event.stepExecutionID).any fun se =>
          decide (se.status = .running) && db.crowded se
  | _ => false

/-- How an operation that dispatches leaves the list and the status of its
    instance. -/
inductive ListOpened (svc : Service) (now : Time) (db : Db) (op : Op) (d : WorkflowDefinition)
    (tx : Tx) : List StepId → Prop
  | fresh (first : StepId) (hmem : tx.inst.currentStepIDs = [first]) (hrows : RowSteps tx [first])
      (hstatus : tx.inst.status = .active)
      (hnone : ∀ se ∈ db.stepExecutions, se.instanceID ≠ tx.inst.id) :
      ListOpened svc now db op d tx [first]
  /-- A completed step is struck off, and the status follows from the rest. -/
  | advanced (steps : List StepId) (row : WorkflowInstance) (step : WorkflowStep)
      (hrow : row ∈ db.instances) (hid : row.id = tx.inst.id)
      (hmem : tx.inst.currentStepIDs = withoutStep row.currentStepIDs step.id)
      (hrows : RowSteps tx tx.inst.currentStepIDs)
      (hstatus : tx.inst.status = recomputeInstanceStatus d tx.inst.currentStepIDs ∨
        tx.inst.status = .failed)
      (hclear : op.unlists svc now db = false → ∀ r ∈ tx.db.stepExecutions,
        r.instanceID = tx.inst.id → r.status = .running → r.stepID ≠ step.id) :
      ListOpened svc now db op d tx steps
  /-- An interrupting timer strikes its step off in memory. -/
  | interrupted (target : StepId) (row : WorkflowInstance) (se : StepExecution)
      (event : BoundaryEventSchedule) (eventID : Nat)
      (hop : op = .fireBoundaryEvent eventID tx.inst.id)
      (hevent : db.boundaryEvents.find? (Db.dueEvent now eventID tx.inst.id) = some event)
      (hinterrupting : event.interrupting = true)
      (hse : db.getStepExecution event.stepExecutionID = some se)
      (htarget : target = event.targetStepID)
      (hrow : db.getInstance tx.inst.id = some row) (hid : row.id = tx.inst.id)
      (hruns : Runs svc row d) (halive : Alive se row)
      (hmem : tx.inst.currentStepIDs = withoutStep row.currentStepIDs se.stepID)
      (hrows : RowSteps tx row.currentStepIDs) (hstatus : tx.inst.status = row.status)
      (hclear : op.unlists svc now db = false → ∀ r ∈ tx.db.stepExecutions,
        r.instanceID = tx.inst.id → r.status = .running → r.stepID ≠ se.stepID) :
      ListOpened svc now db op d tx [target]
  /-- A timer beside its step leaves everything as it is. -/
  | forked (target : StepId) (row : WorkflowInstance) (hrow : row ∈ db.instances)
      (hid : row.id = tx.inst.id) (hruns : Runs svc row d)
      (hmem : tx.inst.currentStepIDs = row.currentStepIDs)
      (hrows : RowSteps tx row.currentStepIDs) (hstatus : tx.inst.status = row.status)
      (hflight : row.status.inFlight = true) :
      ListOpened svc now db op d tx [target]
  /-- A failed instance is active again, with the list it had. -/
  | retried (stepID : StepId) (patch : GoMap Value) (row : WorkflowInstance) (step : WorkflowStep)
      (hop : op = .retryFailedStep tx.inst.id stepID patch)
      (hrow : db.getInstance tx.inst.id = some row) (hid : row.id = tx.inst.id)
      (hruns : Runs svc row d) (hstep : findStep d stepID = some step)
      (hmem : tx.inst.currentStepIDs = row.currentStepIDs)
      (hrows : RowSteps tx row.currentStepIDs) (hstatus : tx.inst.status = .active)
      (hfailed : row.status = .failed) :
      ListOpened svc now db op d tx [stepID]

section Openings

variable {svc : Service} {now : Time} {db : Db} {d : WorkflowDefinition} {op : Op}

theorem stepOfJob_eq {jobID : Nat} {job : Job} {se : StepExecution} {inst : WorkflowInstance}
    (hcb : Callback db jobID job se inst) (hd : Runs svc inst d) {step : WorkflowStep}
    (hfind : findStep d se.stepID = some step) : stepOfJob svc db jobID = some (se, step) := by
  have hd' : svc.defRepo.getVersion inst.definitionID inst.definitionVersion = .ok d := hd
  simp [stepOfJob, hcb.job_eq, hcb.se_eq, hcb.inst_eq, hd', hfind, Except.toOption]

/-- Rewriting the one row of the instance with a list. -/
private theorem rowSteps_update (hwf : db.WF svc) {tx : Tx} {inst : WorkflowInstance}
    (hinst : inst ∈ db.instances) {f : WorkflowInstance → WorkflowInstance} {ids : List StepId}
    (hrows : tx.db.instances = Table.update (fun r => decide (r.id = inst.id)) f db.instances)
    (hid : tx.inst.id = inst.id) (hf : (f inst).currentStepIDs = ids) : RowSteps tx ids := by
  intro r hr hrid
  rw [hrows] at hr
  obtain ⟨r₀, hr₀, rfl⟩ := Table.mem_update.mp hr
  by_cases h : r₀.id = inst.id
  · obtain rfl := hwf.instance_eq hr₀ hinst h
    simp [hf]
  · simp [h, hid] at hrid

theorem rowSteps_read (hwf : db.WF svc) {tx : Tx} {inst : WorkflowInstance}
    (hinst : inst ∈ db.instances) (hrows : tx.db.instances = db.instances)
    (hid : tx.inst.id = inst.id) : RowSteps tx inst.currentStepIDs :=
  rowSteps_update hwf hinst (f := id) (by rw [Table.update_id, hrows]) hid rfl

/-- The completed step is struck off by `advancePastStep`. -/
theorem Advanced.list_opened {tx tx' : Tx} {step : WorkflowStep} {next : List StepId}
    (h : Advanced now d tx step tx' next) {inst : WorkflowInstance}
    (hinst : inst ∈ db.instances) (hid : tx.inst.id = inst.id)
    (hids : tx.inst.currentStepIDs = inst.currentStepIDs)
    (hclear : op.unlists svc now db = false → ∀ r ∈ tx.db.stepExecutions,
      r.instanceID = inst.id → r.status = .running → r.stepID ≠ step.id) :
    ListOpened svc now db op d tx' next := by
  have hadv : RowSteps (advanced d tx step) (withoutStep inst.currentStepIDs step.id) := by
    intro r hr hrid
    obtain ⟨r₁, hr₁, rfl⟩ := Table.mem_update.mp hr
    by_cases h₁ : r₁.id = tx.inst.id
    · simp [h₁, hids]
    · simp [h₁] at hrid
  cases h with
  | on target htarget =>
    exact .advanced _ inst step hinst hid.symm (by simp [hids]) (by simpa [hids] using hadv)
      (.inl rfl) fun hu r hr hi => hclear hu r hr (hi.trans hid)
  | stop hnext hlen =>
    exact .advanced _ inst step hinst hid.symm (by simp [hids]) (by simpa [hids] using hadv)
      (.inl rfl) fun hu r hr hi => hclear hu r hr (hi.trans hid)
  | fail reason =>
    refine .advanced _ inst step hinst hid.symm (by simp [hids]) ?_ (.inr rfl) ?_
    · intro r hr hrid
      obtain ⟨r₁, hr₁, rfl⟩ := Table.mem_update.mp hr
      by_cases h₁ : r₁.id = tx.inst.id
      · have := hadv r₁ hr₁ h₁
        simpa [h₁, hids] using this
      · simp [h₁] at hrid
    · intro hu r hr hi hrun
      exact hclear hu r (running_of_update (fun _ => by simp) hr hrun) (hi.trans hid) hrun

/-- Closing one execution leaves none of its step running, unless it is
    crowded. -/
private theorem closed_one {se : StepExecution} {f : StepExecution → StepExecution}
    (hf : ∀ r, (f r).status ≠ .running) (hcrowd : db.crowded se = false) :
    ∀ r ∈ Table.update (fun r => decide (r.id = se.id)) f db.stepExecutions,
      r.instanceID = se.instanceID → r.status = .running → r.stepID ≠ se.stepID := by
  intro r hr hi hrun hstep
  obtain ⟨hmem, hne⟩ := running_kept hf hr hrun
  have hclear := List.any_eq_false.mp hcrowd r hmem
  simp only [decide_eq_false_iff_not] at hne
  exact hclear (by simp [Db.runningAt, hne, hi, hrun, hstep])

private theorem closed_all {instanceID : Nat} {stepID : StepId} {f : StepExecution → StepExecution}
    (hf : ∀ r, (f r).status ≠ .running) :
    ∀ r ∈ Table.update (Db.runningAt instanceID stepID) f db.stepExecutions,
      r.instanceID = instanceID → r.status = .running → r.stepID ≠ stepID := by
  intro r hr hi hrun hstep
  obtain ⟨-, hne⟩ := running_kept hf hr hrun
  simp [Db.runningAt, hi, hrun, hstep] at hne

theorem Opened.list_opened {p : Plan} (h : Opened svc now db op p) (hwf : db.WF svc) {tx : Tx}
    {steps : List StepId} (hp : p.agenda = some (d, tx, steps)) :
    ListOpened svc now db op d tx steps := by
  have hfresh : ∀ se ∈ db.stepExecutions, se.instanceID ≠ db.nextId :=
    fun se hse => Nat.ne_of_lt (hwf.instance_lt se hse)
  have hstart : ∀ {d : WorkflowDefinition} {json : Json} {key : Option String},
      RowSteps (startTx db d json key) [(d.steps.map (·.id)).headD ""] := by
    intro d json key r hr hid
    rcases List.mem_append.mp hr with hr | hr
    · have hlt := hwf.shape.instance_ids.lt r.id (by
        simp only [Db.shape, List.map_map]
        exact List.mem_map_of_mem hr)
      have hid' : r.id = db.nextId := hid
      have hn : db.shape.nextId = db.nextId := rfl
      omega
    · obtain rfl := List.mem_singleton.mp hr
      rfl
  cases h with
  | started definitionID version vars businessKey d json key hd hsteps =>
    cases hp
    exact .fresh _ rfl hstart rfl hfresh
  | chainStarted source d json key hd hsteps hclaim =>
    cases hp
    exact .fresh _ rfl hstart rfl hfresh
  | jobAdvanced jobID workerID vars job se inst d step g json tx next hcb hacc hd hfind hadv
      hleaves hjson hfails =>
    cases hp
    refine hadv.list_opened (getInstance_mem hcb.inst_eq) rfl rfl ?_
    intro hunlists r hr hi hrun
    have hstepOf := stepOfJob_eq hcb hd hfind
    have hcrowd : db.crowded se = false := by
      simpa [Op.unlists, callbackAccepted_of hcb, hacc, hstepOf, hleaves] using hunlists
    rw [findStep_id hfind]
    exact closed_one (fun _ => by simp) hcrowd r hr (hi.trans (hcb.service hwf).2.symm) hrun
  | userTaskCompleted stepID vars inst d step result merged g tx next hinst hflight hd hfind
      htype hrows hadv =>
    cases hp
    refine hadv.list_opened (getInstance_mem hinst) rfl rfl ?_
    intro _ r hr hi hrun
    rw [findStep_id hfind]
    exact closed_all (fun _ => by simp) r hr hi hrun
  | waitSignalled stepID vars inst d step merged g tx next hinst hflight hd hfind htype hrows
      hadv =>
    cases hp
    refine hadv.list_opened (getInstance_mem hinst) rfl rfl ?_
    intro _ r hr hi hrun
    rw [findStep_id hfind]
    exact closed_all (fun _ => by simp) r hr hi hrun
  | timerInterrupts eventID inst event se d hinst hevent hinterrupting hse halive hd =>
    cases hp
    refine .interrupted _ inst se event eventID rfl hevent hinterrupting hse rfl hinst rfl hd halive
      rfl (rowSteps_read hwf (getInstance_mem hinst) rfl rfl) rfl ?_
    intro hunlists r hr hi hrun
    have hcrowd : db.crowded se = false := by
      simpa [Op.unlists, hevent, hinterrupting, hinst, halive.1, hse, halive.2] using hunlists
    have hse' : se.instanceID = inst.id := timer_instance hwf hevent hse
    exact closed_one (fun _ => by simp) hcrowd r hr (hi.trans hse'.symm) hrun
  | timerForks eventID inst event se d hinst hevent hinterrupting hse halive hd =>
    cases hp
    exact .forked _ inst (getInstance_mem hinst) rfl hd rfl
      (rowSteps_read hwf (getInstance_mem hinst) rfl rfl) rfl halive.1
  | stepRetried inst stepID patch d g json hinst hfailed hlatest hd step hfind =>
    cases hp
    refine .retried stepID patch inst step rfl hinst rfl hd hfind rfl ?_ rfl hfailed
    refine rowSteps_update hwf (getInstance_mem hinst) (f := fun r => { r with
      status := .active, failureReason := none, completedAt := none, vars := g r.vars }) ?_ rfl rfl
    exact Table.update_update _ fun r hr => hr
  | _ => cases hp

/-- A call that dispatches nothing leaves the lists alone, and the statuses too
    unless it ends an instance. -/
theorem Opened.list_kept {db' : Db} {reply : Option EngineError}
    (h : Opened svc now db op (.commit db' reply)) {r' : WorkflowInstance}
    (hr' : r' ∈ db'.instances) : ∃ r ∈ db.instances, r.key = r'.key ∧
      r'.currentStepIDs = r.currentStepIDs ∧ (r'.status = r.status ∨ r'.status.inFlight = false) := by
  have hupdate : ∀ {p : WorkflowInstance → Bool} (f : WorkflowInstance → WorkflowInstance),
      (∀ r, (f r).key = r.key ∧ (f r).currentStepIDs = r.currentStepIDs ∧
        ((f r).status = r.status ∨ (f r).status.inFlight = false)) →
      r' ∈ Table.update p f db.instances → ∃ r ∈ db.instances, r.key = r'.key ∧
        r'.currentStepIDs = r.currentStepIDs ∧
        (r'.status = r.status ∨ r'.status.inFlight = false) := by
    intro p f hf hmem
    obtain ⟨r, hr, rfl⟩ := Table.mem_update.mp hmem
    refine ⟨r, hr, ?_⟩
    by_cases hp : p r = true
    · obtain ⟨hkey, hids, hstatus⟩ := hf r
      simp only [hp, if_true]
      exact ⟨hkey.symm, hids, hstatus⟩
    · simp [hp]
  have hsame : r' ∈ db.instances → ∃ r ∈ db.instances, r.key = r'.key ∧
      r'.currentStepIDs = r.currentStepIDs ∧
      (r'.status = r.status ∨ r'.status.inFlight = false) :=
    fun hmem => ⟨r', hmem, rfl, rfl, .inl rfl⟩
  cases h with
  | outputsRejected jobID workerID vars job se inst violations hcb hacc =>
    exact hupdate (fun r => { r with
      status := .failed, failureReason := some _, completedAt := some now })
      (fun _ => ⟨rfl, rfl, .inr rfl⟩) hr'
  | jobCompleted jobID workerID vars job se inst d step g hcb hacc hd hfind hnext =>
    exact hupdate (fun r => { r with vars := g r.vars }) (fun _ => ⟨rfl, rfl, .inl rfl⟩) hr'
  | jobRetried jobID workerID errorMessage job se inst hcb hacc hretries =>
    exact hsame (by simpa using hr')
  | jobFailed jobID workerID errorMessage retryable job se inst hcb hacc =>
    exact hupdate (fun r => { r with
      status := .failed, failureReason := some _, completedAt := some now })
      (fun _ => ⟨rfl, rfl, .inr rfl⟩) hr'
  | jobReplaced op jobID job se inst hop hcb halive hlocked => exact hsame (by simpa using hr')
  | polled workerID jobTypes max seconds lease rowLocked =>
    obtain ⟨jobs, hpoll⟩ := db.pollJobs_tables now workerID jobTypes max lease rowLocked
    rw [hpoll] at hr'
    exact hsame hr'
  | cancelled inst reason hinst hflight =>
    exact hupdate (fun r => { r with
      status := .cancelled, failureReason := some reason, completedAt := some now })
      (fun _ => ⟨rfl, rfl, .inr rfl⟩) hr'
  | _ => exact hsame hr'

end Openings

/-! ## The running steps are listed -/

/-- The instance lists each step once, and every step that is running. -/
def Listed (db : Db) (i : Nat) : Prop :=
  ∀ r ∈ db.instances, r.id = i → r.currentStepIDs.Nodup ∧
    ∀ se ∈ db.stepExecutions, se.instanceID = i → se.status = .running →
      se.stepID ∈ r.currentStepIDs

/-- In a transaction the list in memory may be ahead of the row by steps struck
    off it. -/
structure ListedTx (tx : Tx) : Prop where
  nodup : tx.inst.currentStepIDs.Nodup
  running : ∀ se ∈ tx.db.stepExecutions, se.instanceID = tx.inst.id → se.status = .running →
    se.stepID ∈ tx.inst.currentStepIDs
  row : ∀ r ∈ tx.db.instances, r.id = tx.inst.id → r.currentStepIDs.Nodup ∧
    tx.inst.currentStepIDs ⊆ r.currentStepIDs

section Listed

variable {svc : Service} {now : Time} {db : Db} {d : WorkflowDefinition} {op : Op}

theorem Listed.untouched {i : Nat} {db' : Db} (hu : Untouched i db db') (h : Listed db i) :
    Listed db' i := by
  intro r hr hid
  obtain ⟨hnd, hrun⟩ := h r ((hu.mem_instance hid).mp hr) hid
  exact ⟨hnd, fun se hse hi => hrun se ((hu.mem_step hi).mp hse) hi⟩

theorem ListedTx.closing {tx : Tx} (h : ListedTx tx) : Listed tx.db tx.inst.id := by
  intro r hr hid
  obtain ⟨hnd, hsub⟩ := h.row r hr hid
  exact ⟨hnd, fun se hse hi hrun => hsub (h.running se hse hi hrun)⟩

/-- The list of a row whose step has been struck off still has the others. -/
private theorem ListedTx.struck {tx : Tx} {row : WorkflowInstance} {stepID : StepId}
    (h : Listed db tx.inst.id) (hrow : row ∈ db.instances) (hid : row.id = tx.inst.id)
    (hmem : tx.inst.currentStepIDs = withoutStep row.currentStepIDs stepID)
    {ids : List StepId} (hrows : RowSteps tx ids)
    (hids : ids = row.currentStepIDs ∨ ids = tx.inst.currentStepIDs)
    (hold : ∀ se ∈ tx.db.stepExecutions, se.status = .running → se ∈ db.stepExecutions)
    (hclear : ∀ r ∈ tx.db.stepExecutions, r.instanceID = tx.inst.id → r.status = .running →
      r.stepID ≠ stepID) : ListedTx tx := by
  obtain ⟨hnd, hrun⟩ := h row hrow hid
  have hnodup : tx.inst.currentStepIDs.Nodup := hmem ▸ withoutStep_nodup hnd stepID
  refine ⟨hnodup, ?_, ?_⟩
  · intro se hse hi hrunning
    rw [hmem, mem_withoutStep]
    exact ⟨hrun se (hold se hse hrunning) hi hrunning, hclear se hse hi hrunning⟩
  · intro r hr hrid
    rw [hrows r hr hrid]
    rcases hids with rfl | rfl
    · exact ⟨hnd, by rw [hmem]; exact fun id hid => (mem_withoutStep.mp hid).1⟩
    · exact ⟨hnodup, fun id hid => hid⟩

/-- The row and its list are as they were. -/
private theorem ListedTx.kept {tx : Tx} {row : WorkflowInstance} (h : Listed db tx.inst.id)
    (hrow : row ∈ db.instances) (hid : row.id = tx.inst.id)
    (hmem : tx.inst.currentStepIDs = row.currentStepIDs) (hrows : RowSteps tx row.currentStepIDs)
    (hold : ∀ se ∈ tx.db.stepExecutions, se.status = .running → se ∈ db.stepExecutions) :
    ListedTx tx := by
  obtain ⟨hnd, hrun⟩ := h row hrow hid
  refine ⟨hmem ▸ hnd, ?_, ?_⟩
  · intro se hse hi hrunning
    rw [hmem]
    exact hrun se (hold se hse hrunning) hi hrunning
  · intro r hr hrid
    rw [hrows r hr hrid, hmem]
    exact ⟨hnd, fun id hid => hid⟩

theorem ListOpened.listed {tx : Tx} {steps : List StepId}
    (hl : ListOpened svc now db op d tx steps) (h : Listed db tx.inst.id)
    (hunlists : op.unlists svc now db = false)
    (hold : ∀ se ∈ tx.db.stepExecutions, se.status = .running → se ∈ db.stepExecutions) :
    ListedTx tx := by
  cases hl with
  | fresh first hmem hrows hstatus hnone =>
    refine ⟨by simp [hmem], ?_, ?_⟩
    · intro se hse hi hrun
      exact absurd hi (hnone se (hold se hse hrun))
    · intro r hr hid
      simp [hrows r hr hid, hmem]
  | advanced steps row step hrow hid hmem hrows hstatus hclear =>
    exact .struck h hrow hid hmem hrows (.inr rfl) hold (hclear hunlists)
  | interrupted target row se event eventID hop hevent hinterrupting hse htarget hrow hid hruns
      halive hmem hrows hstatus hclear =>
    exact .struck h (getInstance_mem hrow) hid hmem hrows (.inl rfl) hold (hclear hunlists)
  | forked target row hrow hid hruns hmem hrows hstatus hflight =>
    exact .kept h hrow hid hmem hrows hold
  | retried stepID patch row step hop hrow hid hruns hstep hmem hrows hstatus hfailed =>
    exact .kept h (getInstance_mem hrow) hid hmem hrows hold

/-- A dispatch lists the step it parks. -/
theorem Dispatched.listed {tx tx' : Tx} {step : WorkflowStep} {next : List StepId}
    (hdisp : Dispatched svc now d tx step tx' next) (hwf : TxWF svc d tx)
    (hfind : findStep d step.id = some step) (h : ListedTx tx) : ListedTx tx' := by
  obtain ⟨f, hv⟩ := hdisp.instance_view
  have hid : tx'.inst.id = tx.inst.id := congrArg InstanceKey.id hv.inst_key
  obtain ⟨row, hrows, hkey, -, hstatus⟩ := hdisp.rows hwf hfind
  have hstepID : row.stepID = step.id := congrArg StepKey.stepID hkey
  -- what is running afterwards: what was, and the step if it is parked
  have hrunning : ∀ se ∈ tx'.db.stepExecutions, se.instanceID = tx'.inst.id →
      se.status = .running → (se.stepID ∈ tx.inst.currentStepIDs ∧
        (step.type.external = false → se.stepID ≠ step.id)) ∨
        (se.stepID = step.id ∧ step.type.external = true) := by
    intro se hse hi hrun
    rw [hrows] at hse
    rcases List.mem_append.mp hse with hse | hse
    · refine .inl ⟨h.running se hse (hi.trans hid) hrun, ?_⟩
      intro hext heq
      have htype := hwf.step_type hse (hi.trans hid) (heq ▸ hfind)
      have hparked := hwf.wf.parked se hse hrun
      rw [htype, hext] at hparked
      cases hparked
    · obtain rfl := List.mem_singleton.mp hse
      refine .inr ⟨hstepID, ?_⟩
      by_contra hext
      rw [hstatus, if_neg hext] at hrun
      exact closedStatus_ne_running hrun
  have hnd := withStep_nodup h.nodup step.id
  cases hdisp.list_view with
  | listed hmem hrowids =>
    refine ⟨hmem ▸ hnd, ?_, ?_⟩
    · intro se hse hi hrun
      rw [hmem, mem_withStep]
      rcases hrunning se hse hi hrun with ⟨hin, -⟩ | ⟨heq, -⟩
      · exact .inl hin
      · exact .inr heq
    · intro r hr hrid
      rw [hrowids r hr hrid, hmem]
      exact ⟨hnd, fun id hid => hid⟩
  | passed hext hmem written hrowids hwritten =>
    refine ⟨hmem ▸ withoutStep_nodup hnd step.id, ?_, ?_⟩
    · intro se hse hi hrun
      rw [hmem, mem_withoutStep, mem_withStep]
      rcases hrunning se hse hi hrun with ⟨hin, hne⟩ | ⟨-, hext'⟩
      · exact ⟨.inl hin, hne hext⟩
      · rw [hext] at hext'
        cases hext'
    · intro r hr hrid
      rw [hrowids r hr hrid, hmem]
      rcases hwritten with rfl | rfl
      · exact ⟨hnd, fun id hid => (mem_withoutStep.mp hid).1⟩
      · exact ⟨withoutStep_nodup hnd step.id, fun id hid => hid⟩

theorem listed_invariant (svc : Service) :
    TxInvariant svc (fun db => db.WF svc) (fun d tx _ => TxWF svc d tx)
      (fun db call => call.op.unlists svc call.now db = false) (fun _ => True)
      (fun db => ∀ i, Listed db i)
      (fun _ tx _ => (∀ i, i ≠ tx.inst.id → Listed tx.db i) ∧ ListedTx tx) := by
  refine TxInvariant.ofLocal (fun hu h => h.untouched hu) ?_ ?_ ?_
  · intro db op now p i fuel hwf hP hC hop hi
    have hold : ∀ se ∈ p.tables.stepExecutions, se.status = .running → se ∈ db.stepExecutions :=
      fun se hse hrun => hop.running hse hrun
    cases p with
    | commit db' reply =>
      intro r' hr' hid
      obtain ⟨r, hr, hkey, hids, -⟩ := hop.list_kept hr'
      have hrid : r.id = i := (congrArg InstanceKey.id hkey).trans hid
      obtain ⟨hnd, hrun⟩ := hP i r hr hrid
      rw [hids]
      exact ⟨hnd, fun se hse hsi hrunning => hrun se (hold se hse hrunning) hsi hrunning⟩
    | dispatch d tx steps => exact (hop.list_opened hwf rfl).listed (hP _) hC hold
    | chain d tx steps source => exact (hop.list_opened hwf rfl).listed (hP _) hC hold
  · intro now d tx step pending tx' next hwf h _ hfind hdisp
    exact hdisp.listed hwf hfind h
  · intro d tx _ h
    exact h.closing

end Listed

/-- In every run in which no step is struck off the list while another
    execution of it is running, every instance lists each step once and every
    step that is running. -/
theorem running_steps_listed (svc : Service) (calls : List Call)
    (hguard : Run.Guarded (apply svc)
      (fun db call => call.op.unlists svc call.now db = false) {} calls) :
    ∀ r ∈ (run svc calls).instances, r.currentStepIDs.Nodup ∧
      ∀ se ∈ (run svc calls).stepExecutions, se.instanceID = r.id → se.status = .running →
        se.stepID ∈ r.currentStepIDs := by
  intro r hr
  have hlisted : ∀ i, Listed (run svc calls) i :=
    (((wf_invariant svc).and (listed_invariant svc)).run
      ⟨wf_empty svc, fun _ _ h => by simp at h⟩
      (hguard.mono fun _ _ h => ⟨h, fun _ _ => trivial⟩)).2
  exact hlisted r.id r hr rfl

/-- Two reviews in parallel that both lead to the charge and its receipt. -/
def chargeAfterReviews : WorkflowDefinition where
  id := "charge-after-reviews"
  version := 1
  name := "charge after reviews"
  steps := [
    { id := "fork", name := "fork", type := .parallelGateway,
      parallelNextSteps := ["legal", "risk"], joinStep := "join" },
    { id := "legal", name := "legal", type := .userTask, nextStep := "charge" },
    { id := "risk", name := "risk", type := .userTask, nextStep := "charge" },
    { id := "charge", name := "charge", type := .serviceTask, jobType := "charge",
      nextStep := "receipt" },
    { id := "receipt", name := "receipt", type := .serviceTask, jobType := "receipt",
      nextStep := "join" },
    { id := "join", name := "join", type := .joinGateway, nextStep := "end" },
    { id := "end", name := "end", type := .endStep }]

/-- Both reviews are done, and the charge of the first branch. -/
def chargedOnceRun : List Call :=
  [chargeAfterReviews.start, ⟨.completeUserTask 0 "legal" [], 1, 16⟩,
    ⟨.completeUserTask 0 "risk" [], 2, 16⟩, ⟨.completeJob 7 "worker" [], 3, 16⟩]

/-- The legal branch is charged before the risk review is done. -/
def chargedInTurnRun : List Call :=
  [chargeAfterReviews.start, ⟨.completeUserTask 0 "legal" [], 1, 16⟩,
    ⟨.completeJob 7 "worker" [], 2, 16⟩, ⟨.completeUserTask 0 "risk" [], 3, 16⟩]

theorem running_steps_listed_chargedInTurn :
    ∃ r ∈ (run (.ofList [chargeAfterReviews]) chargedInTurnRun).instances,
      r.currentStepIDs.Nodup ∧ "charge" ∈ r.currentStepIDs := by
  have hstep : (run (.ofList [chargeAfterReviews]) chargedInTurnRun).stepExecutions.any
      fun se => decide (se.instanceID = 0) && decide (se.status = .running) &&
        decide (se.stepID = "charge") := by
    decide +kernel
  have hrow : (run (.ofList [chargeAfterReviews]) chargedInTurnRun).instances.any
      fun r => decide (r.id = 0) := by
    decide +kernel
  obtain ⟨se, hse, hs⟩ := List.any_eq_true.mp hstep
  obtain ⟨r, hr, hid⟩ := List.any_eq_true.mp hrow
  simp only [Bool.and_eq_true, decide_eq_true_eq] at hs hid
  obtain ⟨⟨hi, hrun⟩, hid'⟩ := hs
  obtain ⟨hnd, hlisted⟩ := running_steps_listed _ chargedInTurnRun (by decide +kernel) r hr
  exact ⟨r, hr, hnd, hid' ▸ hlisted se hse (hi.trans hid.symm) hrun⟩

/-- The second charge is still running, and the instance does not list it. -/
theorem charge_running_unlisted :
    ¬ ∀ svc : Service, svc.Uploaded Accepted → ∀ calls, ∀ r ∈ (run svc calls).instances,
      r.status.inFlight = true → r.currentStepIDs.Nodup ∧
      ∀ se ∈ (run svc calls).stepExecutions, se.instanceID = r.id → se.status = .running →
        se.stepID ∈ r.currentStepIDs := by
  intro h
  have hup : (Service.ofList [chargeAfterReviews]).Uploaded Accepted :=
    Service.uploaded_ofList (by decide +kernel)
  have hstep : (run (.ofList [chargeAfterReviews]) chargedOnceRun).stepExecutions.any
      fun se => decide (se.instanceID = 0) && decide (se.status = .running) &&
        decide (se.stepID = "charge") := by
    decide +kernel
  have hrow : (run (.ofList [chargeAfterReviews]) chargedOnceRun).instances.any
      fun r => decide (r.id = 0) && r.status.inFlight && decide ("charge" ∉ r.currentStepIDs) := by
    decide +kernel
  obtain ⟨se, hse, hs⟩ := List.any_eq_true.mp hstep
  obtain ⟨r, hr, hr'⟩ := List.any_eq_true.mp hrow
  simp only [Bool.and_eq_true, decide_eq_true_eq] at hs hr'
  obtain ⟨⟨hi, hrun⟩, hid'⟩ := hs
  obtain ⟨⟨hid, hflight⟩, hnot⟩ := hr'
  exact hnot (hid' ▸ (h _ hup chargedOnceRun r hr hflight).2 se hse (hi.trans hid.symm) hrun)

end Rochallor
