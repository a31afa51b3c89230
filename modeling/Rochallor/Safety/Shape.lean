import Rochallor.Safety.Rule

/-! # The shape of the database

    What the rows say about identity, leaving out everything an operation
    overwrites: ids, foreign keys, step ids and step types.  Updates never
    change the shape, so its well-formedness only has to be checked where rows
    are inserted.
-/

namespace Rochallor

/-- The keys of every table. -/
structure Shape where
  instances : List InstanceKey
  steps : List StepKey
  jobs : List ChildKey
  tasks : List TaskKey
  timers : List ChildKey
  nextId : Nat

def Db.shape (db : Db) : Shape where
  instances := db.instances.map (·.key)
  steps := db.stepExecutions.map (·.key)
  jobs := db.jobs.map (·.key)
  tasks := db.userTasks.map (·.key)
  timers := db.boundaryEvents.map (·.key)
  nextId := db.nextId

/-! ## Well-formed shapes -/

/-- Ids are primary keys, foreign keys resolve, and a step execution has the
    type its step has in the definition of its instance. -/
structure Shape.WF (svc : Service) (s : Shape) : Prop where
  instance_ids : Table.Keyed s.nextId (s.instances.map (·.id))
  step_ids : Table.Keyed s.nextId (s.steps.map (·.id))
  job_ids : Table.Keyed s.nextId (s.jobs.map (·.id))
  task_ids : Table.Keyed s.nextId (s.tasks.map (·.id))
  timer_ids : Table.Keyed s.nextId (s.timers.map (·.id))
  step_instance : ∀ k ∈ s.steps, ∃ i ∈ s.instances, i.id = k.instanceID ∧
    ∃ d, svc.defRepo.getVersion i.definitionID i.definitionVersion = .ok d ∧
      ∃ step, findStep d k.stepID = some step ∧ step.type = k.stepType
  job_step : ∀ k ∈ s.jobs, ∃ e ∈ s.steps, e.id = k.stepExecutionID ∧
    e.instanceID = k.instanceID ∧ e.stepType = .serviceTask
  task_step : ∀ k ∈ s.tasks, ⟨k.stepExecutionID, k.instanceID, k.stepID, .userTask⟩ ∈ s.steps
  timer_step : ∀ k ∈ s.timers, ∃ e ∈ s.steps, e.id = k.stepExecutionID ∧
    e.instanceID = k.instanceID

namespace Shape.WF

variable {svc : Service} {s : Shape}

/-- Ids may be skipped and timers deleted. -/
theorem weaken (h : s.WF svc) {timers : List ChildKey} {n : Nat}
    (ht : timers.Sublist s.timers) (hn : s.nextId ≤ n) :
    ({ s with timers := timers, nextId := n } : Shape).WF svc where
  instance_ids := h.instance_ids.mono hn
  step_ids := h.step_ids.mono hn
  job_ids := h.job_ids.mono hn
  task_ids := h.task_ids.mono hn
  timer_ids := (h.timer_ids.mono hn).sublist (ht.map _)
  step_instance := h.step_instance
  job_step := h.job_step
  task_step := h.task_step
  timer_step := fun k hk => h.timer_step k (ht.subset hk)

theorem addInstance (h : s.WF svc) (definitionID : String) (version : Int)
    (businessKey : Option String) :
    ({ s with instances := s.instances ++ [⟨s.nextId, definitionID, version, businessKey⟩],
              nextId := s.nextId + 1 } : Shape).WF svc where
  instance_ids := by simpa using h.instance_ids.insert (Nat.lt_succ_self _)
  step_ids := h.step_ids.mono (Nat.le_succ _)
  job_ids := h.job_ids.mono (Nat.le_succ _)
  task_ids := h.task_ids.mono (Nat.le_succ _)
  timer_ids := h.timer_ids.mono (Nat.le_succ _)
  step_instance := by
    intro k hk
    obtain ⟨i, hi, rest⟩ := h.step_instance k hk
    exact ⟨i, List.mem_append_left _ hi, rest⟩
  job_step := h.job_step
  task_step := h.task_step
  timer_step := h.timer_step

theorem addStep (h : s.WF svc) {i : InstanceKey} (hi : i ∈ s.instances) {d : WorkflowDefinition}
    (hd : svc.defRepo.getVersion i.definitionID i.definitionVersion = .ok d)
    {step : WorkflowStep} (hstep : findStep d step.id = some step) :
    ({ s with steps := s.steps ++ [⟨s.nextId, i.id, step.id, step.type⟩],
              nextId := s.nextId + 1 } : Shape).WF svc where
  instance_ids := h.instance_ids.mono (Nat.le_succ _)
  step_ids := by simpa using h.step_ids.insert (Nat.lt_succ_self _)
  job_ids := h.job_ids.mono (Nat.le_succ _)
  task_ids := h.task_ids.mono (Nat.le_succ _)
  timer_ids := h.timer_ids.mono (Nat.le_succ _)
  step_instance := by
    intro k hk
    rcases List.mem_append.mp hk with hk | hk
    · exact h.step_instance k hk
    · obtain rfl := List.mem_singleton.mp hk
      exact ⟨i, hi, rfl, d, hd, step, hstep, rfl⟩
  job_step := by
    intro k hk
    obtain ⟨e, he, rest⟩ := h.job_step k hk
    exact ⟨e, List.mem_append_left _ he, rest⟩
  task_step := fun k hk => List.mem_append_left _ (h.task_step k hk)
  timer_step := by
    intro k hk
    obtain ⟨e, he, rest⟩ := h.timer_step k hk
    exact ⟨e, List.mem_append_left _ he, rest⟩

theorem addJob (h : s.WF svc) {e : StepKey} (he : e ∈ s.steps) (htype : e.stepType = .serviceTask) :
    ({ s with jobs := s.jobs ++ [⟨s.nextId, e.instanceID, e.id⟩],
              nextId := s.nextId + 1 } : Shape).WF svc where
  instance_ids := h.instance_ids.mono (Nat.le_succ _)
  step_ids := h.step_ids.mono (Nat.le_succ _)
  job_ids := by simpa using h.job_ids.insert (Nat.lt_succ_self _)
  task_ids := h.task_ids.mono (Nat.le_succ _)
  timer_ids := h.timer_ids.mono (Nat.le_succ _)
  step_instance := h.step_instance
  job_step := by
    intro k hk
    rcases List.mem_append.mp hk with hk | hk
    · exact h.job_step k hk
    · obtain rfl := List.mem_singleton.mp hk
      exact ⟨e, he, rfl, rfl, htype⟩
  task_step := h.task_step
  timer_step := h.timer_step

theorem addTask (h : s.WF svc) {e : StepKey} (he : e ∈ s.steps) (htype : e.stepType = .userTask) :
    ({ s with tasks := s.tasks ++ [⟨⟨s.nextId, e.instanceID, e.id⟩, e.stepID⟩],
              nextId := s.nextId + 1 } : Shape).WF svc where
  instance_ids := h.instance_ids.mono (Nat.le_succ _)
  step_ids := h.step_ids.mono (Nat.le_succ _)
  job_ids := h.job_ids.mono (Nat.le_succ _)
  task_ids := by simpa using h.task_ids.insert (Nat.lt_succ_self _)
  timer_ids := h.timer_ids.mono (Nat.le_succ _)
  step_instance := h.step_instance
  job_step := h.job_step
  task_step := by
    intro k hk
    rcases List.mem_append.mp hk with hk | hk
    · exact h.task_step k hk
    · obtain rfl := List.mem_singleton.mp hk
      rw [← htype]
      exact he
  timer_step := h.timer_step

theorem addTimers (h : s.WF svc) {e : StepKey} (he : e ∈ s.steps) {keys : List ChildKey}
    (hids : keys.map (·.id) = List.range' s.nextId keys.length)
    (hkeys : ∀ k ∈ keys, k.instanceID = e.instanceID ∧ k.stepExecutionID = e.id) :
    ({ s with timers := s.timers ++ keys, nextId := s.nextId + keys.length } : Shape).WF svc where
  instance_ids := h.instance_ids.mono (Nat.le_add_right _ _)
  step_ids := h.step_ids.mono (Nat.le_add_right _ _)
  job_ids := h.job_ids.mono (Nat.le_add_right _ _)
  task_ids := h.task_ids.mono (Nat.le_add_right _ _)
  timer_ids := by
    rw [List.map_append, hids]
    exact h.timer_ids.append_range (Nat.le_refl _) (Nat.le_refl _)
  step_instance := h.step_instance
  job_step := h.job_step
  task_step := h.task_step
  timer_step := by
    intro k hk
    rcases List.mem_append.mp hk with hk | hk
    · exact h.timer_step k hk
    · exact ⟨e, he, (hkeys k hk).2.symm, (hkeys k hk).1.symm⟩

end Shape.WF

/-! ## Updates keep the shape -/

namespace Db

variable (db : Db)

/-- Tables with the same keys have the same shape. -/
private theorem shape_eq {db db' : Db} (hi : db'.instances.map (·.key) = db.instances.map (·.key))
    (hs : db'.stepExecutions.map (·.key) = db.stepExecutions.map (·.key))
    (hj : db'.jobs.map (·.key) = db.jobs.map (·.key))
    (ht : db'.userTasks.map (·.key) = db.userTasks.map (·.key))
    (hb : db'.boundaryEvents.map (·.key) = db.boundaryEvents.map (·.key))
    (hn : db'.nextId = db.nextId) : db'.shape = db.shape := by
  simp [shape, hi, hs, hj, ht, hb, hn]

theorem shape_updateInstance (instanceID : Nat) {f : WorkflowInstance → WorkflowInstance}
    (hf : ∀ r, (f r).key = r.key) : (db.updateInstance instanceID f).shape = db.shape :=
  shape_eq (Table.map_update _ fun r _ => hf r) rfl rfl rfl rfl rfl

theorem shape_updateStepExecutions (p : StepExecution → Bool) {f : StepExecution → StepExecution}
    (hf : ∀ r, (f r).key = r.key) : (db.updateStepExecutions p f).shape = db.shape :=
  shape_eq rfl (Table.map_update _ fun r _ => hf r) rfl rfl rfl rfl

theorem shape_updateJobs (p : Job → Bool) {f : Job → Job} (hf : ∀ r, (f r).key = r.key) :
    (db.updateJobs p f).shape = db.shape :=
  shape_eq rfl rfl (Table.map_update _ fun r _ => hf r) rfl rfl rfl

theorem shape_updateUserTasks (p : UserTask → Bool) {f : UserTask → UserTask}
    (hf : ∀ r, (f r).key = r.key) : (db.updateUserTasks p f).shape = db.shape :=
  shape_eq rfl rfl rfl (Table.map_update _ fun r _ => hf r) rfl rfl

@[simp] theorem shape_markFired (now : Time) (eventID instanceID : Nat) :
    (db.markFired now eventID instanceID).shape = db.shape :=
  shape_eq rfl rfl rfl rfl (Table.map_update _ fun _ _ => rfl) rfl

@[simp] theorem shape_logStatus (instanceID : Nat) (status : InstanceStatus)
    (statement : StatusStatement) : (db.logStatus instanceID status statement).shape = db.shape :=
  rfl

@[simp] theorem shape_updateInstanceCurrentSteps (instanceID : Nat) (ids : List StepId) :
    (db.updateInstanceCurrentSteps instanceID ids).shape = db.shape :=
  db.shape_updateInstance _ fun _ => rfl

@[simp] theorem shape_updateInstanceStatus (instanceID : Nat) (status : InstanceStatus) :
    (db.updateInstanceStatus instanceID status).shape = db.shape :=
  db.shape_updateInstance _ fun _ => rfl

@[simp] theorem shape_updateInstanceStatusAndSteps (instanceID : Nat) (status : InstanceStatus)
    (ids : List StepId) :
    (db.updateInstanceStatusAndSteps instanceID status ids).shape = db.shape :=
  db.shape_updateInstance _ fun _ => rfl

@[simp] theorem shape_completeInstance (now : Time) (instanceID : Nat) (ids : List StepId) :
    (db.completeInstance now instanceID ids).shape = db.shape :=
  db.shape_updateInstance _ fun _ => rfl

@[simp] theorem shape_failInstance (now : Time) (instanceID : Nat) (reason : String) :
    (db.failInstance now instanceID reason).shape = db.shape :=
  db.shape_updateInstance _ fun _ => rfl

@[simp] theorem shape_markInstanceFailed (now : Time) (instanceID : Nat) (reason : String) :
    (db.markInstanceFailed now instanceID reason).shape = db.shape :=
  db.shape_updateInstance _ fun _ => rfl

@[simp] theorem shape_cancelled (now : Time) (instanceID : Nat) (reason : String) :
    (db.cancelled now instanceID reason).shape = db.shape :=
  db.shape_updateInstance _ fun _ => rfl

@[simp] theorem shape_reactivated (instanceID : Nat) :
    (db.reactivated instanceID).shape = db.shape :=
  db.shape_updateInstance _ fun _ => rfl

@[simp] theorem shape_patchVars (instanceID : Nat) (g : Json → Json) :
    (db.patchVars instanceID g).shape = db.shape :=
  db.shape_updateInstance _ fun _ => rfl

@[simp] theorem shape_completeStepExecutionByID (now : Time) (seID : Nat)
    (output : Option Json) : (db.completeStepExecutionByID now seID output).shape = db.shape :=
  db.shape_updateStepExecutions _ fun _ => rfl

@[simp] theorem shape_completeStepExecutionByStep (now : Time) (instanceID : Nat)
    (stepID : StepId) (output : Json) :
    (db.completeStepExecutionByStep now instanceID stepID output).1.shape = db.shape :=
  db.shape_updateStepExecutions _ fun _ => rfl

@[simp] theorem shape_completeStepExecutionByStepNoOutput (now : Time) (instanceID : Nat)
    (stepID : StepId) :
    (db.completeStepExecutionByStepNoOutput now instanceID stepID).shape = db.shape :=
  db.shape_updateStepExecutions _ fun _ => rfl

@[simp] theorem shape_failStepExecutionByID (now : Time) (seID : Nat) (reason : String) :
    (db.failStepExecutionByID now seID reason).shape = db.shape :=
  db.shape_updateStepExecutions _ fun _ => rfl

@[simp] theorem shape_failStepExecutionByStep (now : Time) (instanceID : Nat) (stepID : StepId)
    (reason : String) :
    (db.failStepExecutionByStep now instanceID stepID reason).shape = db.shape :=
  db.shape_updateStepExecutions _ fun _ => rfl

@[simp] theorem shape_markJobCompleted (jobID : Nat) (workerID : String) :
    (db.markJobCompleted jobID workerID).shape = db.shape :=
  db.shape_updateJobs _ fun _ => rfl

@[simp] theorem shape_markJobFailed (jobID : Nat) (workerID : String) :
    (db.markJobFailed jobID workerID).shape = db.shape :=
  db.shape_updateJobs _ fun _ => rfl

@[simp] theorem shape_cancelJobByStepExecution (seID : Nat) :
    (db.cancelJobByStepExecution seID).shape = db.shape :=
  db.shape_updateJobs _ fun _ => rfl

@[simp] theorem shape_cancelLockedJob (jobID : Nat) :
    (db.cancelLockedJob jobID).shape = db.shape :=
  db.shape_updateJobs _ fun _ => rfl

@[simp] theorem shape_pollJobs (now : Time) (workerID : String) (jobTypes : List String)
    (max : Nat) (seconds : Int) (rowLocked : List Nat) :
    (db.pollJobs now workerID jobTypes max seconds rowLocked).2.shape = db.shape := by
  unfold pollJobs
  split
  · rfl
  · exact db.shape_updateJobs _ fun _ => rfl

@[simp] theorem shape_completeUserTask (now : Time) (instanceID : Nat) (stepID : StepId)
    (result : Json) : (db.completeUserTask now instanceID stepID result).1.shape = db.shape :=
  db.shape_updateUserTasks _ fun _ => rfl

@[simp] theorem shape_cancelUserTaskByStepExecution (now : Time) (seID : Nat) :
    (db.cancelUserTaskByStepExecution now seID).shape = db.shape :=
  db.shape_updateUserTasks _ fun _ => rfl

@[simp] theorem shape_completeWorkflowChain (source child : Nat) :
    (db.completeWorkflowChain source child).shape = db.shape :=
  rfl

end Db

section Poll

variable (db : Db) (now : Time) (workerID : String) (jobTypes : List String) (max : Nat)
  (seconds : Int) (rowLocked : List Nat)

/-- A poll writes job rows only. -/
theorem Db.pollJobs_tables : ∃ jobs,
    (db.pollJobs now workerID jobTypes max seconds rowLocked).2 = { db with jobs := jobs } := by
  unfold Db.pollJobs
  split
  · exact ⟨db.jobs, rfl⟩
  · exact ⟨_, rfl⟩

@[simp] theorem Db.pollJobs_stepExecutions :
    (db.pollJobs now workerID jobTypes max seconds rowLocked).2.stepExecutions =
      db.stepExecutions := by
  obtain ⟨jobs, h⟩ := db.pollJobs_tables now workerID jobTypes max seconds rowLocked
  rw [h]

@[simp] theorem Db.pollJobs_userTasks :
    (db.pollJobs now workerID jobTypes max seconds rowLocked).2.userTasks = db.userTasks := by
  obtain ⟨jobs, h⟩ := db.pollJobs_tables now workerID jobTypes max seconds rowLocked
  rw [h]

end Poll

/-! ## Transactions -/

/-- Equal keys run the same definition. -/
theorem Runs.of_key {svc : Service} {r r' : WorkflowInstance} {d : WorkflowDefinition}
    (h : Runs svc r d) (hkey : r'.key = r.key) : Runs svc r' d := by
  simp only [WorkflowInstance.key, InstanceKey.mk.injEq] at hkey
  unfold Runs
  rw [hkey.2.1, hkey.2.2.1]
  exact h

/-- A row with the id and the version of a stored definition runs it. -/
theorem Runs.of_any {svc : Service} {rows : List WorkflowInstance} {i : Nat}
    {d : WorkflowDefinition} (hd : svc.defRepo.getVersion d.id d.version = .ok d)
    (h : rows.any (fun r => decide (r.id = i) && decide (r.definitionID = d.id) &&
      decide (r.definitionVersion = d.version)) = true) :
    ∃ inst ∈ rows, inst.id = i ∧ Runs svc inst d := by
  obtain ⟨inst, hinst, hi⟩ := List.any_eq_true.mp h
  simp only [Bool.and_eq_true, decide_eq_true_eq] at hi
  obtain ⟨⟨hid, hdef⟩, hversion⟩ := hi
  refine ⟨inst, hinst, hid, ?_⟩
  unfold Runs
  rw [hdef, hversion]
  exact hd

/-- The in-memory instance agrees with its row on identity and status, and `d`
    is its definition. -/
structure Mirror (svc : Service) (d : WorkflowDefinition) (tx : Tx) : Prop where
  row : ∃ r ∈ tx.db.instances, r.key = tx.inst.key ∧ r.status = tx.inst.status
  runs : Runs svc tx.inst d

theorem Mirror.key_mem {svc : Service} {d : WorkflowDefinition} {tx : Tx}
    (h : Mirror svc d tx) : tx.inst.key ∈ tx.db.shape.instances := by
  obtain ⟨r, hr, hkey, -⟩ := h.row
  exact hkey ▸ List.mem_map_of_mem hr

/-- Rewriting the row and the copy alike keeps them alike. -/
theorem Mirror.update {svc : Service} {d : WorkflowDefinition} {tx tx' : Tx}
    {f : WorkflowInstance → WorkflowInstance} (h : Mirror svc d tx)
    (hrows : tx'.db.instances =
      Table.update (fun r => decide (r.id = tx.inst.id)) f tx.db.instances)
    (hkey : ∀ r, (f r).key = r.key) (hinst : tx'.inst.key = tx.inst.key)
    (hstatus : ∀ r, r.status = tx.inst.status → (f r).status = tx'.inst.status) :
    Mirror svc d tx' := by
  obtain ⟨r, hr, hrkey, hrstatus⟩ := h.row
  have hid : r.id = tx.inst.id := congrArg InstanceKey.id hrkey
  refine ⟨⟨f r, ?_, ?_, hstatus r hrstatus⟩, ?_⟩
  · rw [hrows]
    exact Table.mem_update_of hr (by simp [hid])
  · rw [hkey, hinst, hrkey]
  · exact h.runs.of_key hinst

/-- Only steps that wait for an external callback are left running. -/
def Parked (rows : List StepExecution) : Prop :=
  ∀ r ∈ rows, r.status = .running → r.stepType.external = true

/-- Closing rows keeps it so. -/
theorem Parked.update {rows : List StepExecution} (h : Parked rows) (p : StepExecution → Bool)
    {f : StepExecution → StepExecution} (hf : ∀ r, (f r).status ≠ .running) :
    Parked (Table.update p f rows) := by
  intro r hr hrun
  obtain ⟨r₀, hr₀, rfl⟩ := Table.mem_update.mp hr
  by_cases hp : p r₀ = true
  · simp only [hp, if_true] at hrun
    exact absurd hrun (hf r₀)
  · simp only [hp, Bool.false_eq_true, if_false] at hrun ⊢
    exact h r₀ hr₀ hrun

/-- The tables are well formed. -/
structure Db.WF (svc : Service) (db : Db) : Prop where
  shape : db.shape.WF svc
  parked : Parked db.stepExecutions

/-- No execution refers to an instance that is only now inserted. -/
theorem Db.WF.instance_lt {svc : Service} {db : Db} (h : db.WF svc) :
    ∀ r ∈ db.stepExecutions, r.instanceID < db.nextId := by
  intro r hr
  obtain ⟨e, he, hid, -⟩ := h.shape.step_instance r.key (List.mem_map_of_mem hr)
  have hlt : e.id < db.nextId := h.shape.instance_ids.lt e.id (List.mem_map_of_mem he)
  have hrow : e.id = r.instanceID := hid
  omega

theorem Db.WF.step_lt {svc : Service} {db : Db} (h : db.WF svc) :
    ∀ r ∈ db.stepExecutions, r.id < db.nextId := by
  intro r hr
  refine h.shape.step_ids.lt r.id ?_
  simp only [Db.shape, List.map_map]
  exact List.mem_map_of_mem hr

/-- The tables of a transaction are well formed. -/
structure TxWF (svc : Service) (d : WorkflowDefinition) (tx : Tx) : Prop where
  wf : tx.db.WF svc
  mirror : Mirror svc d tx

namespace Dispatched

variable {svc : Service} {now : Time} {d : WorkflowDefinition} {tx tx' : Tx}
  {step : WorkflowStep} {next : List StepId}

theorem mirror (h : Dispatched svc now d tx step tx' next) (hm : Mirror svc d tx) :
    Mirror svc d tx' := by
  obtain ⟨f, hv⟩ := h.instance_view
  refine hm.update hv.rows hv.key hv.inst_key ?_
  intro r hr
  rw [hv.status, hv.inst_status, hr]

theorem parked (h : Dispatched svc now d tx step tx' next) (hwf : tx.db.WF svc) :
    Parked tx'.db.stepExecutions := by
  obtain ⟨p, g, row, hs⟩ := h.step_view hwf.step_lt
  have hclosed : closedStatus svc now tx.inst.vars step ≠ .running := closedStatus_ne_running
  rw [hs.rows]
  intro r hr hrun
  rcases List.mem_append.mp hr with hr | hr
  · exact hwf.parked.update p (fun r => by rw [hs.status]; exact hclosed) r hr hrun
  · obtain rfl := List.mem_singleton.mp hr
    rw [hs.row_status] at hrun
    have htype : r.stepType = step.type := congrArg StepKey.stepType hs.row_key
    by_cases hext : step.type.external = true
    · rw [htype, hext]
    · simp [hext, hclosed] at hrun

theorem shape_wf (h : Dispatched svc now d tx step tx' next) (hwf : TxWF svc d tx)
    (hfind : findStep d step.id = some step) : tx'.db.shape.WF svc := by
  obtain ⟨f, hv⟩ := h.instance_view
  obtain ⟨p, g, row, hs⟩ := h.step_view hwf.wf.step_lt
  have hinst : tx'.db.instances.map (·.key) = tx.db.instances.map (·.key) := by
    rw [hv.rows, Table.map_update _ fun r _ => hv.key r]
  have hsteps : tx'.db.stepExecutions.map (·.key) = tx.db.stepExecutions.map (·.key) ++
      [⟨tx.db.nextId, tx.inst.id, step.id, step.type⟩] := by
    rw [hs.rows, List.map_append, Table.map_update _ fun r _ => hs.key r]
    simp [hs.row_key]
  have hstep := hwf.wf.shape.addStep hwf.mirror.key_mem hwf.mirror.runs hfind
  rcases h.timer_view with ⟨hext, hb, hn⟩ | ⟨hext, rows, start, hb, hrows, hids, hgap, hlt, hn⟩
  · -- nothing but the step execution is inserted
    have hj : tx'.db.jobs = tx.db.jobs := by
      rcases h.job_view with ⟨-, hj⟩ | ⟨htype, -⟩
      · exact hj
      · simp [htype, StepType.external] at hext
    have ht : tx'.db.userTasks = tx.db.userTasks := by
      rcases h.task_view with ⟨-, ht⟩ | ⟨htype, -⟩
      · exact ht
      · simp [htype, StepType.external] at hext
    have hshape : tx'.db.shape = { tx.db.shape with
        steps := tx.db.shape.steps ++ [⟨tx.db.nextId, tx.inst.id, step.id, step.type⟩],
        nextId := tx.db.nextId + 1 } := by
      simp [Db.shape, hinst, hsteps, hj, ht, hb, hn]
    rw [hshape]
    exact hstep
  · have htimers : ∀ s : Shape, s.WF svc → s.nextId ≤ start →
        (⟨tx.db.nextId, tx.inst.id, step.id, step.type⟩ : StepKey) ∈ s.steps →
        ({ s with timers := s.timers ++ rows.map (·.key), nextId := start + rows.length } :
          Shape).WF svc := by
      intro s hs hle hmem
      have hids' : (rows.map (·.key)).map (·.id) = List.range' start (rows.map (·.key)).length := by
        simpa [Function.comp_def, BoundaryEventSchedule.key] using hids
      have hw := (hs.weaken (List.Sublist.refl _) hle).addTimers hmem hids' ?_
      · simpa using hw
      · intro k hk
        obtain ⟨r, hr, rfl⟩ := List.mem_map.mp hk
        obtain ⟨be, -, hrow⟩ := TimerRow.of_mem hrows hr
        exact ⟨hrow.instanceID_eq, hrow.stepExecutionID_eq⟩
    have hmem : (⟨tx.db.nextId, tx.inst.id, step.id, step.type⟩ : StepKey) ∈
        tx.db.shape.steps ++ [⟨tx.db.nextId, tx.inst.id, step.id, step.type⟩] := by
      simp
    rcases h.job_view with ⟨hnot, hj⟩ | ⟨htype, job, hj, hjkey, -⟩
    · rcases h.task_view with ⟨hnot', ht⟩ | ⟨htype, task, ht, htkey, -⟩
      · have hw := htimers _ hstep hlt hmem
        have hshape : tx'.db.shape = { tx.db.shape with
            steps := tx.db.shape.steps ++ [⟨tx.db.nextId, tx.inst.id, step.id, step.type⟩],
            timers := tx.db.shape.timers ++ rows.map (·.key),
            nextId := start + rows.length } := by
          simp [Db.shape, hinst, hsteps, hj, ht, hb, hn]
        rw [hshape]
        exact hw
      · have hw := htimers _ (hstep.addTask hmem htype) (hgap (.inr htype)) hmem
        have hshape : tx'.db.shape = { tx.db.shape with
            steps := tx.db.shape.steps ++ [⟨tx.db.nextId, tx.inst.id, step.id, step.type⟩],
            tasks := tx.db.shape.tasks ++
              [⟨⟨tx.db.nextId + 1, tx.inst.id, tx.db.nextId⟩, step.id⟩],
            timers := tx.db.shape.timers ++ rows.map (·.key),
            nextId := start + rows.length } := by
          simp [Db.shape, hinst, hsteps, hj, ht, hb, hn, htkey]
        rw [hshape]
        exact hw
    · have ht : tx'.db.userTasks = tx.db.userTasks := by
        rcases h.task_view with ⟨-, ht⟩ | ⟨htype', -⟩
        · exact ht
        · simp [htype] at htype'
      have hw := htimers _ (hstep.addJob hmem htype) (hgap (.inl htype)) hmem
      have hshape : tx'.db.shape = { tx.db.shape with
          steps := tx.db.shape.steps ++ [⟨tx.db.nextId, tx.inst.id, step.id, step.type⟩],
          jobs := tx.db.shape.jobs ++ [⟨tx.db.nextId + 1, tx.inst.id, tx.db.nextId⟩],
          timers := tx.db.shape.timers ++ rows.map (·.key),
          nextId := start + rows.length } := by
        simp [Db.shape, hinst, hsteps, hj, ht, hb, hn, hjkey]
      rw [hshape]
      exact hw

theorem wf (h : Dispatched svc now d tx step tx' next) (hwf : TxWF svc d tx)
    (hfind : findStep d step.id = some step) : TxWF svc d tx' :=
  ⟨⟨h.shape_wf hwf hfind, h.parked hwf.wf⟩, h.mirror hwf.mirror⟩

end Dispatched

namespace Advanced

variable {svc : Service} {now : Time} {d : WorkflowDefinition} {tx tx' : Tx}
  {step : WorkflowStep} {next : List StepId}

theorem shape (h : Advanced now d tx step tx' next) : tx'.db.shape = tx.db.shape := by
  cases h with
  | on target htarget => exact Db.shape_updateInstanceStatusAndSteps ..
  | stop hnext hlen => exact Db.shape_updateInstanceStatusAndSteps ..
  | fail reason =>
    simp only [failInstance, Db.shape_failInstance, Db.shape_failStepExecutionByStep]
    exact Db.shape_updateInstanceStatusAndSteps ..

theorem mirror (h : Advanced now d tx step tx' next) (hm : Mirror svc d tx) :
    Mirror svc d tx' := by
  have hadv : Mirror svc d (advanced d tx step) :=
    hm.update rfl (fun _ => rfl) rfl fun _ _ => rfl
  cases h with
  | on target htarget => exact hadv
  | stop hnext hlen => exact hadv
  | fail reason => exact hadv.update rfl (fun _ => rfl) rfl fun _ _ => rfl

theorem parked (h : Advanced now d tx step tx' next) (hp : Parked tx.db.stepExecutions) :
    Parked tx'.db.stepExecutions := by
  cases h with
  | on target htarget => exact hp
  | stop hnext hlen => exact hp
  | fail reason => exact hp.update _ fun _ => by simp

theorem wf (h : Advanced now d tx step tx' next) (hwf : TxWF svc d tx) : TxWF svc d tx' :=
  ⟨⟨h.shape ▸ hwf.wf.shape, h.parked hwf.wf.parked⟩, h.mirror hwf.mirror⟩

end Advanced

section Openings

variable {svc : Service} {now : Time} {db : Db} {d : WorkflowDefinition}

theorem startTx_wf (h : db.WF svc) (hd : svc.defRepo.getVersion d.id d.version = .ok d)
    (vars : Json) (businessKey : Option String) : TxWF svc d (startTx db d vars businessKey) where
  wf :=
    { shape := by
        have hshape : (startTx db d vars businessKey).db.shape = { db.shape with
            instances := db.shape.instances ++ [⟨db.nextId, d.id, d.version, businessKey⟩],
            nextId := db.nextId + 1 } := by
          simp [Db.shape, Db.newInstance, WorkflowInstance.key]
        rw [hshape]
        exact h.shape.addInstance d.id d.version businessKey
      parked := h.parked }
  mirror :=
    { row := ⟨(startTx db d vars businessKey).inst, by simp [startTx], rfl, rfl⟩
      runs := hd }

/-- A job found in the tables names a step execution of its instance. -/
theorem job_key_step (h : db.shape.WF svc) {job : Job} (hjob : job ∈ db.jobs) :
    ∃ e ∈ db.shape.steps, e.id = job.stepExecutionID ∧ e.instanceID = job.instanceID ∧
      e.stepType = .serviceTask :=
  h.job_step job.key (List.mem_map_of_mem hjob)

theorem enqueueReplacement_wf {db₀ : Db} (h : db₀.shape.WF svc) {j : DispatchJob}
    {e : StepKey} (he : e ∈ db₀.shape.steps) (hid : e.id = j.stepExecutionID)
    (hinst : e.instanceID = j.instanceID) (htype : e.stepType = .serviceTask) :
    (enqueueReplacement svc now db₀ j).shape.WF svc := by
  have hle := nextId_lt_enqueueReplacement svc now db₀ j
  have hw := (h.addJob he htype).weaken (List.Sublist.refl _) hle
  have hshape : (enqueueReplacement svc now db₀ j).shape = { db₀.shape with
      jobs := db₀.shape.jobs ++ [⟨db₀.nextId, e.instanceID, e.id⟩],
      nextId := (enqueueReplacement svc now db₀ j).nextId } := by
    simp [Db.shape, replacement, Job.key, hid, hinst]
  rw [hshape]
  exact hw

theorem getInstance_mem {instanceID : Nat} {inst : WorkflowInstance}
    (h : db.getInstance instanceID = some inst) : inst ∈ db.instances :=
  (Table.find_mem h).1

theorem getStepExecution_mem {seID : Nat} {se : StepExecution}
    (h : db.getStepExecution seID = some se) : se ∈ db.stepExecutions :=
  (Table.find_mem h).1

theorem getJob_mem {jobID : Nat} {job : Job} (h : db.getJob jobID = some job) :
    job ∈ db.jobs ∧ job.id = jobID :=
  Table.find_mem h

/-- The instance as it was read, in tables whose instances are the same. -/
theorem mirror_of_read {db' : Db} {inst : WorkflowInstance}
    (hinst : db.getInstance inst.id = some inst) (hrows : db'.instances = db.instances)
    (hd : Runs svc inst d) : Mirror svc d ⟨db', inst⟩ where
  row := ⟨inst, by rw [hrows]; exact getInstance_mem hinst, rfl, rfl⟩
  runs := hd

/-- Merging variables keeps the copy alike. -/
theorem Mirror.patchVars {db' : Db} {inst : WorkflowInstance} (h : Mirror svc d ⟨db', inst⟩)
    (g : Json → Json) (json : Json) :
    Mirror svc d ⟨db'.patchVars inst.id g, { inst with vars := json }⟩ :=
  h.update (f := fun r => { r with vars := g r.vars }) rfl (fun _ => rfl) rfl fun _ hr => hr

theorem Mirror.removeFromCurrentSteps {tx : Tx} (h : Mirror svc d tx) (stepID : StepId) :
    Mirror svc d (tx.removeFromCurrentSteps stepID) :=
  h.update (f := id) (by simp) (fun _ => rfl) rfl fun _ hr => hr

theorem Callback.read_inst {jobID : Nat} {job : Job} {se : StepExecution}
    {inst : WorkflowInstance} (h : Callback db jobID job se inst) :
    db.getInstance inst.id = some inst := by
  rw [getInstance_id h.inst_eq]
  exact h.inst_eq

/-- The transaction of an accepted completion, before it advances. -/
theorem jobClosed_wf (hwf : db.WF svc) {inst : WorkflowInstance}
    (hinst : db.getInstance inst.id = some inst) (hd : Runs svc inst d) (jobID seID : Nat)
    (workerID : String) (vars : GoMap Value) (g : Json → Json) (json : Json) :
    TxWF svc d ⟨(closeJob now db jobID seID workerID vars).patchVars inst.id g,
      { inst with vars := json }⟩ := by
  refine ⟨⟨by simpa [closeJob] using hwf.shape, hwf.parked.update _ fun _ => by simp⟩,
    Mirror.patchVars (mirror_of_read hinst ?_ hd) g json⟩
  rfl

/-- The transaction of a completed user task, before it advances. -/
theorem taskClosed_wf (hwf : db.WF svc) {inst : WorkflowInstance}
    (hinst : db.getInstance inst.id = some inst) (hd : Runs svc inst d) (stepID : StepId)
    (result merged : Json) (g : Json → Json) :
    TxWF svc d ⟨((db.completeUserTask now inst.id stepID result).1.completeStepExecutionByStep now
      inst.id stepID merged).1.patchVars inst.id g, { inst with vars := merged }⟩ := by
  refine ⟨⟨by simpa using hwf.shape, hwf.parked.update _ fun _ => by simp⟩,
    Mirror.patchVars (mirror_of_read hinst ?_ hd) g merged⟩
  rfl

/-- The transaction of a signalled wait step, before it advances. -/
theorem waitClosed_wf (hwf : db.WF svc) {inst : WorkflowInstance}
    (hinst : db.getInstance inst.id = some inst) (hd : Runs svc inst d) (stepID : StepId)
    (merged : Json) (g : Json → Json) :
    TxWF svc d ⟨(db.completeStepExecutionByStep now inst.id stepID merged).1.patchVars inst.id g,
      { inst with vars := merged }⟩ := by
  refine ⟨⟨by simpa using hwf.shape, hwf.parked.update _ fun _ => by simp⟩,
    Mirror.patchVars (mirror_of_read hinst ?_ hd) g merged⟩
  rfl

end Openings

/-- Ids, foreign keys and step types are well formed in every run, and only
    external steps are left running. -/
theorem wf_invariant (svc : Service) :
    TxInvariant svc (fun _ => True) (fun _ _ _ => True) (fun _ _ => True) (fun _ => True)
      (fun db => db.WF svc) (fun d tx _ => TxWF svc d tx) where
  opening := by
    intro db op now p _ _ hwf _ hop
    obtain ⟨hshape, hparked⟩ := hwf
    cases hop with
    | ignored op hrefused => exact ⟨hshape, hparked⟩
    | started definitionID version vars businessKey d json key hd hsteps =>
      exact startTx_wf ⟨hshape, hparked⟩ hd json key
    | chainStarted source d json key hd hsteps hclaim =>
      exact startTx_wf ⟨hshape, hparked⟩ hd json key
    | outputsRejected jobID workerID vars job se inst violations hcb hacc =>
      exact ⟨by simpa [rejectOutputs] using hshape, hparked.update _ fun _ => by simp⟩
    | jobCompleted jobID workerID vars job se inst d step g hcb hacc hd hstep hnext =>
      exact ⟨by simpa [closeJob] using hshape, hparked.update _ fun _ => by simp⟩
    | jobAdvanced jobID workerID vars job se inst d step g json tx next hcb hacc hd hstep hadv =>
      exact hadv.wf (jobClosed_wf ⟨hshape, hparked⟩ hcb.read_inst hd ..)
    | jobRetried jobID workerID errorMessage job se inst hcb hacc hretries =>
      obtain ⟨e, he, hid, hi, htype⟩ := job_key_step hshape (getJob_mem hcb.job_eq).1
      exact ⟨enqueueReplacement_wf (by simpa using hshape) (by simpa using he) hid hi htype,
        by simpa using hparked⟩
    | jobFailed jobID workerID errorMessage retryable job se inst hcb hacc =>
      exact ⟨by simpa using hshape, hparked.update _ fun _ => by simp⟩
    | jobReplaced op jobID job se inst hop hcb halive hlocked =>
      obtain ⟨e, he, hid, hi, htype⟩ := job_key_step hshape (getJob_mem hcb.job_eq).1
      exact ⟨enqueueReplacement_wf (by simpa using hshape) (by simpa using he) hid hi htype,
        by simpa using hparked⟩
    | leaseExtended later jobID workerID seconds lease job se inst hcb halive hlocked howner hvalid =>
      refine ⟨?_, hparked⟩
      rw [Db.shape_updateJobs _ _ (f := renewed later lease) fun _ => rfl]
      exact hshape
    | polled workerID jobTypes max seconds lease rowLocked =>
      refine ⟨by simpa using hshape, ?_⟩
      rw [Db.pollJobs_stepExecutions]
      exact hparked
    | userTaskCompleted stepID vars inst d step result merged g tx next hinst hflight hd hstep
        htype hrows hadv =>
      exact hadv.wf (taskClosed_wf ⟨hshape, hparked⟩ hinst hd ..)
    | waitSignalled stepID vars inst d step merged g tx next hinst hflight hd hstep htype hrows
        hadv =>
      exact hadv.wf (waitClosed_wf ⟨hshape, hparked⟩ hinst hd ..)
    | timerConsumed eventID inst event hinst hevent hdead =>
      exact ⟨by simpa using hshape, hparked⟩
    | timerInterrupts eventID inst event se d hinst hevent hinterrupting hse halive hd =>
      refine ⟨⟨by simpa [Tx.removeFromCurrentSteps, interruptStep] using hshape,
        hparked.update _ fun _ => by simp⟩,
        Mirror.removeFromCurrentSteps (mirror_of_read hinst ?_ hd) se.stepID⟩
      rfl
    | timerForks eventID inst event se d hinst hevent hinterrupting hse halive hd =>
      exact ⟨⟨by simpa using hshape, hparked⟩, mirror_of_read hinst rfl hd⟩
    | housekept retention =>
      exact ⟨hshape.weaken (List.filter_sublist.map _) (Nat.le_refl _), hparked⟩
    | cancelled inst reason hinst hflight => exact ⟨by simpa using hshape, hparked⟩
    | stepRetried inst stepID patch d g json hinst hfailed hlatest hd =>
      have hread : Mirror svc d ⟨db, inst⟩ := mirror_of_read hinst rfl hd
      have hactive : Mirror svc d ⟨db.reactivated inst.id, { inst with
          status := .active, failureReason := none, completedAt := none }⟩ :=
        hread.update rfl (fun _ => rfl) rfl fun _ _ => rfl
      exact ⟨⟨by simpa using hshape, hparked⟩, hactive.patchVars g json⟩
  step := by
    intro now d tx step pending tx' next _ hwf _ hfind hdisp
    exact hdisp.wf hwf hfind
  closing := fun _ hwf => hwf.wf
  acknowledge := fun h => ⟨h.shape, h.parked⟩

/-! ## What well-formedness gives -/

namespace Db.WF

variable {svc : Service} {db : Db}

theorem instance_eq (h : db.WF svc) {r r' : WorkflowInstance} (hr : r ∈ db.instances)
    (hr' : r' ∈ db.instances) (hid : r.id = r'.id) : r = r' := by
  have hnd := h.shape.instance_ids.nodup
  simp only [Db.shape, List.map_map] at hnd
  exact Table.eq_of_key hnd hr hr' hid

theorem step_eq (h : db.WF svc) {r r' : StepExecution} (hr : r ∈ db.stepExecutions)
    (hr' : r' ∈ db.stepExecutions) (hid : r.id = r'.id) : r = r' := by
  have hnd := h.shape.step_ids.nodup
  simp only [Db.shape, List.map_map] at hnd
  exact Table.eq_of_key hnd hr hr' hid

theorem job_eq (h : db.WF svc) {r r' : Job} (hr : r ∈ db.jobs) (hr' : r' ∈ db.jobs)
    (hid : r.id = r'.id) : r = r' := by
  have hnd := h.shape.job_ids.nodup
  simp only [Db.shape, List.map_map] at hnd
  exact Table.eq_of_key hnd hr hr' hid

/-- The step execution of a job. -/
theorem job_step (h : db.WF svc) {job : Job} (hjob : job ∈ db.jobs) :
    ∃ se ∈ db.stepExecutions, se.id = job.stepExecutionID ∧ se.instanceID = job.instanceID ∧
      se.stepType = .serviceTask := by
  obtain ⟨e, he, rest⟩ := job_key_step h.shape hjob
  obtain ⟨se, hse, rfl⟩ := List.mem_map.mp he
  exact ⟨se, hse, rest⟩

/-- The step execution of a user task. -/
theorem task_step (h : db.WF svc) {task : UserTask} (htask : task ∈ db.userTasks) :
    ∃ se ∈ db.stepExecutions,
      se.key = ⟨task.stepExecutionID, task.instanceID, task.stepID, .userTask⟩ := by
  have := h.shape.task_step task.key (List.mem_map_of_mem htask)
  obtain ⟨se, hse, hkey⟩ := List.mem_map.mp this
  exact ⟨se, hse, hkey⟩

end Db.WF

/-- A step execution has the type its step has in the definition. -/
theorem Shape.WF.step_type {svc : Service} {s : Shape} (h : s.WF svc) {i : InstanceKey}
    (hi : i ∈ s.instances) {d : WorkflowDefinition}
    (hd : svc.defRepo.getVersion i.definitionID i.definitionVersion = .ok d) {e : StepKey}
    (he : e ∈ s.steps) (hid : e.instanceID = i.id) {step : WorkflowStep}
    (hfind : findStep d e.stepID = some step) : e.stepType = step.type := by
  obtain ⟨i', hi', hid', d', hd', step', hfind', htype⟩ := h.step_instance e he
  obtain rfl : i' = i := Table.eq_of_key h.instance_ids.nodup hi' hi (hid'.trans hid)
  obtain rfl : d' = d := Except.ok.inj (hd'.symm.trans hd)
  obtain rfl : step' = step := Option.some.inj (hfind'.symm.trans hfind)
  exact htype.symm

theorem TxWF.step_type {svc : Service} {d : WorkflowDefinition} {tx : Tx} (h : TxWF svc d tx)
    {r : StepExecution} (hr : r ∈ tx.db.stepExecutions) (hi : r.instanceID = tx.inst.id)
    {step : WorkflowStep} (hfind : findStep d r.stepID = some step) : r.stepType = step.type :=
  h.wf.shape.step_type h.mirror.key_mem h.mirror.runs (List.mem_map_of_mem hr) hi hfind

theorem Db.WF.step_type {svc : Service} {db : Db} (h : db.WF svc) {inst : WorkflowInstance}
    (hinst : inst ∈ db.instances) {d : WorkflowDefinition} (hd : Runs svc inst d)
    {r : StepExecution} (hr : r ∈ db.stepExecutions) (hi : r.instanceID = inst.id)
    {step : WorkflowStep} (hfind : findStep d r.stepID = some step) : r.stepType = step.type :=
  h.shape.step_type (List.mem_map_of_mem hinst) hd (List.mem_map_of_mem hr) hi hfind

/-- In well-formed tables a dispatch only inserts its own row: no row of a step
    that passes at once is ever left running for it to close. -/
theorem Dispatched.rows {svc : Service} {now : Time} {d : WorkflowDefinition} {tx tx' : Tx}
    {step : WorkflowStep} {next : List StepId} (h : Dispatched svc now d tx step tx' next)
    (hwf : TxWF svc d tx) (hfind : findStep d step.id = some step) :
    ∃ row : StepExecution, tx'.db.stepExecutions = tx.db.stepExecutions ++ [row] ∧
      row.key = ⟨tx.db.nextId, tx.inst.id, step.id, step.type⟩ ∧
      row.attemptNumber = tx.db.countStepAttempts tx.inst.id step.id + 1 ∧
      row.status = if step.type.external then .running
        else closedStatus svc now tx.inst.vars step := by
  obtain ⟨p, g, row, hs⟩ := h.step_view hwf.wf.step_lt
  refine ⟨row, ?_, hs.row_key, hs.row_attempt, hs.row_status⟩
  rw [hs.rows, Table.update_eq_self]
  intro r hr
  by_contra hp
  obtain ⟨hrun, hext⟩ := hs.touched r hr (by simpa using hp)
  simp only [Db.runningAt, Bool.and_eq_true, decide_eq_true_eq] at hrun
  obtain ⟨⟨hi, hstep⟩, hstatus⟩ := hrun
  have hparked := hwf.wf.parked r hr hstatus
  rw [hwf.step_type hr hi (hstep ▸ hfind), hext] at hparked
  cases hparked

end Rochallor
