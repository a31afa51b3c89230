import Rochallor.Safety.Callbacks

/-! # Work is delivered

    A running service task has exactly one job a worker can still report on,
    and a running user task exactly one open task row.  Jobs are created,
    retired and replaced on six paths; each of them is one transaction that
    retires as many live rows of a step execution as it inserts, or closes the
    step execution with them.
-/

namespace Rochallor

/-! ## Counting -/

/-- A live job of the step execution. -/
def liveFor (seID : Nat) (r : Job) : Bool :=
  decide (r.stepExecutionID = seID) && r.status.live

/-- An open task of the step execution. -/
def openFor (seID : Nat) (r : UserTask) : Bool :=
  decide (r.stepExecutionID = seID) && decide (r.status = .opened)

/-- Jobs of one step execution do not count for another. -/
theorem countP_liveFor_other {jobs : List Job} {p : Job → Bool} {f : Job → Job} {seID x : Nat}
    (hp : ∀ r ∈ jobs, p r = true → r.stepExecutionID = seID) (hf : ∀ r, (f r).key = r.key)
    (hne : x ≠ seID) :
    (Table.update p f jobs).countP (liveFor x) = jobs.countP (liveFor x) := by
  apply Table.countP_update_eq
  intro r hr hpr
  have hse : (f r).stepExecutionID = r.stepExecutionID :=
    congrArg ChildKey.stepExecutionID (hf r)
  simp [liveFor, hse, hp r hr hpr, Ne.symm hne]

/-- An update that keeps keys and liveness keeps every count. -/
theorem countP_liveFor_same {jobs : List Job} {p : Job → Bool} {f : Job → Job} (x : Nat)
    (hf : ∀ r ∈ jobs, p r = true → (f r).key = r.key ∧ (f r).status.live = r.status.live) :
    (Table.update p f jobs).countP (liveFor x) = jobs.countP (liveFor x) := by
  apply Table.countP_update_eq
  intro r hr hpr
  obtain ⟨hkey, hlive⟩ := hf r hr hpr
  have hse : (f r).stepExecutionID = r.stepExecutionID :=
    congrArg ChildKey.stepExecutionID hkey
  simp [liveFor, hse, hlive]

/-! ## The invariant -/

/-- Every running service task has one live job, every running user task one
    open task, and every open task a running step execution. -/
structure Delivery (db : Db) : Prop where
  job : ∀ se ∈ db.stepExecutions, se.status = .running → se.stepType = .serviceTask →
    db.jobs.countP (liveFor se.id) = 1
  task : ∀ se ∈ db.stepExecutions, se.status = .running → se.stepType = .userTask →
    db.userTasks.countP (openFor se.id) = 1
  opened : ∀ u ∈ db.userTasks, u.status = .opened →
    ∃ se ∈ db.stepExecutions, se.id = u.stepExecutionID ∧ se.status = .running

namespace Delivery

variable {svc : Service} {db db' : Db}

/-- Closing step executions: the counts of those left running must not change,
    and no open task may be left on a closed one. -/
theorem close (h : Delivery db) {p : StepExecution → Bool} {f : StepExecution → StepExecution}
    (hs : db'.stepExecutions = Table.update p f db.stepExecutions)
    (hf : ∀ r, (f r).status ≠ .running)
    (hjobs : ∀ se ∈ db.stepExecutions, p se = false → se.status = .running →
      se.stepType = .serviceTask →
      db'.jobs.countP (liveFor se.id) = db.jobs.countP (liveFor se.id))
    (htasks : ∀ se ∈ db.stepExecutions, p se = false → se.status = .running →
      se.stepType = .userTask →
      db'.userTasks.countP (openFor se.id) = db.userTasks.countP (openFor se.id))
    (hopen : ∀ u ∈ db'.userTasks, u.status = .opened →
      u ∈ db.userTasks ∧ ∀ se ∈ db.stepExecutions, se.id = u.stepExecutionID → p se = false) :
    Delivery db' := by
  -- a row that runs afterwards is an old row the update has not touched
  have hold : ∀ se ∈ db'.stepExecutions, se.status = .running →
      se ∈ db.stepExecutions ∧ p se = false := by
    intro se hse hrun
    rw [hs] at hse
    obtain ⟨r, hr, rfl⟩ := Table.mem_update.mp hse
    by_cases hp : p r = true
    · simp only [hp, if_true] at hrun
      exact absurd hrun (hf r)
    · simp only [hp, Bool.false_eq_true, if_false]
      exact ⟨hr, by simp⟩
  refine ⟨?_, ?_, ?_⟩
  · intro se hse hrun htype
    obtain ⟨hmem, hp⟩ := hold se hse hrun
    rw [hjobs se hmem hp hrun htype]
    exact h.job se hmem hrun htype
  · intro se hse hrun htype
    obtain ⟨hmem, hp⟩ := hold se hse hrun
    rw [htasks se hmem hp hrun htype]
    exact h.task se hmem hrun htype
  · intro u hu hopened
    obtain ⟨hmem, hclear⟩ := hopen u hu hopened
    obtain ⟨se, hse, hid, hrun⟩ := h.opened u hmem hopened
    refine ⟨se, ?_, hid, hrun⟩
    rw [hs]
    exact Table.mem_update_of_not hse (hclear se hse hid)

/-- Changing only jobs, with every count kept. -/
theorem jobs (h : Delivery db) (hs : db'.stepExecutions = db.stepExecutions)
    (ht : db'.userTasks = db.userTasks)
    (hj : ∀ se ∈ db.stepExecutions, se.status = .running → se.stepType = .serviceTask →
      db'.jobs.countP (liveFor se.id) = db.jobs.countP (liveFor se.id)) : Delivery db' := by
  refine ⟨?_, ?_, ?_⟩
  · intro se hse hrun htype
    rw [hs] at hse
    rw [hj se hse hrun htype]
    exact h.job se hse hrun htype
  · rw [hs, ht]
    exact h.task
  · rw [hs, ht]
    exact h.opened

/-- Changing none of the three tables. -/
theorem frame (h : Delivery db) (hs : db'.stepExecutions = db.stepExecutions)
    (hj : db'.jobs = db.jobs) (ht : db'.userTasks = db.userTasks) : Delivery db' :=
  h.jobs hs ht fun _ _ _ _ => by rw [hj]

end Delivery

section Steps

variable {svc : Service} {db : Db}

theorem Db.WF.job_step_lt (h : db.WF svc) : ∀ r ∈ db.jobs, r.stepExecutionID < db.nextId := by
  intro r hr
  obtain ⟨se, hse, hid, -⟩ := h.job_step hr
  exact hid ▸ h.step_lt se hse

theorem Db.WF.task_step_lt (h : db.WF svc) :
    ∀ r ∈ db.userTasks, r.stepExecutionID < db.nextId := by
  intro r hr
  obtain ⟨se, hse, hkey⟩ := h.task_step hr
  have hid : se.id = r.stepExecutionID := congrArg StepKey.id hkey
  exact hid ▸ h.step_lt se hse

/-- A new step execution has no jobs yet. -/
private theorem no_live_jobs (h : db.WF svc) : db.jobs.countP (liveFor db.nextId) = 0 := by
  rw [List.countP_eq_zero]
  intro r hr
  have := h.job_step_lt r hr
  simp only [liveFor, Bool.and_eq_true, decide_eq_true_eq, not_and]
  omega

private theorem no_open_tasks (h : db.WF svc) : db.userTasks.countP (openFor db.nextId) = 0 := by
  rw [List.countP_eq_zero]
  intro r hr
  have := h.task_step_lt r hr
  simp only [openFor, Bool.and_eq_true, decide_eq_true_eq, not_and]
  omega

/-- A dispatch delivers the work of the step it parks. -/
theorem Dispatched.delivery {now : Time} {d : WorkflowDefinition} {tx tx' : Tx}
    {step : WorkflowStep} {next : List StepId} (h : Dispatched svc now d tx step tx' next)
    (hwf : TxWF svc d tx) (hfind : findStep d step.id = some step) (hd : Delivery tx.db) :
    Delivery tx'.db := by
  obtain ⟨row, hrows, hkey, -, hstatus⟩ := h.rows hwf hfind
  have hid : row.id = tx.db.nextId := congrArg StepKey.id hkey
  have htype : row.stepType = step.type := congrArg StepKey.stepType hkey
  refine ⟨?_, ?_, ?_⟩
  · intro se hse hrun hservice
    rw [hrows] at hse
    rcases List.mem_append.mp hse with hse | hse
    · -- an older step execution: a new job belongs to the new row
      have hlt := hwf.wf.step_lt se hse
      rw [← hd.job se hse hrun hservice]
      rcases h.job_view with ⟨-, hj⟩ | ⟨-, job, hj, hjkey, -⟩
      · rw [hj]
      · have hne : job.stepExecutionID ≠ se.id := by
          rw [show job.stepExecutionID = tx.db.nextId from congrArg ChildKey.stepExecutionID hjkey]
          omega
        simp [hj, liveFor, hne]
    · obtain rfl := List.mem_singleton.mp hse
      rcases h.job_view with ⟨hnot, -⟩ | ⟨-, job, hj, hjkey, hjstatus, -⟩
      · exact absurd (htype.symm.trans hservice) hnot
      · have hjse : job.stepExecutionID = tx.db.nextId := congrArg ChildKey.stepExecutionID hjkey
        rw [hj, hid, List.countP_append, no_live_jobs hwf.wf]
        simp [liveFor, hjse, hjstatus, JobStatus.live]
  · intro se hse hrun huser
    rw [hrows] at hse
    rcases List.mem_append.mp hse with hse | hse
    · have hlt := hwf.wf.step_lt se hse
      rw [← hd.task se hse hrun huser]
      rcases h.task_view with ⟨-, ht⟩ | ⟨-, task, ht, htkey, -⟩
      · rw [ht]
      · have hne : task.stepExecutionID ≠ se.id := by
          rw [show task.stepExecutionID = tx.db.nextId from
            congrArg (fun k => k.stepExecutionID) htkey]
          omega
        simp [ht, openFor, hne]
    · obtain rfl := List.mem_singleton.mp hse
      rcases h.task_view with ⟨hnot, -⟩ | ⟨-, task, ht, htkey, htstatus⟩
      · exact absurd (htype.symm.trans huser) hnot
      · have htse : task.stepExecutionID = tx.db.nextId :=
          congrArg (fun k => k.stepExecutionID) htkey
        rw [ht, hid, List.countP_append, no_open_tasks hwf.wf]
        simp [openFor, htse, htstatus]
  · intro u hu hopened
    have hold : u ∈ tx.db.userTasks → ∃ se ∈ tx'.db.stepExecutions,
        se.id = u.stepExecutionID ∧ se.status = .running := by
      intro hmem
      obtain ⟨se, hse, hrest⟩ := hd.opened u hmem hopened
      exact ⟨se, hrows ▸ List.mem_append_left _ hse, hrest⟩
    rcases h.task_view with ⟨-, ht⟩ | ⟨huser, task, ht, htkey, -⟩
    · exact hold (ht ▸ hu)
    · rw [ht] at hu
      rcases List.mem_append.mp hu with hu | hu
      · exact hold hu
      · obtain rfl := List.mem_singleton.mp hu
        refine ⟨row, by rw [hrows]; simp, ?_, ?_⟩
        · rw [hid]
          exact (congrArg (fun k => k.stepExecutionID) htkey).symm
        · rw [hstatus, huser]
          rfl

/-- The step of a job callback is a service task. -/
theorem Callback.service (hwf : db.WF svc) {jobID : Nat} {job : Job} {se : StepExecution}
    {inst : WorkflowInstance} (h : Callback db jobID job se inst) :
    se.stepType = .serviceTask ∧ se.instanceID = inst.id := by
  obtain ⟨se', hse', hid, hinst, htype⟩ := hwf.job_step (getJob_mem h.job_eq).1
  obtain rfl := hwf.step_eq hse' (getStepExecution_mem h.se_eq)
    (hid.trans (getStepExecution_id h.se_eq).symm)
  exact ⟨htype, hinst.trans (getInstance_id h.inst_eq).symm⟩

/-- Closing one step execution with the rows attached to it. -/
theorem Delivery.closeOne {db' : Db} (h : Delivery db) (se : StepExecution)
    {f : StepExecution → StepExecution}
    (hs : db'.stepExecutions =
      Table.update (fun r => decide (r.id = se.id)) f db.stepExecutions)
    (hf : ∀ r, (f r).status ≠ .running)
    (hjobs : ∀ x, x ≠ se.id → db'.jobs.countP (liveFor x) = db.jobs.countP (liveFor x))
    (htasks : ∀ x, x ≠ se.id → db'.userTasks.countP (openFor x) = db.userTasks.countP (openFor x))
    (hopen : ∀ u ∈ db'.userTasks, u.status = .opened →
      u ∈ db.userTasks ∧ u.stepExecutionID ≠ se.id) : Delivery db' := by
  refine h.close hs hf ?_ ?_ ?_
  · intro r _ hp _ _
    exact hjobs r.id (by simpa using hp)
  · intro r _ hp _ _
    exact htasks r.id (by simpa using hp)
  · intro u hu hopened
    obtain ⟨hmem, hne⟩ := hopen u hu hopened
    exact ⟨hmem, fun r _ hid => by simpa [hid] using hne⟩

/-- No user task hangs on a service task. -/
theorem Callback.no_task (hwf : db.WF svc) {jobID : Nat} {job : Job} {se : StepExecution}
    {inst : WorkflowInstance} (h : Callback db jobID job se inst) :
    ∀ u ∈ db.userTasks, u.stepExecutionID ≠ se.id := by
  intro u hu hid
  obtain ⟨se', hse', hkey⟩ := hwf.task_step hu
  have hid' : se'.id = u.stepExecutionID := congrArg StepKey.id hkey
  obtain rfl := hwf.step_eq hse' (getStepExecution_mem h.se_eq) (hid'.trans hid)
  have htype : se'.stepType = .userTask := congrArg StepKey.stepType hkey
  rw [(h.service hwf).1] at htype
  cases htype

/-- A job that reports and its step close together. -/
theorem Delivery.closeCallback {db' : Db} (h : Delivery db) (hwf : db.WF svc) {jobID : Nat}
    {job : Job} {se : StepExecution} {inst : WorkflowInstance}
    (hcb : Callback db jobID job se inst) {p : Job → Bool} {g : Job → Job}
    {f : StepExecution → StepExecution}
    (hs : db'.stepExecutions =
      Table.update (fun r => decide (r.id = se.id)) f db.stepExecutions)
    (hj : db'.jobs = Table.update p g db.jobs) (ht : db'.userTasks = db.userTasks)
    (hf : ∀ r, (f r).status ≠ .running)
    (hp : ∀ r ∈ db.jobs, p r = true → r.stepExecutionID = se.id)
    (hg : ∀ r, (g r).key = r.key) : Delivery db' := by
  refine h.closeOne se hs hf ?_ ?_ ?_
  · intro x hx
    rw [hj]
    exact countP_liveFor_other hp hg hx
  · intro x _
    rw [ht]
  · intro u hu _
    rw [ht] at hu
    exact ⟨hu, hcb.no_task hwf u hu⟩

/-- The job of a callback, by id, is a job of its step. -/
theorem Callback.job_step_id (hwf : db.WF svc) {jobID : Nat} {job : Job} {se : StepExecution}
    {inst : WorkflowInstance} (h : Callback db jobID job se inst) :
    ∀ r ∈ db.jobs, decide (r.id = jobID) = true → r.stepExecutionID = se.id := by
  intro r hr hid
  obtain rfl := h.job_unique hwf r hr (of_decide_eq_true hid)
  exact (getStepExecution_id h.se_eq).symm

/-- Counting jobs after one of them has been rewritten. -/
theorem Db.WF.countP_job (hwf : db.WF svc) {job : Job} (hjob : job ∈ db.jobs) {jobID : Nat}
    (hid : job.id = jobID) (f : Job → Job) (q : Job → Bool) :
    (Table.update (fun r => decide (r.id = jobID)) f db.jobs).countP q + (if q job then 1 else 0) =
      db.jobs.countP q + (if q (f job) then 1 else 0) := by
  have hnd := hwf.shape.job_ids.nodup
  simp only [Db.shape, List.map_map] at hnd
  exact Table.countP_update_one hnd hjob hid

/-- Retiring a live job and inserting another for the same step. -/
theorem Delivery.replace {db' : Db} (h : Delivery db) (hwf : db.WF svc) {jobID : Nat} {job : Job}
    {se : StepExecution} {inst : WorkflowInstance} (hcb : Callback db jobID job se inst)
    (hlive : job.status.live = true) {p : Job → Bool} {g : Job → Job} {new : Job}
    (hs : db'.stepExecutions = db.stepExecutions)
    (hj : db'.jobs = Table.update p g db.jobs ++ [new]) (ht : db'.userTasks = db.userTasks)
    (hp : ∀ r ∈ db.jobs, p r = decide (r.id = jobID)) (hg : ∀ r, (g r).key = r.key)
    (hdead : ∀ r, (g r).status.live = false) (hnew : new.stepExecutionID = se.id)
    (hnewlive : new.status.live = true) : Delivery db' := by
  refine h.jobs hs ht ?_
  intro se' hse' hrun htype
  rw [hj, List.countP_append]
  by_cases hid : se'.id = se.id
  · -- one live row fewer, one more
    have hupd : Table.update p g db.jobs =
        Table.update (fun r => decide (r.id = jobID)) g db.jobs := by
      unfold Table.update
      refine List.map_congr_left fun r hr => ?_
      rw [hp r hr]
    have hlast := hwf.countP_job (getJob_mem hcb.job_eq).1 (getJob_mem hcb.job_eq).2 g
      (liveFor se'.id)
    have hwas : liveFor se'.id job = true := by
      simp [liveFor, hlive, hid, getStepExecution_id hcb.se_eq]
    have his : liveFor se'.id (g job) = false := by simp [liveFor, hdead]
    have hone : [new].countP (liveFor se'.id) = 1 := by
      simp [liveFor, hnew, hid, hnewlive]
    rw [hupd, hone]
    simpa [hwas, his] using hlast
  · have hzero : [new].countP (liveFor se'.id) = 0 := by
      simp [liveFor, hnew, Ne.symm hid]
    rw [hzero, Nat.add_zero]
    have hown : ∀ r ∈ db.jobs, p r = true → r.stepExecutionID = se.id :=
      fun r hr hpr => hcb.job_step_id hwf r hr (hp r hr ▸ hpr)
    exact countP_liveFor_other hown hg hid

/-- The step execution of a task is at the task's step. -/
theorem Db.WF.task_step_of_id (hwf : db.WF svc) {u : UserTask} (hu : u ∈ db.userTasks)
    {se : StepExecution} (hse : se ∈ db.stepExecutions) (hid : se.id = u.stepExecutionID) :
    se.key = ⟨u.stepExecutionID, u.instanceID, u.stepID, .userTask⟩ := by
  obtain ⟨se', hse', hkey⟩ := hwf.task_step hu
  have hid' : se'.id = u.stepExecutionID := congrArg StepKey.id hkey
  obtain rfl := hwf.step_eq hse' hse (hid'.trans hid.symm)
  exact hkey

/-- No user task is at a step of another type. -/
theorem no_task_at (hwf : db.WF svc) {inst : WorkflowInstance} (hinst : inst ∈ db.instances)
    {d : WorkflowDefinition} (hd : Runs svc inst d) {step : WorkflowStep}
    (hfind : findStep d step.id = some step) (htype : step.type ≠ .userTask) :
    ∀ u ∈ db.userTasks, ¬ (u.instanceID = inst.id ∧ u.stepID = step.id) := by
  rintro u hu ⟨hi, hstep⟩
  obtain ⟨se, hse, hkey⟩ := hwf.task_step hu
  have hsi : se.instanceID = u.instanceID := congrArg StepKey.instanceID hkey
  have hss : se.stepID = u.stepID := congrArg StepKey.stepID hkey
  have hst : se.stepType = .userTask := congrArg StepKey.stepType hkey
  have := hwf.step_type hinst hd hse (hsi.trans hi) (hss.trans hstep ▸ hfind)
  exact htype (this.symm.trans hst)

/-- Closing the running rows of a step no open task is at. -/
theorem Delivery.closeAt {db' : Db} (h : Delivery db) (hwf : db.WF svc) {instanceID : Nat}
    {stepID : StepId} {f : StepExecution → StepExecution}
    (hs : db'.stepExecutions =
      Table.update (Db.runningAt instanceID stepID) f db.stepExecutions)
    (hj : db'.jobs = db.jobs) (ht : db'.userTasks = db.userTasks)
    (hf : ∀ r, (f r).status ≠ .running)
    (hno : ∀ u ∈ db.userTasks, u.status = .opened →
      ¬ (u.instanceID = instanceID ∧ u.stepID = stepID)) : Delivery db' := by
  refine h.close hs hf (fun _ _ _ _ _ => by rw [hj]) (fun _ _ _ _ _ => by rw [ht]) ?_
  intro u hu hopened
  rw [ht] at hu
  refine ⟨hu, ?_⟩
  intro se hse hid
  have hkey := hwf.task_step_of_id hu hse hid
  have hsi : se.instanceID = u.instanceID := congrArg StepKey.instanceID hkey
  have hss : se.stepID = u.stepID := congrArg StepKey.stepID hkey
  have := hno u hu hopened
  rw [Bool.eq_false_iff]
  intro hrun
  simp only [Db.runningAt, Bool.and_eq_true, decide_eq_true_eq, hsi, hss] at hrun
  exact this hrun.1

/-- Closing the open tasks and the running rows of a step together. -/
theorem Delivery.closeTasksAt {db' : Db} (h : Delivery db) (hwf : db.WF svc) {instanceID : Nat}
    {stepID : StepId} {f : StepExecution → StepExecution} {g : UserTask → UserTask}
    (hs : db'.stepExecutions =
      Table.update (Db.runningAt instanceID stepID) f db.stepExecutions)
    (hj : db'.jobs = db.jobs)
    (ht : db'.userTasks = Table.update (Db.openAt instanceID stepID) g db.userTasks)
    (hf : ∀ r, (f r).status ≠ .running) (hg : ∀ r, (g r).key = r.key)
    (hclosed : ∀ r, (g r).status ≠ .opened) :
    Delivery db' ∧ ∀ u ∈ db'.userTasks, u.status = .opened →
      ¬ (u.instanceID = instanceID ∧ u.stepID = stepID) := by
  -- an open task afterwards is an old one elsewhere
  have hold : ∀ u ∈ db'.userTasks, u.status = .opened →
      u ∈ db.userTasks ∧ ¬ (u.instanceID = instanceID ∧ u.stepID = stepID) := by
    intro u hu hopened
    rw [ht] at hu
    obtain ⟨r, hr, rfl⟩ := Table.mem_update.mp hu
    by_cases hp : Db.openAt instanceID stepID r = true
    · simp only [hp, if_true] at hopened
      exact absurd hopened (hclosed r)
    · simp only [hp, Bool.false_eq_true, if_false] at hopened ⊢
      refine ⟨hr, fun hat => hp ?_⟩
      simp [Db.openAt, hat.1, hat.2, hopened]
  refine ⟨h.close hs hf (fun _ _ _ _ _ => by rw [hj]) ?_ ?_, fun u hu ho => (hold u hu ho).2⟩
  · intro se hse hp hrun _
    rw [ht]
    apply Table.countP_update_eq
    intro r hr hpr
    have hne : r.stepExecutionID ≠ se.id := by
      intro hid
      have hkey := hwf.task_step_of_id hr hse hid.symm
      have hsi : se.instanceID = r.instanceID := congrArg StepKey.instanceID hkey
      have hss : se.stepID = r.stepID := congrArg StepKey.stepID hkey
      simp only [Db.openAt, Bool.and_eq_true, decide_eq_true_eq] at hpr
      simp [Db.runningAt, hsi, hss, hpr.1.1, hpr.1.2, hrun] at hp
    have hgse : (g r).stepExecutionID = r.stepExecutionID :=
      congrArg (fun k => k.stepExecutionID) (hg r)
    simp [openFor, hgse, hne]
  · intro u hu hopened
    obtain ⟨hmem, hat⟩ := hold u hu hopened
    refine ⟨hmem, ?_⟩
    intro se hse hid
    have hkey := hwf.task_step_of_id hmem hse hid
    have hsi : se.instanceID = u.instanceID := congrArg StepKey.instanceID hkey
    have hss : se.stepID = u.stepID := congrArg StepKey.stepID hkey
    rw [Bool.eq_false_iff]
    intro hrun
    simp only [Db.runningAt, Bool.and_eq_true, decide_eq_true_eq, hsi, hss] at hrun
    exact hat hrun.1

/-- Advancing past a step no open task is at. -/
theorem Advanced.delivery {now : Time} {d : WorkflowDefinition} {tx tx' : Tx}
    {step : WorkflowStep} {next : List StepId} (h : Advanced now d tx step tx' next)
    (hwf : TxWF svc d tx) (hd : Delivery tx.db)
    (hno : ∀ u ∈ tx.db.userTasks, u.status = .opened →
      ¬ (u.instanceID = tx.inst.id ∧ u.stepID = step.id)) : Delivery tx'.db := by
  cases h with
  | on target htarget => exact hd.frame rfl rfl rfl
  | stop hnext hlen => exact hd.frame rfl rfl rfl
  | fail reason => exact hd.closeAt hwf.wf rfl rfl rfl (fun _ => by simp) hno

end Steps

/-- Work is delivered in every run. -/
theorem delivery_invariant (svc : Service) :
    TxInvariant svc (fun db => db.WF svc) (fun d tx _ => TxWF svc d tx) (fun _ _ => True)
      (fun _ => True) Delivery (fun _ tx _ => Delivery tx.db) where
  opening := by
    intro db op now p _ hwf h _ hop
    cases hop with
    | ignored op hrefused => exact h
    | started definitionID version vars businessKey d json key hd hsteps =>
      exact h.frame rfl rfl rfl
    | chainStarted source d json key hd hsteps hclaim => exact h.frame rfl rfl rfl
    | outputsRejected jobID workerID vars job se inst violations hcb hacc =>
      refine h.closeCallback hwf hcb rfl rfl rfl (fun _ => by simp) ?_ fun _ => rfl
      intro r _ hr
      simp only [Bool.and_eq_true, decide_eq_true_eq] at hr
      exact hr.1
    | jobCompleted jobID workerID vars job se inst d step g hcb hacc hd hstep hnext =>
      exact h.closeCallback hwf hcb rfl rfl rfl (fun _ => by simp) (hcb.job_step_id hwf)
        fun _ => rfl
    | jobAdvanced jobID workerID vars job se inst d step g json tx next hcb hacc hd hstep hadv =>
      have hclosed : Delivery ((closeJob now db jobID se.id workerID vars).patchVars inst.id g) :=
        h.closeCallback hwf hcb rfl rfl rfl (fun _ => by simp) (hcb.job_step_id hwf) fun _ => rfl
      refine hadv.delivery (jobClosed_wf hwf hcb.read_inst hd ..) hclosed ?_
      intro u hu _
      obtain ⟨htype, hse⟩ := hcb.service hwf
      have hinst := getInstance_mem hcb.inst_eq
      have hstype := hwf.step_type hinst hd (getStepExecution_mem hcb.se_eq) hse hstep
      rw [htype] at hstype
      have hsid := findStep_id hstep
      exact no_task_at hwf hinst hd (hsid ▸ hstep) (by simp [← hstype]) u hu
    | jobRetried jobID workerID errorMessage job se inst hcb hacc hretries =>
      obtain ⟨-, hlive⟩ := alive_of_acceptsCallback hacc
      exact h.replace hwf hcb hlive (enqueueReplacement_stepExecutions ..)
        (enqueueReplacement_jobs ..) (enqueueReplacement_userTasks ..) (fun _ _ => rfl)
        (fun _ => rfl) (fun _ => rfl) (getStepExecution_id hcb.se_eq).symm rfl
    | jobFailed jobID workerID errorMessage retryable job se inst hcb hacc =>
      exact h.closeCallback hwf hcb rfl rfl rfl (fun _ => by simp) (hcb.job_step_id hwf)
        fun _ => rfl
    | jobReplaced op jobID job se inst hop hcb halive hlocked =>
      refine h.replace hwf hcb (by simp [hlocked, JobStatus.live])
        (enqueueReplacement_stepExecutions ..) (enqueueReplacement_jobs ..)
        (enqueueReplacement_userTasks ..) ?_ (fun _ => rfl) (fun _ => rfl)
        (getStepExecution_id hcb.se_eq).symm rfl
      -- the row with this id is the leased job itself
      intro r hr
      by_cases hid : r.id = jobID
      · obtain rfl := hcb.job_unique hwf r hr hid
        simp [hid, hlocked]
      · simp [hid]
    | leaseExtended later jobID workerID seconds lease job se inst hcb halive hlocked howner hvalid =>
      exact h.jobs rfl rfl fun se _ _ _ => countP_liveFor_same se.id fun _ _ _ => ⟨rfl, rfl⟩
    | polled workerID jobTypes max seconds lease rowLocked =>
      refine h.jobs (Db.pollJobs_stepExecutions ..) (Db.pollJobs_userTasks ..) ?_
      intro se _ _ _
      unfold Db.pollJobs
      split
      · rfl
      · refine countP_liveFor_same se.id fun r hr hclaim => ⟨rfl, ?_⟩
        have hunlocked := claimed_unlocked hwf hr (by simpa using hclaim)
        simp [hunlocked, JobStatus.live]
    | userTaskCompleted stepID vars inst d step result merged g tx next hinst hflight hd hstep
        htype hrows hadv =>
      obtain rfl := findStep_id hstep
      obtain ⟨hclosed, hno⟩ : Delivery (((db.completeUserTask now inst.id step.id
          result).1.completeStepExecutionByStep now inst.id step.id merged).1.patchVars inst.id g) ∧
          _ :=
        h.closeTasksAt hwf rfl rfl rfl (fun _ => by simp) (fun _ => rfl) fun _ => by simp
      exact hadv.delivery (taskClosed_wf hwf hinst hd ..) hclosed hno
    | waitSignalled stepID vars inst d step merged g tx next hinst hflight hd hstep htype hrows
        hadv =>
      obtain rfl := findStep_id hstep
      have hno : ∀ u ∈ db.userTasks, u.status = .opened →
          ¬ (u.instanceID = inst.id ∧ u.stepID = step.id) :=
        fun u hu _ => no_task_at hwf (getInstance_mem hinst) hd hstep (by simp [htype]) u hu
      have hclosed : Delivery ((db.completeStepExecutionByStep now inst.id step.id
          merged).1.patchVars inst.id g) :=
        h.closeAt hwf rfl rfl rfl (fun _ => by simp) hno
      exact hadv.delivery (waitClosed_wf hwf hinst hd ..) hclosed hno
    | timerConsumed eventID inst event hinst hevent hdead => exact h.frame rfl rfl rfl
    | timerInterrupts eventID inst event se d hinst hevent hinterrupting hse halive hd =>
      refine h.closeOne se rfl (fun _ => by simp) ?_ ?_ ?_
      · intro x hx
        refine countP_liveFor_other ?_ (fun _ => rfl) hx
        intro r _ hr
        simp only [Bool.and_eq_true, decide_eq_true_eq] at hr
        exact hr.1
      · intro x hx
        apply Table.countP_update_eq
        intro r _ hr
        simp only [Bool.and_eq_true, decide_eq_true_eq] at hr
        simp [openFor, hr.1, Ne.symm hx]
      · intro u hu hopened
        obtain ⟨r, hr, rfl⟩ := Table.mem_update.mp hu
        split at hopened
        · cases hopened
        · rename_i hp
          rw [if_neg hp]
          refine ⟨hr, fun hid => hp ?_⟩
          simp [hid, hopened]
    | timerForks eventID inst event se d hinst hevent hinterrupting hse halive hd =>
      exact h.frame rfl rfl rfl
    | housekept retention => exact h.frame rfl rfl rfl
    | cancelled inst reason hinst hflight => exact h.frame rfl rfl rfl
    | stepRetried inst stepID patch d g json hinst hfailed hlatest hd => exact h.frame rfl rfl rfl
  step := fun hwf h _ hfind hdisp => hdisp.delivery hwf hfind h
  closing := fun _ h => h
  acknowledge := fun h => h.frame rfl rfl rfl

theorem delivery_empty : Delivery {} := ⟨by simp, by simp, by simp⟩

theorem delivery_run (svc : Service) (calls : List Call) : Delivery (run svc calls) :=
  (((wf_invariant svc).and (delivery_invariant svc)).run ⟨wf_empty svc, delivery_empty⟩
    ((Run.guarded_true _ calls).mono fun _ _ _ => ⟨trivial, fun _ _ => trivial⟩)).2

/-- Two live jobs of one running service task are the same job. -/
theorem Delivery.live_unique {db : Db} (h : Delivery db) {se : StepExecution}
    (hse : se ∈ db.stepExecutions) (hrun : se.status = .running)
    (htype : se.stepType = .serviceTask) {r r' : Job} (hr : r ∈ db.jobs) (hr' : r' ∈ db.jobs)
    (hlive : r.status.live = true) (hlive' : r'.status.live = true)
    (hid : r.stepExecutionID = se.id) (hid' : r'.stepExecutionID = se.id) : r = r' := by
  have hone := h.job se hse hrun htype
  rw [List.countP_eq_length_filter] at hone
  obtain ⟨x, hx⟩ := List.length_eq_one_iff.mp hone
  have hmem : ∀ y ∈ db.jobs, y.status.live = true → y.stepExecutionID = se.id → y = x := by
    intro y hy hylive hyid
    have : y ∈ db.jobs.filter (liveFor se.id) := List.mem_filter.mpr ⟨hy, by simp [liveFor, hylive, hyid]⟩
    rw [hx] at this
    exact List.mem_singleton.mp this
  rw [hmem r hr hlive hid, hmem r' hr' hlive' hid']

end Rochallor
