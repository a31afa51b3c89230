import Rochallor.Monitor.Context
import Rochallor.Safety.Attempts
import Rochallor.Safety.Polling

/-! # The context shown for a current step

    The monitor promises to show only evidence of what an instance still waits
    for, and to say so when the records conflict or are missing.  In the tables
    of the engine the records of a running execution never conflict and are
    never missing.  What is shown as unavailable is a step whose latest
    execution has ended, a step with several running executions, or a step of a
    type that waits for nobody.
-/

namespace Rochallor.Monitor

/-- What the engine waits for at a step, and what the monitor shows of it. -/
inductive WaitsFor (cols : OtherColumns) (db : Db) (i : Nat) (stepID : StepId)
    (c : ExecutionContext) : Prop
  /-- The latest execution has ended, or there is none. -/
  | ended (hlatest : ∀ e, (db.attempts i stepID).getLast? = some e → e.status ≠ .running)
      (hreason : c.reason = .unavailable)
  /-- Several executions run. -/
  | several (hruns : 1 < (db.attempts i stepID).countP fun e => decide (e.status = .running))
      (hreason : c.reason = .unavailable)
      (hwhy : c.unavailableReason = some "Conflicting live execution records")
  /-- A step that the engine passes in the same transaction. -/
  | automatic (e : StepExecution) (hlatest : (db.attempts i stepID).getLast? = some e)
      (hrun : e.status = .running) (htype : e.stepType.external = false)
      (hreason : c.reason = .unavailable)
  | signal (e : StepExecution) (hlatest : (db.attempts i stepID).getLast? = some e)
      (hrun : e.status = .running) (htype : e.stepType = .wait) (hreason : c.reason = .signal)
  /-- The one job on which a report can still be accepted. -/
  | job (e : StepExecution) (r : Job) (hlatest : (db.attempts i stepID).getLast? = some e)
      (hrun : e.status = .running) (htype : e.stepType = .serviceTask) (hr : r ∈ db.jobs)
      (hshown : c.job = some (contextJob r))
      (hreason : c.reason = if r.status = .locked then .jobLocked else .jobAvailable)
      (honly : ∀ now jobID workerID, callbackAccepted now db jobID workerID = true →
        (∃ r' ∈ db.jobs, r'.id = jobID ∧ r'.stepExecutionID = e.id) →
        jobID = r.id ∧ (r.status = .locked → r.workerID.getD "" = workerID))
  /-- The one open task. -/
  | task (e : StepExecution) (u : UserTask)
      (hlatest : (db.attempts i stepID).getLast? = some e)
      (hrun : e.status = .running) (htype : e.stepType = .userTask) (hu : u ∈ db.userTasks)
      (hshown : c.task = some (contextTask cols u)) (hreason : c.reason = .userTask)
      (honly : ∀ u' ∈ db.userTasks, u'.status = .opened → u'.stepExecutionID = e.id → u' = u)

section Records

variable {svc : Service} {db : Db} {cols : OtherColumns} {i : Nat} {stepID : StepId}

/-- The latest execution is the attempt made last. -/
theorem latestExecution_eq (h : Numbered db i) (cols : OtherColumns) (stepID : StepId) :
    latestExecution cols (executionsOf db i stepID) = (db.attempts i stepID).getLast? := by
  refine Table.latest_of_pairwise ?_
  have hnumbers : ((db.attempts i stepID).map (·.attemptNumber)).Pairwise (· < ·) := by
    rw [h.numbers]
    exact List.pairwise_lt_range'
  rw [List.pairwise_map] at hnumbers
  exact hnumbers.imp fun hlt => Prod.Lex.toLex_lt_toLex.mpr (.inl hlt)

theorem mem_attempts {e : StepExecution} (he : (db.attempts i stepID).getLast? = some e) :
    e ∈ db.stepExecutions ∧ e.instanceID = i ∧ e.stepID = stepID := by
  obtain ⟨hmem, hkey⟩ := List.mem_filter.mp (List.mem_of_getLast? he)
  simp only [Bool.and_eq_true, decide_eq_true_eq] at hkey
  exact ⟨hmem, hkey⟩

/-- A running service task has one live job. -/
theorem contextJobs_eq (hwf : db.WF svc) (hd : Delivery db) {e : StepExecution}
    (he : e ∈ db.stepExecutions) (hi : e.instanceID = i) (hrun : e.status = .running)
    (htype : e.stepType = .serviceTask) :
    ∃ r, contextJobs db i e = [r] ∧ r ∈ db.jobs ∧ r.status.live = true ∧
      r.stepExecutionID = e.id := by
  have hsame : contextJobs db i e = db.jobs.filter (liveFor e.id) := by
    unfold contextJobs
    rw [if_pos ⟨hrun, htype⟩]
    refine List.filter_congr fun r hr => ?_
    by_cases hid : r.stepExecutionID = e.id
    · obtain ⟨e', he', hid', hinst, -⟩ := hwf.job_step hr
      obtain rfl := hwf.step_eq he' he (hid'.trans hid)
      simp [liveFor, hid, ← hinst, hi]
    · simp [liveFor, hid]
  have hone := hd.job e he hrun htype
  rw [List.countP_eq_length_filter, ← hsame] at hone
  obtain ⟨r, hr⟩ := List.length_eq_one_iff.mp hone
  have hmem : r ∈ db.jobs.filter (liveFor e.id) := by
    rw [← hsame, hr]
    exact List.mem_singleton_self r
  obtain ⟨hjob, hlive⟩ := List.mem_filter.mp hmem
  simp only [liveFor, Bool.and_eq_true, decide_eq_true_eq] at hlive
  exact ⟨r, hr, hjob, by tauto, by tauto⟩

/-- A running user task has one open task. -/
theorem contextTasks_eq (hwf : db.WF svc) (hd : Delivery db) {e : StepExecution}
    (he : e ∈ db.stepExecutions) (hi : e.instanceID = i) (hrun : e.status = .running)
    (htype : e.stepType = .userTask) :
    ∃ u, contextTasks db i e = [u] ∧ u ∈ db.userTasks ∧
      ∀ u' ∈ db.userTasks, u'.status = .opened → u'.stepExecutionID = e.id → u' = u := by
  have hsame : contextTasks db i e = db.userTasks.filter (openFor e.id) := by
    unfold contextTasks
    rw [if_pos ⟨hrun, htype⟩]
    refine List.filter_congr fun u hu => ?_
    by_cases hid : u.stepExecutionID = e.id
    · have hkey := hwf.task_step_of_id hu he hid.symm
      have hinst : e.instanceID = u.instanceID := congrArg StepKey.instanceID hkey
      simp [openFor, hid, ← hinst, hi]
    · simp [openFor, hid]
  have hone := hd.task e he hrun htype
  rw [List.countP_eq_length_filter, ← hsame] at hone
  obtain ⟨u, hu⟩ := List.length_eq_one_iff.mp hone
  have hmem : ∀ u' ∈ db.userTasks, u'.status = .opened → u'.stepExecutionID = e.id → u' = u := by
    intro u' hu' hopen hid
    have hin : u' ∈ db.userTasks.filter (openFor e.id) :=
      List.mem_filter.mpr ⟨hu', by simp [openFor, hid, hopen]⟩
    rw [← hsame, hu] at hin
    exact List.mem_singleton.mp hin
  have hsub : u ∈ db.userTasks.filter (openFor e.id) := by
    rw [← hsame, hu]
    exact List.mem_singleton_self u
  exact ⟨u, hu, (List.mem_filter.mp hsub).1, hmem⟩

/-- Other executions have no jobs. -/
theorem contextJobs_nil {e : StepExecution} (h : ¬ (e.status = .running ∧ e.stepType = .serviceTask)) :
    contextJobs db i e = [] := by
  unfold contextJobs
  rw [if_neg h]

theorem contextTasks_nil {e : StepExecution} (h : ¬ (e.status = .running ∧ e.stepType = .userTask)) :
    contextTasks db i e = [] := by
  unfold contextTasks
  rw [if_neg h]

/-- A report that is accepted for the execution is one on its live job. -/
theorem accepted_on (hwf : db.WF svc) (hd : Delivery db) {e : StepExecution}
    (he : e ∈ db.stepExecutions) (hrun : e.status = .running) (htype : e.stepType = .serviceTask)
    {r : Job} (hr : r ∈ db.jobs) (hlive : r.status.live = true) (hid : r.stepExecutionID = e.id)
    {now : Time} {jobID : Nat} {workerID : String}
    (hacc : callbackAccepted now db jobID workerID = true)
    (hjob : ∃ r' ∈ db.jobs, r'.id = jobID ∧ r'.stepExecutionID = e.id) :
    jobID = r.id ∧ (r.status = .locked → r.workerID.getD "" = workerID) := by
  obtain ⟨job, se, inst, hcb, hacc⟩ := callback_of_accepted hacc
  obtain ⟨-, hjoblive⟩ := alive_of_acceptsCallback hacc
  obtain ⟨r', hr', hid', hse'⟩ := hjob
  obtain rfl := hcb.job_unique hwf r' hr' hid'
  obtain rfl := hd.live_unique he hrun htype hr' hr hjoblive hlive hse' hid
  refine ⟨hid'.symm, fun hlocked => ?_⟩
  simp only [JobExecution.acceptsCallback, jobExecution, hlocked, Bool.and_eq_true,
    Bool.or_eq_true, decide_eq_true_eq, beq_iff_eq, reduceCtorEq, false_or, true_and] at hacc
  exact hacc.2.1

theorem waitsFor_running (hwf : db.WF svc) (hd : Delivery db) {e : StepExecution}
    (hlast : (db.attempts i stepID).getLast? = some e) (hrun : e.status = .running)
    (hcount : ¬ 1 < (executionsOf db i stepID).countP fun e => decide (e.status = .running))
    (hlatest : latestExecution cols (executionsOf db i stepID) = some e) :
    WaitsFor cols db i stepID (contextOf cols db i stepID) := by
  obtain ⟨he, hi, -⟩ := mem_attempts hlast
  by_cases hservice : e.stepType = .serviceTask
  · obtain ⟨r, hjobs, hr, hlive, hid⟩ := contextJobs_eq hwf hd he hi hrun hservice
    have htasks : contextTasks db i e = [] := contextTasks_nil (by simp [hservice])
    have hreason : (contextOf cols db i stepID).reason =
        if r.status = .locked then .jobLocked else .jobAvailable := by
      simp [contextOf, hlatest, hcount, hrun, hservice, hjobs, htasks, Table.latest, Table.better]
    refine .job e r hlast hrun hservice hr ?_ hreason fun now jobID workerID hacc hjob =>
      accepted_on hwf hd he hrun hservice hr hlive hid hacc hjob
    by_cases hlocked : r.status = .locked <;>
      simp [contextOf, hlatest, hcount, hrun, hservice, hjobs, htasks, hlocked, Table.latest,
        Table.better]
  · have hjobs : contextJobs db i e = [] := contextJobs_nil (by simp [hservice])
    by_cases huser : e.stepType = .userTask
    · obtain ⟨u, htasks, hu, honly⟩ := contextTasks_eq hwf hd he hi hrun huser
      refine .task e u hlast hrun huser hu ?_ ?_ honly <;>
        simp [contextOf, hlatest, hcount, hrun, huser, hjobs, htasks, Table.latest, Table.better]
    · have htasks : contextTasks db i e = [] := contextTasks_nil (by simp [huser])
      by_cases hwait : e.stepType = .wait
      · refine .signal e hlast hrun hwait ?_
        simp [contextOf, hlatest, hcount, hrun, hwait, hjobs, htasks]
      · refine .automatic e hlast hrun ?_ ?_
        · cases htype : e.stepType <;> simp_all [StepType.external]
        · simp only [contextOf, hlatest, hcount, hrun, hjobs, htasks, Table.latest, List.foldl_nil,
            Option.elim_some, Option.map_some, List.length_nil]
          -- none of the types the monitor has a reason for
          cases htype : e.stepType <;> simp_all

theorem waitsFor (hwf : db.WF svc) (hd : Delivery db) (hn : Numbered db i) (cols : OtherColumns)
    (stepID : StepId) : WaitsFor cols db i stepID (contextOf cols db i stepID) := by
  have hlatest := latestExecution_eq hn cols stepID
  by_cases hseveral : 1 < (db.attempts i stepID).countP fun e => decide (e.status = .running)
  · have hcount : 1 < (executionsOf db i stepID).countP fun e => decide (e.status = .running) :=
      hseveral
    refine .several hseveral ?_ ?_
    · simp [contextOf, hcount]
    · simp [contextOf, hcount]
  · have hcount : ¬ 1 < (executionsOf db i stepID).countP fun e => decide (e.status = .running) :=
      hseveral
    cases hlast : (db.attempts i stepID).getLast? with
    | none =>
      rw [hlast] at hlatest
      exact .ended (by simp [hlast]) (by simp [contextOf, hlatest])
    | some e =>
      rw [hlast] at hlatest
      obtain ⟨he, hi, -⟩ := mem_attempts hlast
      by_cases hrun : e.status = .running
      · exact waitsFor_running hwf hd hlast hrun hcount hlatest
      · refine .ended (by simp [hlast, hrun]) ?_
        simp [contextOf, hlatest, hrun]

end Records

end Rochallor.Monitor
