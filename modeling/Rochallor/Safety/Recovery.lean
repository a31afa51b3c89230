import Rochallor.Safety.CurrentSteps

/-! # Recovering a failed instance

    `RetryFailedStep` takes a failed instance up again at a step whose latest
    attempt has failed.  A failed instance without such a step cannot be
    recovered.  It comes about in three ways: completing a step whose branches
    then cannot be decided fails the instance after the step has been closed
    as completed; a failure may hit an attempt that is not the latest; and the
    dispatches that are still pending when a step fails may enter that step
    again.
-/

namespace Rochallor

/-! ## Attempts -/

/-- The executions of a step of an instance. -/
def Db.attempts (db : Db) (instanceID : Nat) (stepID : StepId) : List StepExecution :=
  db.stepExecutions.filter fun r => decide (r.instanceID = instanceID) && decide (r.stepID = stepID)

/-- The one with the greatest attempt number. -/
def Db.latestAttempt (db : Db) (instanceID : Nat) (stepID : StepId) : Option StepExecution :=
  Table.latest (·.attemptNumber) (db.attempts instanceID stepID)

/-- `RetryFailedStep` accepts the step. -/
def Db.retryable (db : Db) (instanceID : Nat) (stepID : StepId) : Bool :=
  (db.latestAttempt instanceID stepID).any fun r => decide (r.status = .failed)

section Attempts

variable {db db' : Db} {instanceID : Nat} {stepID : StepId}

theorem latestStatus_eq : db.getLatestStepExecutionStatus instanceID stepID =
    match db.latestAttempt instanceID stepID with
    | none => .error .stepNotRetryable
    | some r => .ok r.status := by
  have hbest : Table.better (fun r : StepExecution => r.attemptNumber) =
      fun (best : Option StepExecution) r =>
        match best with
        | none => some r
        | some b => if b.attemptNumber < r.attemptNumber then some r else some b := by
    funext best r
    cases best <;> rfl
  rw [Db.latestAttempt, Table.latest, hbest]
  rfl

theorem retryable_iff : db.retryable instanceID stepID = true ↔
    db.getLatestStepExecutionStatus instanceID stepID = .ok .failed := by
  rw [latestStatus_eq, Db.retryable]
  cases db.latestAttempt instanceID stepID with
  | none => simp
  | some r => simp

theorem mem_attempts {r : StepExecution} : r ∈ db.attempts instanceID stepID ↔
    r ∈ db.stepExecutions ∧ r.instanceID = instanceID ∧ r.stepID = stepID := by
  simp [Db.attempts]

theorem length_attempts :
    (db.attempts instanceID stepID).length = db.countStepAttempts instanceID stepID := by
  rw [Db.attempts, Db.countStepAttempts, List.countP_eq_length_filter]

theorem Untouched.attempts (hu : Untouched instanceID db db') :
    db'.attempts instanceID stepID = db.attempts instanceID stepID := by
  have hsplit : ∀ db : Db, db.attempts instanceID stepID =
      (db.stepExecutions.filter fun r => decide (r.instanceID = instanceID)).filter
        fun r => decide (r.stepID = stepID) := by
    intro db
    rw [Db.attempts, List.filter_filter]
    exact List.filter_congr fun r _ => Bool.and_comm ..
  rw [hsplit, hsplit, hu.steps]

/-- Rewriting rows under their keys. -/
theorem attempts_map {f : StepExecution → StepExecution}
    (hrows : db'.stepExecutions = db.stepExecutions.map f) (hf : ∀ r, (f r).key = r.key) :
    db'.attempts instanceID stepID = (db.attempts instanceID stepID).map f := by
  have hkey : ∀ r, (f r).instanceID = r.instanceID ∧ (f r).stepID = r.stepID := fun r =>
    ⟨congrArg StepKey.instanceID (hf r), congrArg StepKey.stepID (hf r)⟩
  rw [Db.attempts, hrows, List.filter_map, Db.attempts]
  congr 1
  refine List.filter_congr fun r _ => ?_
  simp [Function.comp, hkey r]

theorem attempts_insert {row : StepExecution}
    (hrows : db'.stepExecutions = db.stepExecutions ++ [row]) :
    db'.attempts instanceID stepID = if row.instanceID = instanceID ∧ row.stepID = stepID then
      db.attempts instanceID stepID ++ [row] else db.attempts instanceID stepID := by
  rw [Db.attempts, hrows, List.filter_append]
  split
  · rename_i h
    simp [Db.attempts, h]
  · rename_i h
    simp only [not_and] at h
    have hnone : [row].filter (fun r => decide (r.instanceID = instanceID) &&
        decide (r.stepID = stepID)) = [] := by
      simpa using h
    rw [hnone, List.append_nil]
    rfl

end Attempts

/-! ## Rewriting executions -/

/-- Rows rewritten under their keys and attempt numbers, and closed rows not at
    all. -/
def Rewritten (t t' : List StepExecution) : Prop :=
  ∃ f : StepExecution → StepExecution, t' = t.map f ∧
    (∀ r, (f r).key = r.key ∧ (f r).attemptNumber = r.attemptNumber) ∧
    ∀ r ∈ t, r.status ≠ .running → f r = r

namespace Rewritten

variable {t t' t'' : List StepExecution}

theorem refl (t : List StepExecution) : Rewritten t t :=
  ⟨id, by simp, fun _ => ⟨rfl, rfl⟩, fun _ _ _ => rfl⟩

theorem trans (h : Rewritten t t') (h' : Rewritten t' t'') : Rewritten t t'' := by
  obtain ⟨f, rfl, hf, hclosed⟩ := h
  obtain ⟨g, rfl, hg, hclosed'⟩ := h'
  refine ⟨g ∘ f, by simp, ?_, ?_⟩
  · intro r
    exact ⟨(hg (f r)).1.trans (hf r).1, (hg (f r)).2.trans (hf r).2⟩
  · intro r hr hne
    have hfr := hclosed r hr hne
    have hmem : r ∈ t.map f := List.mem_map.mpr ⟨r, hr, hfr⟩
    simp [hfr, hclosed' r hmem hne]

/-- Running rows may be rewritten. -/
theorem update {q : StepExecution → Bool} {f : StepExecution → StepExecution}
    (hf : ∀ r, (f r).key = r.key ∧ (f r).attemptNumber = r.attemptNumber)
    (hq : ∀ r ∈ t, q r = true → r.status = .running) : Rewritten t (Table.update q f t) := by
  refine ⟨fun r => if q r then f r else r, rfl, ?_, ?_⟩
  · intro r
    simp only
    split
    · exact hf r
    · exact ⟨rfl, rfl⟩
  · intro r hr hne
    simp only
    split
    · rename_i hqr
      exact absurd (hq r hr hqr) hne
    · rfl

/-- The rows running at a step. -/
theorem updateAt {instanceID : Nat} {stepID : StepId} {f : StepExecution → StepExecution}
    (hf : ∀ r, (f r).key = r.key ∧ (f r).attemptNumber = r.attemptNumber) :
    Rewritten t (Table.update (Db.runningAt instanceID stepID) f t) := by
  refine update hf fun r _ hr => ?_
  simp only [Db.runningAt, Bool.and_eq_true, decide_eq_true_eq] at hr
  exact hr.2

variable {db db' : Db} {instanceID : Nat} {stepID : StepId}

theorem latest (h : Rewritten db.stepExecutions db'.stepExecutions) (instanceID : Nat)
    (stepID : StepId) :
    ∃ f : StepExecution → StepExecution,
      db'.latestAttempt instanceID stepID = (db.latestAttempt instanceID stepID).map f ∧
      ∀ r ∈ db.stepExecutions, r.status ≠ .running → f r = r := by
  obtain ⟨f, hrows, hf, hclosed⟩ := h
  refine ⟨f, ?_, hclosed⟩
  unfold Db.latestAttempt
  rw [attempts_map hrows fun r => (hf r).1, Table.latest_map fun r => (hf r).2]

/-- A failed attempt stays one. -/
theorem retryable (h : Rewritten db.stepExecutions db'.stepExecutions)
    (hfailed : db.retryable instanceID stepID = true) :
    db'.retryable instanceID stepID = true := by
  obtain ⟨f, hlatest, hclosed⟩ := h.latest instanceID stepID
  unfold Db.retryable at hfailed ⊢
  cases hr : db.latestAttempt instanceID stepID with
  | none =>
    rw [hr] at hfailed
    cases hfailed
  | some r =>
    rw [hr, Option.any_some, decide_eq_true_eq] at hfailed
    have hmem := (mem_attempts.mp (Table.latest_mem hr)).1
    rw [hlatest, hr, Option.map_some, hclosed r hmem (by simp [hfailed])]
    simpa using hfailed

end Rewritten

section Openings

variable {svc : Service} {now : Time} {db : Db} {op : Op} {p : Plan}

theorem Advanced.rewritten {d : WorkflowDefinition} {tx tx' : Tx} {step : WorkflowStep}
    {next : List StepId} (h : Advanced now d tx step tx' next) :
    Rewritten tx.db.stepExecutions tx'.db.stepExecutions := by
  cases h with
  | on target htarget hnext => exact .refl _
  | stop hnext hlen => exact .refl _
  | fail reason => exact .updateAt fun _ => ⟨rfl, rfl⟩

/-- The execution of an accepted callback. -/
private theorem rewritten_by_callback (hwf : db.WF svc) {jobID : Nat} {workerID : String} {job : Job}
    {se : StepExecution} {inst : WorkflowInstance} (hcb : Callback db jobID job se inst)
    (hacc : (jobExecution now job se inst).acceptsCallback workerID = true)
    {f : StepExecution → StepExecution}
    (hf : ∀ r, (f r).key = r.key ∧ (f r).attemptNumber = r.attemptNumber) :
    Rewritten db.stepExecutions
      (Table.update (fun r => decide (r.id = se.id)) f db.stepExecutions) := by
  refine .update hf fun r hr hid => ?_
  obtain rfl := hcb.step_unique hwf r hr hid
  exact (alive_of_acceptsCallback hacc).1.2

/-- An operation inserts no execution before its dispatches. -/
theorem Opened.rewritten (h : Opened svc now db op p) (hwf : db.WF svc) :
    Rewritten db.stepExecutions p.tables.stepExecutions := by
  cases h with
  | outputsRejected jobID workerID vars job se inst violations hcb hacc =>
    exact rewritten_by_callback hwf hcb hacc fun _ => ⟨rfl, rfl⟩
  | jobCompleted jobID workerID vars job se inst d step g hcb hacc hd hfind hnext =>
    exact rewritten_by_callback hwf hcb hacc fun _ => ⟨rfl, rfl⟩
  | jobAdvanced jobID workerID vars job se inst d step g json tx next hcb hacc hd hfind hadv =>
    refine Rewritten.trans ?_ hadv.rewritten
    exact rewritten_by_callback hwf hcb hacc fun _ => ⟨rfl, rfl⟩
  | jobRetried jobID workerID errorMessage job se inst hcb hacc hretries =>
    simp only [Plan.tables, enqueueReplacement_stepExecutions, Db.markJobFailed_stepExecutions]
    exact .refl _
  | jobFailed jobID workerID errorMessage retryable job se inst hcb hacc =>
    exact rewritten_by_callback hwf hcb hacc fun _ => ⟨rfl, rfl⟩
  | jobReplaced op jobID job se inst hop hcb halive hlocked =>
    simp only [Plan.tables, enqueueReplacement_stepExecutions]
    exact .refl _
  | polled workerID jobTypes max seconds lease rowLocked =>
    simp only [Plan.tables, Db.pollJobs_stepExecutions]
    exact .refl _
  | userTaskCompleted stepID vars inst d step result merged g tx next hinst hflight hd hfind
      htype hrows hadv =>
    refine Rewritten.trans ?_ hadv.rewritten
    exact .updateAt fun _ => ⟨rfl, rfl⟩
  | waitSignalled stepID vars inst d step merged g tx next hinst hflight hd hfind htype hrows
      hadv =>
    refine Rewritten.trans ?_ hadv.rewritten
    exact .updateAt fun _ => ⟨rfl, rfl⟩
  | timerInterrupts eventID inst event se d hinst hevent hinterrupting hse halive hd =>
    refine .update (fun _ => ⟨rfl, rfl⟩) fun r hr hid => ?_
    obtain rfl := hwf.step_eq hr (getStepExecution_mem hse) (of_decide_eq_true hid)
    exact halive.2
  | _ => exact .refl _

end Openings

/-! ## What makes an instance unrecoverable -/

/-- A later attempt of the step has been made. -/
def Db.superseded (db : Db) (se : StepExecution) : Bool :=
  decide ((db.latestAttempt se.instanceID se.stepID).map (·.id) ≠ some se.id)

/-- Going on past the step with these variables fails the instance. -/
def failsPast (svc : Service) (vars : Except String Json) (step : WorkflowStep) : Bool :=
  vars.toOption.any fun merged => advanceFails svc merged step

/-- The operation closes a step as completed and then fails the instance over
    its branches. -/
def Op.failsAfterwards (svc : Service) (now : Time) (db : Db) : Op → Bool
  | .completeJob jobID workerID vars =>
    callbackAccepted now db jobID workerID && (stepOfJob svc db jobID).any fun x =>
      x.2.leaves vars && (db.getInstance x.1.instanceID).any fun inst =>
        failsPast svc (varsAfter inst.vars vars) x.2
  | .completeUserTask instanceID stepID vars =>
    db.userTasks.any (Db.openAt instanceID stepID) && (db.getInstance instanceID).any fun inst =>
      (svc.defRepo.getVersion inst.definitionID inst.definitionVersion).toOption.any fun d =>
        inst.status.inFlight && (findStep d stepID).any fun step =>
          failsPast svc (mergeVariables inst.vars vars) step
  | .signalWait instanceID stepID vars =>
    db.stepExecutions.any (Db.runningAt instanceID stepID) &&
      (db.getInstance instanceID).any fun inst =>
        (svc.defRepo.getVersion inst.definitionID inst.definitionVersion).toOption.any fun d =>
          inst.status.inFlight && (findStep d stepID).any fun step =>
            failsPast svc (mergeVariables inst.vars vars) step
  | _ => false

/-- The operation fails an attempt that is not the latest of its step. -/
def Op.failsOldAttempt (svc : Service) (now : Time) (db : Db) : Op → Bool
  | .completeJob jobID workerID vars =>
    callbackAccepted now db jobID workerID && (stepOfJob svc db jobID).any fun x =>
      !(outputViolations x.2 vars).isEmpty && db.superseded x.1
  | .failJob jobID workerID _ retryable =>
    callbackAccepted now db jobID workerID && (db.getJob jobID).any fun job =>
      (!retryable || decide (job.retriesRemaining ≤ 0)) &&
        (db.getStepExecution job.stepExecutionID).any db.superseded
  | _ => false

/-- The dispatch enters again, and leaves behind, the step the instance has
    just failed at. -/
def Dispatch.buries (svc : Service) (x : Dispatch) : Bool :=
  decide (x.tx.inst.status = .failed) && x.tx.db.retryable x.tx.inst.id x.stepID &&
    (findStep x.definition x.stepID).any fun step =>
      (writtenStatus svc x.now x.tx.inst.vars step).isNone

section Openings

variable {svc : Service} {now : Time} {db : Db} {op : Op} {p : Plan}

/-- The dispatches start on an instance that has not failed. -/
theorem Opened.not_failed (h : Opened svc now db op p) (hwf : db.WF svc)
    (hok : op.failsAfterwards svc now db = false) {d : WorkflowDefinition} {tx : Tx}
    {steps : List StepId} (hp : p.agenda = some (d, tx, steps)) : tx.inst.status ≠ .failed := by
  have hpast : ∀ {vars : Except String Json} {merged : Json} {step : WorkflowStep},
      vars = .ok merged → failsPast svc vars step = false → advanceFails svc merged step = false := by
    rintro vars merged step rfl h
    simpa [failsPast, Except.toOption] using h
  cases h with
  | started definitionID version vars businessKey d json key hd hsteps =>
    cases hp
    exact fun h => by cases h
  | chainStarted source d json key hd hsteps hclaim =>
    cases hp
    exact fun h => by cases h
  | jobAdvanced jobID workerID vars job se inst d step g json tx next hcb hacc hd hfind hadv
      hleaves hjson hfails =>
    cases hp
    intro hfailed
    have hse : db.getInstance se.instanceID = some inst := by
      rw [(hcb.service hwf).2, getInstance_id hcb.inst_eq]
      exact hcb.inst_eq
    have hno := hpast hjson (by
      simpa [Op.failsAfterwards, callbackAccepted_of hcb, hacc, stepOfJob_eq hcb hd hfind, hleaves,
        hse] using hok)
    rw [hfails hfailed] at hno
    cases hno
  | userTaskCompleted stepID vars inst d step result merged g tx next hinst hflight hd hfind
      htype hrows hadv hmerged hfails =>
    cases hp
    intro hfailed
    have hd' : (svc.defRepo.getVersion inst.definitionID inst.definitionVersion).toOption = some d := by
      rw [hd]
      rfl
    have hopen : db.userTasks.any (Db.openAt inst.id stepID) = true := by
      obtain ⟨u, hu, hopen⟩ := List.countP_pos_iff.mp (Nat.pos_of_ne_zero hrows)
      exact List.any_eq_true.mpr ⟨u, hu, hopen⟩
    have hno := hpast hmerged (by
      simpa [Op.failsAfterwards, hopen, hinst, hd', hflight, hfind] using hok)
    rw [hfails hfailed] at hno
    cases hno
  | waitSignalled stepID vars inst d step merged g tx next hinst hflight hd hfind htype hrows
      hadv hmerged hfails =>
    cases hp
    intro hfailed
    have hd' : (svc.defRepo.getVersion inst.definitionID inst.definitionVersion).toOption = some d := by
      rw [hd]
      rfl
    have hrun : db.stepExecutions.any (Db.runningAt inst.id stepID) = true := by
      obtain ⟨se, hse, hrun⟩ := List.countP_pos_iff.mp (Nat.pos_of_ne_zero hrows)
      exact List.any_eq_true.mpr ⟨se, hse, hrun⟩
    have hno := hpast hmerged (by
      simpa [Op.failsAfterwards, hrun, hinst, hd', hflight, hfind] using hok)
    rw [hfails hfailed] at hno
    cases hno
  | timerInterrupts eventID inst event se d hinst hevent hinterrupting hse halive hd =>
    cases hp
    intro hfailed
    have hflight := halive.1
    have hstatus : inst.status = .failed := hfailed
    rw [hstatus] at hflight
    cases hflight
  | timerForks eventID inst event se d hinst hevent hinterrupting hse halive hd =>
    cases hp
    intro hfailed
    have hflight := halive.1
    have hstatus : inst.status = .failed := hfailed
    rw [hstatus] at hflight
    cases hflight
  | stepRetried inst stepID patch d g json hinst hfailed hlatest hd =>
    cases hp
    exact fun h => by cases h
  | _ => cases hp

/-- Failing the latest attempt of a step makes it retryable. -/
private theorem retryable_of_fail {db' : Db} {se : StepExecution} {f : StepExecution → StepExecution}
    (hrows : db'.stepExecutions =
      Table.update (fun r => decide (r.id = se.id)) f db.stepExecutions)
    (hf : ∀ r, (f r).key = r.key ∧ (f r).attemptNumber = r.attemptNumber ∧ (f r).status = .failed)
    (hlatest : db.superseded se = false) : db'.retryable se.instanceID se.stepID = true := by
  have hkey : ∀ r : StepExecution, (if decide (r.id = se.id) then f r else r).key = r.key := by
    intro r
    split
    · exact (hf r).1
    · rfl
  have hattempt : ∀ r : StepExecution,
      (if decide (r.id = se.id) then f r else r).attemptNumber = r.attemptNumber := by
    intro r
    split
    · exact (hf r).2.1
    · rfl
  unfold Db.retryable Db.latestAttempt
  rw [attempts_map hrows hkey, Table.latest_map hattempt]
  have hid : (db.latestAttempt se.instanceID se.stepID).map (·.id) = some se.id := by
    simpa [Db.superseded] using hlatest
  obtain ⟨r, hr, hrid⟩ := Option.map_eq_some_iff.mp hid
  have hr' : Table.latest (·.attemptNumber) (db.attempts se.instanceID se.stepID) = some r := hr
  rw [hr', Option.map_some, Option.any_some, hrid]
  simp [(hf r).2.2]

/-- How a call that dispatches nothing fails an execution, and the reason it
    gives. -/
inductive FailsExecution (svc : Service) (now : Time) (db : Db) :
    Op → StepExecution → String → Prop
  /-- The worker's outputs violate the schema. -/
  | outputs (jobID : Nat) (workerID : String) (vars : GoMap Value) (job : Job)
      (se : StepExecution) (inst : WorkflowInstance) (d : WorkflowDefinition) (step : WorkflowStep)
      (violations : List SchemaViolation) (hcb : Callback db jobID job se inst)
      (hacc : (jobExecution now job se inst).acceptsCallback workerID = true)
      (hd : Runs svc inst d) (hfind : findStep d se.stepID = some step)
      (hviol : (outputViolations step vars).isEmpty = false) :
      FailsExecution svc now db (.completeJob jobID workerID vars) se
        (schemaViolationError violations)
  /-- The worker reports a final failure. -/
  | report (jobID : Nat) (workerID errorMessage : String) (retryable : Bool) (job : Job)
      (se : StepExecution) (inst : WorkflowInstance) (hcb : Callback db jobID job se inst)
      (hacc : (jobExecution now job se inst).acceptsCallback workerID = true)
      (hfinal : (!retryable || decide (job.retriesRemaining ≤ 0)) = true) :
      FailsExecution svc now db (.failJob jobID workerID errorMessage retryable) se errorMessage

theorem FailsExecution.latest {se : StepExecution} {reason : String}
    (h : FailsExecution svc now db op se reason) (hok : op.failsOldAttempt svc now db = false) :
    db.superseded se = false := by
  cases h with
  | outputs jobID workerID vars job se inst d step violations hcb hacc hd hfind hviol =>
    simpa [Op.failsOldAttempt, callbackAccepted_of hcb, hacc, stepOfJob_eq hcb hd hfind, hviol]
      using hok
  | report jobID workerID errorMessage retryable job se inst hcb hacc hfinal =>
    simpa [Op.failsOldAttempt, callbackAccepted_of hcb, hacc, hcb.job_eq, hcb.se_eq, hfinal]
      using hok

/-- A failed row after a call that dispatches nothing was failed before, for
    the same reason, or its instance has failed along with an execution. -/
theorem Opened.commit_row {db' : Db} {reply : Option EngineError}
    (h : Opened svc now db op (.commit db' reply)) (hwf : db.WF svc) {r' : WorkflowInstance}
    (hr' : r' ∈ db'.instances) (hfailed : r'.status = .failed) :
    (∃ r ∈ db.instances, r.id = r'.id ∧ r.status = .failed ∧
        r.failureReason = r'.failureReason ∧ r.completedAt = r'.completedAt) ∨
      ∃ se reason, FailsExecution svc now db op se reason ∧ se ∈ db.stepExecutions ∧
        se.instanceID = r'.id ∧ r'.failureReason = some reason ∧ r'.completedAt = some now ∧
        db'.stepExecutions = (db.failStepExecutionByID now se.id reason).stepExecutions := by
  have hother : ∀ {inst : WorkflowInstance} {reason : String},
      r' ∈ (db.markInstanceFailed now inst.id reason).instances →
      (r'.id = inst.id ∧ r'.failureReason = some reason ∧ r'.completedAt = some now) ∨
        r' ∈ db.instances := by
    intro inst reason hmem
    obtain ⟨r, hr, rfl⟩ := Table.mem_update.mp hmem
    by_cases hid : r.id = inst.id
    · simp [hid]
    · simp [hid, hr]
  have hsame : r' ∈ db.instances → ∃ r ∈ db.instances, r.id = r'.id ∧ r.status = .failed ∧
      r.failureReason = r'.failureReason ∧ r.completedAt = r'.completedAt :=
    fun hmem => ⟨r', hmem, rfl, hfailed, rfl, rfl⟩
  cases h with
  | outputsRejected jobID workerID vars job se inst violations hcb hacc d hd step hfind hviol =>
    rcases hother hr' with ⟨hid, hreason, hat⟩ | hold
    · refine .inr ⟨se, _, .outputs jobID workerID vars job se inst d step violations hcb hacc hd
        hfind hviol, getStepExecution_mem hcb.se_eq, ?_, hreason, hat, rfl⟩
      rw [hid]
      exact (hcb.service hwf).2
    · exact .inl (hsame hold)
  | jobFailed jobID workerID errorMessage retryable job se inst hcb hacc hfinal =>
    have hfinal' : (!retryable || decide (job.retriesRemaining ≤ 0)) = true := by
      simpa using hfinal
    rcases hother hr' with ⟨hid, hreason, hat⟩ | hold
    · refine .inr ⟨se, _, .report jobID workerID errorMessage retryable job se inst hcb hacc
        hfinal', getStepExecution_mem hcb.se_eq, ?_, hreason, hat, rfl⟩
      rw [hid]
      exact (hcb.service hwf).2
    · exact .inl (hsame hold)
  | jobCompleted jobID workerID vars job se inst d step g hcb hacc hd hfind hnext =>
    obtain ⟨r, hr, rfl⟩ := Table.mem_update.mp hr'
    by_cases hid : r.id = inst.id <;>
      exact .inl ⟨r, hr, by simp [hid], by simpa [hid] using hfailed, by simp [hid], by simp [hid]⟩
  | jobRetried jobID workerID errorMessage job se inst hcb hacc hretries =>
    exact .inl (hsame (by simpa using hr'))
  | jobReplaced op jobID job se inst hop hcb halive hlocked => exact .inl (hsame (by simpa using hr'))
  | polled workerID jobTypes max seconds lease rowLocked =>
    obtain ⟨jobs, hpoll⟩ := db.pollJobs_tables now workerID jobTypes max lease rowLocked
    rw [hpoll] at hr'
    exact .inl (hsame hr')
  | cancelled inst reason hinst hflight =>
    obtain ⟨r, hr, rfl⟩ := Table.mem_update.mp hr'
    split at hfailed
    · cases hfailed
    · rename_i hne
      rw [if_neg hne]
      exact .inl ⟨r, hr, rfl, hfailed, rfl, rfl⟩
  | _ => exact .inl (hsame hr')

end Openings

/-! ## Failed instances can be recovered -/

/-- No attempt number is greater than the number of attempts, and a failed
    instance has a step to retry. -/
structure Recoverable (db : Db) (i : Nat) : Prop where
  numbered : ∀ stepID, ∀ r ∈ db.attempts i stepID,
    r.attemptNumber ≤ (db.attempts i stepID).length
  failed : ∀ r ∈ db.instances, r.id = i → r.status = .failed →
    ∃ stepID, db.retryable i stepID = true

/-- The same in a transaction, where the status in memory is the one that
    counts. -/
structure RecoverableTx (tx : Tx) : Prop where
  numbered : ∀ stepID, ∀ r ∈ tx.db.attempts tx.inst.id stepID,
    r.attemptNumber ≤ (tx.db.attempts tx.inst.id stepID).length
  failed : tx.inst.status = .failed → ∃ stepID, tx.db.retryable tx.inst.id stepID = true

section Recoverable

variable {svc : Service} {now : Time} {db db' : Db} {d : WorkflowDefinition} {i : Nat}

theorem Recoverable.untouched (hu : Untouched i db db') (h : Recoverable db i) :
    Recoverable db' i := by
  refine ⟨?_, ?_⟩
  · intro stepID
    rw [hu.attempts]
    exact h.numbered stepID
  · intro r hr hid hstatus
    obtain ⟨stepID, hretry⟩ := h.failed r ((hu.mem_instance hid).mp hr) hid hstatus
    refine ⟨stepID, ?_⟩
    unfold Db.retryable Db.latestAttempt at hretry ⊢
    rwa [hu.attempts]

/-- The attempts after one more of `stepID`. -/
structure Entered (db db' : Db) (i : Nat) (stepID : StepId) (row : StepExecution) : Prop where
  self : db'.attempts i stepID = db.attempts i stepID ++ [row]
  other : ∀ t, t ≠ stepID → db'.attempts i t = db.attempts i t

/-- A dispatch makes the next attempt of its step. -/
theorem Dispatched.entered {tx tx' : Tx} {step : WorkflowStep} {next : List StepId}
    (hdisp : Dispatched svc now d tx step tx' next) (hwf : TxWF svc d tx)
    (hfind : findStep d step.id = some step) :
    ∃ row, Entered tx.db tx'.db tx.inst.id step.id row ∧
      row.key = ⟨tx.db.nextId, tx.inst.id, step.id, step.type⟩ ∧
      row.attemptNumber = (tx.db.attempts tx.inst.id step.id).length + 1 ∧
      row.status = if step.type.external then .running
        else closedStatus svc now tx.inst.vars step := by
  obtain ⟨row, hrows, hkey, hattempt, hstatus⟩ := hdisp.rows hwf hfind
  have hinst : row.instanceID = tx.inst.id := congrArg StepKey.instanceID hkey
  have hstep : row.stepID = step.id := congrArg StepKey.stepID hkey
  rw [← length_attempts] at hattempt
  refine ⟨row, ⟨?_, ?_⟩, hkey, hattempt, hstatus⟩
  · rw [attempts_insert hrows, if_pos ⟨hinst, hstep⟩]
  · intro t ht
    rw [attempts_insert hrows, if_neg]
    rintro ⟨-, heq⟩
    exact ht (heq.symm.trans hstep)

/-- Rewriting executions keeps their numbers. -/
theorem numbered_rewritten (h : Rewritten db.stepExecutions db'.stepExecutions)
    (hn : ∀ stepID, ∀ r ∈ db.attempts i stepID,
      r.attemptNumber ≤ (db.attempts i stepID).length) :
    ∀ stepID, ∀ r ∈ db'.attempts i stepID,
      r.attemptNumber ≤ (db'.attempts i stepID).length := by
  intro stepID r hr
  obtain ⟨f, hrows, hf, -⟩ := h
  rw [attempts_map hrows fun r => (hf r).1] at hr ⊢
  obtain ⟨r₀, hr₀, rfl⟩ := List.mem_map.mp hr
  rw [List.length_map, (hf r₀).2]
  exact hn stepID r₀ hr₀

/-- A dispatch fails the instance along with the attempt it has just made. -/
theorem Dispatched.recoverable {tx tx' : Tx} {step : WorkflowStep} {pending next : List StepId}
    (hdisp : Dispatched svc now d tx step tx' next) (hwf : TxWF svc d tx)
    (hfind : findStep d step.id = some step)
    (hok : Dispatch.buries svc ⟨now, d, tx, step.id, pending⟩ = false) (h : RecoverableTx tx) :
    RecoverableTx tx' := by
  obtain ⟨f, hv⟩ := hdisp.instance_view
  have hid : tx'.inst.id = tx.inst.id := congrArg InstanceKey.id hv.inst_key
  obtain ⟨row, he, -, hattempt, hstatus⟩ := hdisp.entered hwf hfind
  refine ⟨?_, ?_⟩
  · rw [hid]
    intro stepID r hr
    by_cases hs : stepID = step.id
    · subst hs
      rw [he.self] at hr ⊢
      rw [List.length_append, List.length_singleton]
      rcases List.mem_append.mp hr with hr | hr
      · have := h.numbered step.id r hr
        omega
      · rw [List.mem_singleton.mp hr, hattempt]
    · rw [he.other stepID hs] at hr ⊢
      exact h.numbered stepID r hr
  · rw [hid, hv.inst_status]
    intro hfailed
    cases hw : writtenStatus svc now tx.inst.vars step with
    | some s =>
      -- the dispatch itself fails the instance, and its row is the latest
      rw [hw, Option.getD_some] at hfailed
      subst hfailed
      have hroute : routingFails svc now tx.inst.vars step = true ∧
          step.type.external = false := by
        unfold writtenStatus at hw
        split at hw
        · cases hw
        · cases hw
        · cases hw
        · split at hw
          · rename_i hfails
            refine ⟨hfails, ?_⟩
            unfold routingFails at hfails
            cases htype : step.type <;> simp_all [StepType.external]
          · cases hw
      have hrowfailed : row.status = .failed := by
        rw [hstatus, hroute.2]
        simp [closedStatus, hroute.1]
      refine ⟨step.id, ?_⟩
      unfold Db.retryable Db.latestAttempt
      rw [he.self, Table.latest_append fun b hb => ?_]
      · simp [hrowfailed]
      · have := h.numbered step.id b hb
        omega
    | none =>
      rw [hw, Option.getD_none] at hfailed
      obtain ⟨stepID, hretry⟩ := h.failed hfailed
      by_cases hs : stepID = step.id
      · subst hs
        simp [Dispatch.buries, hfailed, hretry, hfind, hw] at hok
      · refine ⟨stepID, ?_⟩
        unfold Db.retryable Db.latestAttempt at hretry ⊢
        rwa [he.other stepID hs]

theorem recoverable_invariant (svc : Service) :
    TxInvariant svc (fun db => db.WF svc) (fun d tx _ => TxWF svc d tx)
      (fun db call => call.op.failsAfterwards svc call.now db = false ∧
        call.op.failsOldAttempt svc call.now db = false)
      (fun x => x.buries svc = false) (fun db => ∀ i, Recoverable db i)
      (fun _ tx _ => (∀ i, i ≠ tx.inst.id → Recoverable tx.db i) ∧ RecoverableTx tx) := by
  refine TxInvariant.ofLocal (fun hu h => h.untouched hu) ?_ ?_ ?_
  · intro db op now p i fuel hwf hP hC hop hi
    have hrewritten := hop.rewritten hwf
    cases p with
    | commit db' reply =>
      refine ⟨numbered_rewritten hrewritten (hP i).numbered, ?_⟩
      rintro r hr rfl hfailed
      rcases hop.commit_row hwf hr hfailed with
        ⟨r₀, hr₀, hid, hstatus, -⟩ | ⟨se, reason, hfails, -, hid, -, -, hrows⟩
      · obtain ⟨stepID, hretry⟩ := (hP r.id).failed r₀ hr₀ hid hstatus
        exact ⟨stepID, hrewritten.retryable hretry⟩
      · refine ⟨se.stepID, ?_⟩
        rw [← hid]
        exact retryable_of_fail hrows (fun _ => ⟨rfl, rfl, rfl⟩) (hfails.latest hC.2)
    | dispatch d tx steps =>
      exact ⟨numbered_rewritten hrewritten (hP _).numbered,
        fun hfailed => absurd hfailed (hop.not_failed hwf hC.1 rfl)⟩
    | chain d tx steps source =>
      exact ⟨numbered_rewritten hrewritten (hP _).numbered,
        fun hfailed => absurd hfailed (hop.not_failed hwf hC.1 rfl)⟩
  · intro now d tx step pending tx' next hwf h hG hfind hdisp
    exact hdisp.recoverable hwf hfind hG h
  · intro d tx hwf h
    refine ⟨h.numbered, ?_⟩
    intro r hr hid hstatus
    rw [hwf.row_status hr hid] at hstatus
    exact h.failed hstatus

end Recoverable

/-- In every run in which no call fails an instance past a completed step or
    at an attempt that is not the latest, and no dispatch enters the step its
    instance has just failed at, every failed instance has a step whose latest
    attempt has failed. -/
theorem failed_instances_recoverable (svc : Service) (calls : List Call)
    (hguard : Run.Guarded (apply svc)
      (fun db call => (call.op.failsAfterwards svc call.now db = false ∧
        call.op.failsOldAttempt svc call.now db = false) ∧
        ∀ x ∈ dispatches svc db call, x.buries svc = false) {} calls) :
    ∀ r ∈ (run svc calls).instances, r.status = .failed →
      ∃ stepID, (run svc calls).getLatestStepExecutionStatus r.id stepID = .ok .failed := by
  intro r hr hfailed
  have hrec : ∀ i, Recoverable (run svc calls) i :=
    (((wf_invariant svc).and (recoverable_invariant svc)).run
      ⟨wf_empty svc, fun i => ⟨fun _ _ h => by simp [Db.attempts] at h, by simp⟩⟩ hguard).2
  obtain ⟨stepID, hretry⟩ := (hrec r.id).failed r hr rfl hfailed
  exact ⟨stepID, retryable_iff.mp hretry⟩

/-- A charge that goes on to the end if `expr` holds. -/
def routedCharge (expr : String) : WorkflowDefinition where
  id := "routed-charge"
  version := 1
  name := "routed charge"
  steps := [
    { id := "charge", name := "charge", type := .serviceTask, jobType := "charge",
      conditionalNextSteps := some ⟨[expr], [(expr, "end")]⟩ },
    { id := "end", name := "end", type := .endStep }]

/-- The charge is declined for good. -/
def declinedRun : List Call :=
  [(routedCharge "true").start, ⟨.failJob 2 "worker" "declined" false, 1, 16⟩]

/-- The charge succeeds, and no branch fits. -/
def unroutedRun : List Call :=
  [(routedCharge "false").start, ⟨.completeJob 2 "worker" [], 1, 16⟩]

theorem failed_instances_recoverable_declined :
    ∃ r ∈ (run (.ofList [routedCharge "true"]) declinedRun).instances, r.status = .failed ∧
      ∃ stepID, (run (.ofList [routedCharge "true"]) declinedRun).getLatestStepExecutionStatus
        r.id stepID = .ok .failed := by
  have hrow : (run (.ofList [routedCharge "true"]) declinedRun).instances.any
      fun r => decide (r.status = .failed) := by
    decide +kernel
  obtain ⟨r, hr, hfailed⟩ := List.any_eq_true.mp hrow
  exact ⟨r, hr, of_decide_eq_true hfailed,
    failed_instances_recoverable _ declinedRun (by decide +kernel) r hr
      (of_decide_eq_true hfailed)⟩

/-- The instance has failed, and none of its executions has. -/
theorem unrouted_unrecoverable :
    ¬ ∀ svc : Service, svc.Uploaded Accepted → ∀ calls, ∀ r ∈ (run svc calls).instances,
      r.status = .failed →
      ∃ stepID, (run svc calls).getLatestStepExecutionStatus r.id stepID = .ok .failed := by
  intro h
  have hup : (Service.ofList [routedCharge "false"]).Uploaded Accepted :=
    Service.uploaded_ofList (by decide +kernel)
  have hrow : (run (.ofList [routedCharge "false"]) unroutedRun).instances.any
      fun r => decide (r.status = .failed) := by
    decide +kernel
  have hnone : (run (.ofList [routedCharge "false"]) unroutedRun).stepExecutions.all
      fun se => decide (se.status ≠ .failed) := by
    decide +kernel
  obtain ⟨r, hr, hfailed⟩ := List.any_eq_true.mp hrow
  obtain ⟨stepID, hlatest⟩ := h _ hup unroutedRun r hr (of_decide_eq_true hfailed)
  rw [latestStatus_eq] at hlatest
  split at hlatest
  · cases hlatest
  · rename_i se hse
    have hmem := (mem_attempts.mp (Table.latest_mem hse)).1
    exact of_decide_eq_true (List.all_eq_true.mp hnone se hmem) (Except.ok.inj hlatest)

end Rochallor
