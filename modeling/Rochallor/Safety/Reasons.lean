import Rochallor.Safety.Recovery

/-! # Why an instance has failed

    A failed instance has a failure reason, and so has the execution whose
    failure it was.  The engine words the reasons of its routings and of
    rejected outputs itself, and takes the reason of a final failure from the
    worker as it is.  It enters the reason at the running execution of the
    step; an instance that fails over the branches of a step it has just
    completed has no such execution.
-/

namespace Rochallor

/-! ## Explained failures -/

/-- The execution has failed together with the instance of the row, for the
    same, non-empty reason. -/
structure Explains (se : StepExecution) (r : WorkflowInstance) : Prop where
  instance_eq : se.instanceID = r.id
  failed : se.status = .failed
  endedAt : se.endedAt = r.completedAt
  reason : ∃ reason, reason ≠ "" ∧ r.failureReason = some reason ∧ se.failureReason = some reason

/-- A failed instance has an execution that explains the failure. -/
def FailureExplained (db : Db) (i : Nat) : Prop :=
  ∀ r ∈ db.instances, r.id = i → r.status = .failed → ∃ se ∈ db.stepExecutions, Explains se r

/-- The operation is the accepted report of a final failure with an empty
    message. -/
def Op.failsWithoutReason (now : Time) (db : Db) : Op → Bool
  | .failJob jobID workerID errorMessage retryable =>
    callbackAccepted now db jobID workerID && errorMessage.isEmpty &&
      (db.getJob jobID).any fun job => !retryable || decide (job.retriesRemaining ≤ 0)
  | _ => false

section Explained

variable {svc : Service} {now : Time} {db db' : Db} {op : Op} {i : Nat}

/-- An explained failure stays explained as long as the row says the same. -/
theorem Explains.of_row {se : StepExecution} {r r' : WorkflowInstance} (h : Explains se r)
    (hid : r.id = r'.id) (hreason : r.failureReason = r'.failureReason)
    (hat : r.completedAt = r'.completedAt) : Explains se r' := by
  obtain ⟨reason, hne, hr, hse⟩ := h.reason
  exact ⟨h.instance_eq.trans hid, h.failed, h.endedAt.trans hat, reason, hne,
    hreason.symm.trans hr, hse⟩

theorem FailureExplained.untouched (hu : Untouched i db db') (h : FailureExplained db i) :
    FailureExplained db' i := by
  intro r hr hid hfailed
  obtain ⟨se, hse, hexp⟩ := h r ((hu.mem_instance hid).mp hr) hid hfailed
  exact ⟨se, (hu.mem_step (hexp.instance_eq.trans hid)).mpr hse, hexp⟩

/-- Closed executions are not rewritten. -/
theorem Rewritten.mem_closed {t t' : List StepExecution} (h : Rewritten t t') {se : StepExecution}
    (hse : se ∈ t) (hclosed : se.status ≠ .running) : se ∈ t' := by
  obtain ⟨f, rfl, -, hkept⟩ := h
  exact List.mem_map.mpr ⟨se, hse, hkept se hse hclosed⟩

theorem Explains.mem_rewritten {se : StepExecution} {r : WorkflowInstance} (h : Explains se r)
    (hrewritten : Rewritten db.stepExecutions db'.stepExecutions) (hse : se ∈ db.stepExecutions) :
    se ∈ db'.stepExecutions := by
  refine hrewritten.mem_closed hse ?_
  rw [h.failed]
  simp

theorem schemaViolationError_ne_empty (violations : List SchemaViolation) :
    schemaViolationError violations ≠ "" := by
  intro heq
  have hlabel := (String.append_eq_empty_iff.mp heq).1
  simp at hlabel

/-- The reason a call gives is not empty, unless a worker has left it empty. -/
theorem FailsExecution.reason_ne_empty {se : StepExecution} {reason : String}
    (h : FailsExecution svc now db op se reason) (hok : op.failsWithoutReason now db = false) :
    reason ≠ "" := by
  cases h with
  | outputs => exact schemaViolationError_ne_empty _
  | report jobID workerID errorMessage retryable job se inst hcb hacc hfinal =>
    rintro rfl
    simp [Op.failsWithoutReason, callbackAccepted_of hcb, hacc, hcb.job_eq] at hok
    simp only [hok, Bool.not_true, Bool.false_or, decide_eq_true_eq] at hfinal
    omega

/-- A call that dispatches nothing leaves every failure explained. -/
theorem Opened.commit_explained {reply : Option EngineError}
    (h : Opened svc now db op (.commit db' reply)) (hwf : db.WF svc)
    (hok : op.failsWithoutReason now db = false) (hP : ∀ i, FailureExplained db i) (i : Nat) :
    FailureExplained db' i := by
  have hrewritten : Rewritten db.stepExecutions db'.stepExecutions := h.rewritten hwf
  rintro r' hr' rfl hfailed
  rcases h.commit_row hwf hr' hfailed with
    ⟨r, hr, hid, hstatus, hreason, hat⟩ | ⟨se, reason, hfails, hse, hid, hreason, hat, hrows⟩
  · obtain ⟨se, hse, hexp⟩ := hP r.id r hr rfl hstatus
    exact ⟨se, hexp.mem_rewritten hrewritten hse, hexp.of_row hid hreason hat⟩
  · refine ⟨{ se with status := .failed, endedAt := some now, failureReason := some reason }, ?_,
      ⟨hid, rfl, hat.symm, reason, hfails.reason_ne_empty hok, hreason, rfl⟩⟩
    rw [hrows]
    exact Table.mem_update.mpr ⟨se, hse, by simp⟩

end Explained

/-! ## Dispatches -/

section Dispatches

variable {svc : Service} {now : Time} {d : WorkflowDefinition} {tx tx' : Tx} {step : WorkflowStep}
  {next : List StepId}

/-- A failed row after a dispatch was failed before, for the same reason, or
    the dispatch has failed the instance along with its own execution. -/
theorem Dispatched.failed_row (h : Dispatched svc now d tx step tx' next) {r' : WorkflowInstance}
    (hr' : r' ∈ tx'.db.instances) (hid : r'.id = tx.inst.id) (hfailed : r'.status = .failed) :
    (∃ r ∈ tx.db.instances, r.id = r'.id ∧ r.status = .failed ∧
        r.failureReason = r'.failureReason ∧ r.completedAt = r'.completedAt) ∨
      ∃ se ∈ tx'.db.stepExecutions, Explains se r' := by
  have hkept : ∀ {g : WorkflowInstance → WorkflowInstance},
      r' ∈ Table.update (fun r => decide (r.id = tx.inst.id)) g
        (enterStep tx step step.id).db.instances →
      (∀ r, (g r).id = r.id ∧ (g r).status = r.status ∧ (g r).failureReason = r.failureReason ∧
        (g r).completedAt = r.completedAt) →
      ∃ r ∈ tx.db.instances, r.id = r'.id ∧ r.status = .failed ∧
        r.failureReason = r'.failureReason ∧ r.completedAt = r'.completedAt := by
    intro g hmem hg
    obtain ⟨r₁, hr₁, rfl⟩ := Table.mem_update.mp hmem
    obtain ⟨r, hr, rfl⟩ := Table.mem_update.mp hr₁
    refine ⟨r, hr, ?_⟩
    by_cases h : r.id = tx.inst.id
    · simpa [h, hg] using hfailed
    · simp [h] at hid
  have hsame : tx'.db.instances = (enterStep tx step step.id).db.instances →
      ∃ r ∈ tx.db.instances, r.id = r'.id ∧ r.status = .failed ∧
        r.failureReason = r'.failureReason ∧ r.completedAt = r'.completedAt := by
    intro hrows
    refine hkept (g := id) ?_ fun _ => ⟨rfl, rfl, rfl, rfl⟩
    rwa [Table.update_id, ← hrows]
  -- what the handler writes to the row of the instance
  have hwritten : ∀ {g : WorkflowInstance → WorkflowInstance} {P : WorkflowInstance → Prop},
      r' ∈ Table.update (fun r => decide (r.id = tx.inst.id)) g
        (enterStep tx step step.id).db.instances → (∀ r, P (g r)) → P r' := by
    intro g P hmem hg
    obtain ⟨r₁, hr₁, rfl⟩ := Table.mem_update.mp hmem
    by_cases h : r₁.id = tx.inst.id
    · simpa [h] using hg r₁
    · simp [h] at hid
  cases h with
  | service job rows htype hrows hids => exact .inl (hsame (by simp))
  | user rows htype hrows hids =>
    have hstatus := hwritten (g := fun r => { r with status := .waiting })
      (P := fun r => r.status = .waiting) hr' fun _ => rfl
    rw [hfailed] at hstatus
    cases hstatus
  | wait rows htype hrows hids =>
    have hstatus := hwritten (g := fun r => { r with status := .waiting })
      (P := fun r => r.status = .waiting) hr' fun _ => rfl
    rw [hfailed] at hstatus
    cases hstatus
  | route g vars next htype hpass hnext =>
    exact .inl (hkept (g := fun r => { r with vars := g r.vars }) hr' fun _ => ⟨rfl, rfl, rfl, rfl⟩)
  | fork htype => exact .inl (hsame rfl)
  | transform g vars htype hpass =>
    exact .inl (hkept (g := fun r => { r with vars := g r.vars }) hr' fun _ => ⟨rfl, rfl, rfl, rfl⟩)
  | hold gateway htype hgateway hcount => exact .inl (hsame rfl)
  | join gateway htype hgateway hcount => exact .inl (hsame rfl)
  | finish chains htype ids hids hchains =>
    have hstatus := hwritten (g := fun r =>
      { r with status := .completed, completedAt := some now, currentStepIDs := ids })
      (P := fun r => r.status = .completed) hr' fun _ => rfl
    rw [hfailed] at hstatus
    cases hstatus
  | fail reason htype hfails hreason =>
    have hrow := hwritten (g := fun r =>
      { r with status := .failed, failureReason := some reason, completedAt := some now })
      (P := fun r => r.failureReason = some reason ∧ r.completedAt = some now) hr'
      fun _ => ⟨rfl, rfl⟩
    -- the execution the dispatch has just inserted is running, so it is failed
    refine .inr ⟨{ entryRow tx step with
      status := .failed, endedAt := some now, failureReason := some reason }, ?_,
      hid.symm, rfl, hrow.2.symm, reason, hreason, hrow.1, rfl⟩
    refine Table.mem_update.mpr ⟨entryRow tx step, ?_, ?_⟩
    · exact List.mem_append_right _ (List.mem_singleton_self _)
    · simp [Db.runningAt, entryRow]

/-- Closed executions stay as they are. -/
theorem Dispatched.mem_closed (h : Dispatched svc now d tx step tx' next) (hwf : TxWF svc d tx)
    {se : StepExecution} (hse : se ∈ tx.db.stepExecutions) (hclosed : se.status ≠ .running) :
    se ∈ tx'.db.stepExecutions := by
  obtain ⟨p, f, row, hv⟩ := h.step_view hwf.wf.step_lt
  rw [hv.rows]
  refine List.mem_append_left _ (Table.mem_update.mpr ⟨se, hse, ?_⟩)
  cases hp : p se with
  | false => rfl
  | true =>
    have hrun := (hv.touched se hse hp).1
    simp only [Db.runningAt, Bool.and_eq_true, decide_eq_true_eq] at hrun
    exact absurd hrun.2 hclosed

theorem Dispatched.explained (h : Dispatched svc now d tx step tx' next) (hwf : TxWF svc d tx)
    (hex : FailureExplained tx.db tx.inst.id) : FailureExplained tx'.db tx.inst.id := by
  intro r' hr' hid hfailed
  rcases h.failed_row hr' hid hfailed with ⟨r, hr, hrid, hstatus, hreason, hat⟩ | hnew
  · obtain ⟨se, hse, hexp⟩ := hex r hr (hrid.trans hid) hstatus
    refine ⟨se, h.mem_closed hwf hse ?_, hexp.of_row hrid hreason hat⟩
    rw [hexp.failed]
    simp
  · exact hnew

end Dispatches

/-! ## Runs -/

theorem explained_invariant (svc : Service) :
    TxInvariant svc (fun db => db.WF svc) (fun d tx _ => TxWF svc d tx)
      (fun db call => call.op.failsAfterwards svc call.now db = false ∧
        call.op.failsWithoutReason call.now db = false)
      (fun _ => True) (fun db => ∀ i, FailureExplained db i)
      (fun _ tx _ => (∀ i, i ≠ tx.inst.id → FailureExplained tx.db i) ∧
        FailureExplained tx.db tx.inst.id) := by
  refine TxInvariant.ofLocal (fun hu h => h.untouched hu) ?_ ?_ ?_
  · intro db op now p i fuel hwf hP hC hop hi
    have hopened := (wf_invariant svc).opening fuel trivial hwf trivial hop
    -- the dispatches start on an instance that has not failed
    have hagenda : ∀ {d tx steps}, p.agenda = some (d, tx, steps) → TxWF svc d tx →
        FailureExplained tx.db tx.inst.id := by
      intro d tx steps hp hwf' r hr hid hfailed
      rw [hwf'.row_status hr hid] at hfailed
      exact absurd hfailed (hop.not_failed hwf hC.1 hp)
    cases p with
    | commit db' reply => exact hop.commit_explained hwf hC.2 hP i
    | dispatch d tx steps => exact hagenda rfl hopened
    | chain d tx steps source => exact hagenda rfl hopened
  · intro now d tx step pending tx' next hwf h _ hfind hdisp
    obtain ⟨f, hv⟩ := hdisp.instance_view
    have hid : tx'.inst.id = tx.inst.id := congrArg InstanceKey.id hv.inst_key
    rw [hid]
    exact hdisp.explained hwf h
  · exact fun _ h => h

/-- In every run in which no worker reports a final failure with an empty
    message and no completed step fails its instance over its branches, every
    failed instance has a non-empty failure reason, and an execution of it has
    failed with it for that reason. -/
theorem failures_explained (svc : Service) (calls : List Call)
    (hguard : Run.Guarded (apply svc)
      (fun db call => call.op.failsAfterwards svc call.now db = false ∧
        call.op.failsWithoutReason call.now db = false) {} calls) :
    ∀ r ∈ (run svc calls).instances, r.status = .failed →
      ∃ se ∈ (run svc calls).stepExecutions, Explains se r := by
  intro r hr hfailed
  have hall : ∀ i, FailureExplained (run svc calls) i :=
    (((wf_invariant svc).and (explained_invariant svc)).run
      ⟨wf_empty svc, fun _ _ h => by simp at h⟩
      (hguard.mono fun _ _ h => ⟨h, fun _ _ => trivial⟩)).2
  exact hall r.id r hr rfl hfailed

/-- The worker gives up without a word. -/
def speechlessRun : List Call :=
  [(routedCharge "true").start, ⟨.failJob 2 "worker" "" false, 1, 16⟩]

theorem failures_explained_declined :
    ∃ r ∈ (run (.ofList [routedCharge "true"]) declinedRun).instances, r.status = .failed ∧
      ∃ se ∈ (run (.ofList [routedCharge "true"]) declinedRun).stepExecutions, Explains se r := by
  have hrow : (run (.ofList [routedCharge "true"]) declinedRun).instances.any
      fun r => decide (r.status = .failed) := by
    decide +kernel
  obtain ⟨r, hr, hfailed⟩ := List.any_eq_true.mp hrow
  exact ⟨r, hr, of_decide_eq_true hfailed,
    failures_explained _ declinedRun (by decide +kernel) r hr (of_decide_eq_true hfailed)⟩

/-- The instance fails with an empty reason, and its execution with it. -/
theorem speechless_failure :
    ¬ ∀ svc : Service, svc.Uploaded Accepted → ∀ calls, ∀ r ∈ (run svc calls).instances,
      r.status = .failed → ∃ se ∈ (run svc calls).stepExecutions, Explains se r := by
  intro h
  have hup : (Service.ofList [routedCharge "true"]).Uploaded Accepted :=
    Service.uploaded_ofList (by decide +kernel)
  have hrow : (run (.ofList [routedCharge "true"]) speechlessRun).instances.any
      fun r => decide (r.status = .failed) && decide (r.failureReason = some "") := by
    decide +kernel
  obtain ⟨r, hr, hrow⟩ := List.any_eq_true.mp hrow
  simp only [Bool.and_eq_true, decide_eq_true_eq] at hrow
  obtain ⟨se, -, hexp⟩ := h _ hup speechlessRun r hr hrow.1
  obtain ⟨reason, hne, hreason, -⟩ := hexp.reason
  rw [hrow.2] at hreason
  exact hne (Option.some.inj hreason).symm

end Rochallor
