import Rochallor.Safety.Delivery
import Rochallor.Safety.Isolation
import Rochallor.Definition.Validator

/-! # Completed instances

    `END` completes the instance for whichever token arrives first, and drops
    its own step only.  If that token is the last one, nothing of a completed
    instance is left behind: no current step, no running step execution, no
    open task and no job to hand out.
-/

namespace Rochallor

/-- Nothing of the instance is left to do. -/
structure Quiet (db : Db) (inst : WorkflowInstance) : Prop where
  current : inst.currentStepIDs = []
  steps : ∀ se ∈ db.stepExecutions, se.instanceID = inst.id → se.status ≠ .running
  jobs : ∀ job ∈ db.jobs, job.instanceID = inst.id → job.status.live = false

/-- Nothing of the instance with this id is left to do once it is completed. -/
def QuietWhenCompleted (db : Db) (i : Nat) : Prop :=
  ∀ r ∈ db.instances, r.id = i → r.status = .completed → Quiet db r

theorem QuietWhenCompleted.untouched {i : Nat} {db db' : Db} (hu : Untouched i db db')
    (h : QuietWhenCompleted db i) : QuietWhenCompleted db' i := by
  intro r hr hid hdone
  have hq := h r ((hu.mem_instance hid).mp hr) hid hdone
  refine ⟨hq.current, ?_, ?_⟩
  · intro se hse hi
    exact hq.steps se ((hu.mem_step (hi.trans hid)).mp hse) hi
  · intro job hjob hi
    by_contra hlive
    obtain ⟨old, hold, hoid, holive⟩ := hu.live_job hjob (hi.trans hid) (by simpa using hlive)
    have := hq.jobs old hold (hoid.trans hid.symm)
    simp [holive] at this

/-- The dispatch is of an `END` step although another token of the instance is
    alive: a dispatch is pending, another step is current, a step execution is
    running or a job can be handed out. -/
def Dispatch.leavesWork (x : Dispatch) : Bool :=
  ((findStep x.definition x.stepID).any fun step => decide (step.type = .endStep)) &&
    (!x.pending.isEmpty || x.tx.inst.currentStepIDs.any (· != x.stepID) ||
      (x.tx.db.stepExecutions.any fun se =>
        decide (se.instanceID = x.tx.inst.id) && decide (se.status = .running)) ||
      x.tx.db.jobs.any fun job => decide (job.instanceID = x.tx.inst.id) && job.status.live)

/-- What `END` needs to find for its instance to be quiet. -/
structure LastToken (tx : Tx) (stepID : StepId) (pending : List StepId) : Prop where
  pending : pending = []
  current : ∀ id ∈ tx.inst.currentStepIDs, id = stepID
  steps : ∀ se ∈ tx.db.stepExecutions, se.instanceID = tx.inst.id → se.status ≠ .running
  jobs : ∀ job ∈ tx.db.jobs, job.instanceID = tx.inst.id → job.status.live = false

theorem LastToken.of_leavesWork {now : Time} {d : WorkflowDefinition} {tx : Tx}
    {step : WorkflowStep} {pending : List StepId} (hfind : findStep d step.id = some step)
    (htype : step.type = .endStep)
    (h : Dispatch.leavesWork ⟨now, d, tx, step.id, pending⟩ = false) :
    LastToken tx step.id pending := by
  simp only [Dispatch.leavesWork, hfind, Option.any_some, htype, decide_true, Bool.true_and,
    Bool.or_eq_false_iff, Bool.not_eq_false', List.isEmpty_iff, List.any_eq_false,
    Bool.and_eq_true, decide_eq_true_eq, not_and, bne_iff_ne, ne_eq, Decidable.not_not,
    Bool.not_eq_true] at h
  exact ⟨h.1.1.1, h.1.1.2, h.1.2, h.2⟩

theorem withoutStep_withStep {ids : List StepId} {stepID : StepId} (h : ∀ id ∈ ids, id = stepID) :
    withoutStep (withStep ids stepID) stepID = [] := by
  refine List.filter_eq_nil_iff.mpr fun id hid => ?_
  have : id = stepID := by
    unfold withStep at hid
    split at hid
    · exact h id hid
    · rcases List.mem_append.mp hid with hid | hid
      · exact h id hid
      · exact List.mem_singleton.mp hid
  simp [this]

/-- Completing the last token leaves the instance quiet. -/
theorem Dispatched.quiet {svc : Service} {now : Time} {d : WorkflowDefinition} {tx tx' : Tx}
    {step : WorkflowStep} {next pending : List StepId}
    (h : Dispatched svc now d tx step tx' next) (hwf : TxWF svc d tx)
    (hfind : findStep d step.id = some step) (htype : step.type = .endStep)
    (hlast : LastToken tx step.id pending) :
    next = [] ∧ ∀ r ∈ tx'.db.instances, r.id = tx.inst.id → Quiet tx'.db r := by
  obtain ⟨row, hrows, hkey, -, hstatus⟩ := h.rows hwf hfind
  have hsteps : ∀ se ∈ tx'.db.stepExecutions, se.instanceID = tx.inst.id →
      se.status ≠ .running := by
    intro se hse hi
    rw [hrows] at hse
    rcases List.mem_append.mp hse with hse | hse
    · exact hlast.steps se hse hi
    · obtain rfl := List.mem_singleton.mp hse
      rw [hstatus, htype]
      exact closedStatus_ne_running
  have hjobs : tx'.db.jobs = tx.db.jobs := by
    rcases h.job_view with ⟨-, hj⟩ | ⟨hservice, -⟩
    · exact hj
    · simp [htype] at hservice
  cases h with
  | finish chains htype ids hids =>
    refine ⟨rfl, ?_⟩
    intro r hr hid
    obtain ⟨r₀, -, rfl⟩ := Table.mem_update.mp hr
    have hid₀ : decide (r₀.id = tx.inst.id) = true := by
      split at hid <;> simpa using hid
    rw [if_pos hid₀] at hid ⊢
    refine ⟨?_, fun se hse hi => hsteps se hse (hi.trans hid),
      fun job hjob hi => hlast.jobs job (hjobs ▸ hjob) (hi.trans hid)⟩
    rw [hids]
    simp only [enterStep_inst_currentStepIDs]
    exact withoutStep_withStep hlast.current
  | service job rows htype' hrows hids => simp [htype] at htype'
  | user rows htype' hrows hids => simp [htype] at htype'
  | wait rows htype' hrows hids => simp [htype] at htype'
  | route g vars next htype' hpass hnext => simp [htype] at htype'
  | fork htype' => simp [htype] at htype'
  | transform g vars htype' hpass => simp [htype] at htype'
  | hold gateway htype' hgateway hcount => simp [htype] at htype'
  | join gateway htype' hgateway hcount => simp [htype] at htype'
  | fail reason htype' hfails => simp [htype] at htype'

/-- Only `END` completes an instance. -/
theorem writtenStatus_completed {svc : Service} {now : Time} {vars : Json} {step : WorkflowStep}
    (h : writtenStatus svc now vars step = some .completed) : step.type = .endStep := by
  unfold writtenStatus at h
  split at h
  · cases h
  · cases h
  · assumption
  · split at h <;> cases h

/-- A completed instance is quiet in every run in which `END` only comes last. -/
theorem quiet_invariant (svc : Service) :
    TxInvariant svc (fun db => db.WF svc) (fun d tx _ => TxWF svc d tx) (fun _ _ => True)
      (fun x => x.leavesWork = false) (fun db => ∀ i, QuietWhenCompleted db i)
      (fun _ tx pending => (∀ i, i ≠ tx.inst.id → QuietWhenCompleted tx.db i) ∧
        (tx.inst.status = .completed → pending = [] ∧ QuietWhenCompleted tx.db tx.inst.id)) := by
  refine TxInvariant.ofLocal (fun hu h => h.untouched hu) ?_ ?_ ?_
  · intro db op now p i fuel hwf hP _ hop hi
    -- an operation that dispatches finds the instance in flight or fails it
    have hagenda : ∀ d tx steps, p.agenda = some (d, tx, steps) → tx.inst.status ≠ .completed := by
      intro d tx steps hp hdone
      rcases hop.agenda_status hwf hp with hfail | ⟨hflight, -⟩
      · simp [hdone] at hfail
      · simp [hdone, InstanceStatus.inFlight] at hflight
    cases p with
    | dispatch d tx steps => exact fun hdone => absurd hdone (hagenda d tx steps rfl)
    | chain d tx steps source => exact fun hdone => absurd hdone (hagenda d tx steps rfl)
    | commit db' reply =>
      intro r hr hid hdone
      cases hop.committed hwf hi with
      | untouched h => exact (hP i).untouched h r hr hid hdone
      | replaced hflight hi' hs =>
        have := hflight r (hi' ▸ hr) hid
        simp [hdone, InstanceStatus.inFlight] at this
      | stopped hflight inst d hd step hmem htype hnext =>
        have := hflight r hr hid
        simp [hdone, InstanceStatus.inFlight] at this
      | ended h => rcases h r hr hid with h | h <;> simp [hdone] at h
  · intro now d tx step pending tx' next hwf hQ hG hfind hdisp hdone
    obtain ⟨f, hv⟩ := hdisp.instance_view
    have hid : tx'.inst.id = tx.inst.id := congrArg InstanceKey.id hv.inst_key
    have hend : step.type = .endStep := by
      cases hw : writtenStatus svc now tx.inst.vars step with
      | none =>
        -- the instance was completed before, with this dispatch pending
        rw [hv.inst_status, hw] at hdone
        exact absurd (hQ hdone).1 (by simp)
      | some status =>
        rw [hv.inst_status, hw, Option.getD_some] at hdone
        exact writtenStatus_completed (hdone ▸ hw)
    have hlast := LastToken.of_leavesWork hfind hend hG
    obtain ⟨rfl, hquiet⟩ := hdisp.quiet hwf hfind hend hlast
    refine ⟨by simp [hlast.pending], ?_⟩
    intro r hr hrid _
    exact hquiet r hr (hrid.trans hid)
  · intro d tx hwf hQ r hr hid hdone
    have := hwf.row_status hr hid
    exact (hQ (this ▸ hdone)).2 r hr hid hdone

/-- In every run in which `END` is dispatched only when no other token of the
    instance is alive, a completed instance has no current step, no running
    step execution, no open task and no live job. -/
theorem completed_instances_quiet (svc : Service) (calls : List Call)
    (hguard : Run.Guarded (apply svc)
      (fun db call => ∀ x ∈ dispatches svc db call, x.leavesWork = false) {} calls) :
    ∀ r ∈ (run svc calls).instances, r.status = .completed →
      r.currentStepIDs = [] ∧
      (∀ se ∈ (run svc calls).stepExecutions, se.instanceID = r.id → se.status ≠ .running) ∧
      (∀ u ∈ (run svc calls).userTasks, u.instanceID = r.id → u.status ≠ .opened) ∧
      (∀ job ∈ (run svc calls).jobs, job.instanceID = r.id → job.status.live = false) := by
  intro r hr hdone
  have hwf := wf_run svc calls
  have hdelivery := delivery_run svc calls
  have hquiet : QuietWhenCompleted (run svc calls) r.id :=
    (((wf_invariant svc).and (quiet_invariant svc)).run ⟨wf_empty svc, fun _ _ h => by simp at h⟩
      (hguard.mono fun _ _ h => ⟨trivial, h⟩)).2 r.id
  have hq := hquiet r hr rfl hdone
  refine ⟨hq.current, hq.steps, ?_, hq.jobs⟩
  intro u hu hi hopened
  obtain ⟨se, hse, hid, hrun⟩ := hdelivery.opened u hu hopened
  have hkey := hwf.task_step_of_id hu hse hid
  have hsi : se.instanceID = u.instanceID := congrArg StepKey.instanceID hkey
  exact hq.steps se hse (hsi.trans hi) hrun

/-- A gateway with a branch to a user task and a branch straight to `END`. -/
def reviewBesideEnd : WorkflowDefinition where
  id := "review-beside-end"
  version := 1
  name := "review beside end"
  steps := [
    { id := "fork", name := "fork", type := .parallelGateway,
      parallelNextSteps := ["review", "end"], joinStep := "join" },
    { id := "review", name := "review", type := .userTask, nextStep := "join" },
    { id := "join", name := "join", type := .joinGateway, nextStep := "end" },
    { id := "end", name := "end", type := .endStep }]

/-- The branch that reaches `END` completes the instance over a running user
    task. -/
theorem completed_with_open_review :
    ¬ ∀ svc : Service, svc.Uploaded Accepted → ∀ calls,
      ∀ r ∈ (run svc calls).instances, r.status = .completed →
      r.currentStepIDs = [] ∧
      (∀ se ∈ (run svc calls).stepExecutions, se.instanceID = r.id → se.status ≠ .running) ∧
      (∀ u ∈ (run svc calls).userTasks, u.instanceID = r.id → u.status ≠ .opened) ∧
      (∀ job ∈ (run svc calls).jobs, job.instanceID = r.id → job.status.live = false) := by
  intro h
  have hup : (Service.ofList [reviewBesideEnd]).Uploaded Accepted :=
    Service.uploaded_ofList (by decide +kernel)
  let db := run (Service.ofList [reviewBesideEnd]) [reviewBesideEnd.start]
  have hall : ∀ r ∈ db.instances, r.status = .completed → r.currentStepIDs = [] :=
    fun r hr hdone => (h _ hup [reviewBesideEnd.start] r hr hdone).1
  have hrow : db.instances.any fun r =>
      decide (r.status = .completed) && decide (r.currentStepIDs = ["review"]) := by
    decide +kernel
  obtain ⟨r, hr, hrow⟩ := List.any_eq_true.mp hrow
  simp only [Bool.and_eq_true, decide_eq_true_eq] at hrow
  rw [hall r hr hrow.1] at hrow
  simp at hrow

/-- Two reviews in parallel, then `END`. -/
def reviewTwice : WorkflowDefinition where
  id := "review-twice"
  version := 1
  name := "review twice"
  steps := [
    { id := "fork", name := "fork", type := .parallelGateway,
      parallelNextSteps := ["legal", "risk"], joinStep := "join" },
    { id := "legal", name := "legal", type := .userTask, nextStep := "join" },
    { id := "risk", name := "risk", type := .userTask, nextStep := "join" },
    { id := "join", name := "join", type := .joinGateway, nextStep := "end" },
    { id := "end", name := "end", type := .endStep }]

/-- Both reviews of an instance are completed. -/
def reviewTwiceRun : List Call :=
  [reviewTwice.start, ⟨.completeUserTask 0 "legal" [], 1, 16⟩,
    ⟨.completeUserTask 0 "risk" [], 2, 16⟩]

theorem completed_instances_quiet_reviewTwice :
    ∃ r ∈ (run (Service.ofList [reviewTwice]) reviewTwiceRun).instances,
      r.status = .completed ∧ r.currentStepIDs = [] ∧
      ∀ u ∈ (run (Service.ofList [reviewTwice]) reviewTwiceRun).userTasks,
        u.instanceID = r.id → u.status ≠ .opened := by
  have hrow : (run (Service.ofList [reviewTwice]) reviewTwiceRun).instances.any fun r =>
      decide (r.status = .completed) := by
    decide +kernel
  obtain ⟨r, hr, hdone⟩ := List.any_eq_true.mp hrow
  obtain ⟨hcurrent, -, htasks, -⟩ :=
    completed_instances_quiet (Service.ofList [reviewTwice]) reviewTwiceRun (by decide +kernel)
      r hr (of_decide_eq_true hdone)
  exact ⟨r, hr, of_decide_eq_true hdone, hcurrent, htasks⟩

end Rochallor
