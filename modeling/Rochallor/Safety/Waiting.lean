import Rochallor.Safety.CurrentSteps

/-! # Waiting and active

    The status of an instance in flight says whether one of its current steps
    waits for a user or a signal.  Completing a step recomputes it, and
    dispatching such a step sets it.  An interrupting timer that strikes the
    last waiting step off, and a manual retry beside a waiting step, leave the
    status to the step they dispatch; if that step writes no status, the
    status is wrong from then on.
-/

namespace Rochallor

/-! ## Steps that wait -/

/-- The step is a `USER_TASK` or a `WAIT`. -/
def WorkflowDefinition.parksAt (d : WorkflowDefinition) (stepID : StepId) : Bool :=
  match findStep d stepID with
  | none => false
  | some st => st.type == .userTask || st.type == .wait

/-- A dispatch of the step always writes a status. -/
def WorkflowDefinition.settles (d : WorkflowDefinition) (stepID : StepId) : Bool :=
  d.parksAt stepID || (findStep d stepID).any (·.type == .endStep)

/-- The operation takes the status over from before, and neither the current
    steps nor the step it dispatches bear it out. -/
def Op.misjudges (svc : Service) (now : Time) (db : Db) : Op → Bool
  | .fireBoundaryEvent eventID instanceID =>
    (db.boundaryEvents.find? (Db.dueEvent now eventID instanceID)).any fun event =>
      (db.getInstance instanceID).any fun inst =>
        (db.getStepExecution event.stepExecutionID).any fun se =>
          (svc.defRepo.getVersion inst.definitionID inst.definitionVersion).toOption.any fun d =>
            event.interrupting && inst.status.inFlight && decide (se.status = .running) &&
              d.parksAt se.stepID && !(withoutStep inst.currentStepIDs se.stepID).any d.parksAt &&
              !d.settles event.targetStepID
  | .retryFailedStep instanceID stepID _ =>
    (db.getInstance instanceID).any fun inst =>
      (svc.defRepo.getVersion inst.definitionID inst.definitionVersion).toOption.any fun d =>
        decide (inst.status = .failed) && inst.currentStepIDs.any d.parksAt &&
          !d.settles stepID
  | _ => false

section Steps

variable {d : WorkflowDefinition} {ids ids' : List StepId} {stepID : StepId} {step : WorkflowStep}

theorem recompute_eq : recomputeInstanceStatus d ids =
    if ids.any d.parksAt then .waiting else .active := rfl

theorem recompute_congr (h : ids'.any d.parksAt = ids.any d.parksAt) :
    recomputeInstanceStatus d ids' = recomputeInstanceStatus d ids := by
  rw [recompute_eq, recompute_eq, h]

theorem parks_withStep :
    (withStep ids stepID).any d.parksAt = (ids.any d.parksAt || d.parksAt stepID) := by
  rw [Bool.eq_iff_iff]
  simp only [List.any_eq_true, Bool.or_eq_true, mem_withStep]
  constructor
  · rintro ⟨id, hid | rfl, hp⟩
    · exact .inl ⟨id, hid, hp⟩
    · exact .inr hp
  · rintro (⟨id, hid, hp⟩ | hp)
    · exact ⟨id, .inl hid, hp⟩
    · exact ⟨stepID, .inr rfl, hp⟩

theorem parks_withoutStep (h : d.parksAt stepID = false) :
    (withoutStep ids stepID).any d.parksAt = ids.any d.parksAt := by
  rw [Bool.eq_iff_iff]
  simp only [List.any_eq_true, mem_withoutStep]
  constructor
  · rintro ⟨id, ⟨hid, -⟩, hp⟩
    exact ⟨id, hid, hp⟩
  · rintro ⟨id, hid, hp⟩
    refine ⟨id, ⟨hid, ?_⟩, hp⟩
    rintro rfl
    rw [h] at hp
    cases hp

theorem parksAt_of_find (hfind : findStep d stepID = some step) :
    d.parksAt stepID = (step.type == .userTask || step.type == .wait) := by
  simp [WorkflowDefinition.parksAt, hfind]

/-- A step that is not parked outside does not wait. -/
theorem parksAt_of_internal (hfind : findStep d stepID = some step)
    (hext : step.type.external = false) : d.parksAt stepID = false := by
  rw [parksAt_of_find hfind]
  cases htype : step.type <;> simp_all [StepType.external]

end Steps

/-! ## The status is that of the current steps -/

/-- The status of the instance, while it is in flight, is that of its steps. -/
def Judged (svc : Service) (db : Db) (i : Nat) : Prop :=
  ∀ r ∈ db.instances, r.id = i → r.status.inFlight = true → ∀ d, Runs svc r d →
    r.status = recomputeInstanceStatus d r.currentStepIDs

/-- In a transaction the status may still be owed by the one dispatch that is
    pending. -/
structure JudgedTx (d : WorkflowDefinition) (tx : Tx) (pending : List StepId) : Prop where
  status : tx.inst.status.inFlight = true →
    tx.inst.status = recomputeInstanceStatus d tx.inst.currentStepIDs ∨
      ∃ stepID, pending = [stepID] ∧ d.settles stepID = true
  rows : pending ≠ [] ∨ ∃ ids, RowSteps tx ids ∧
    recomputeInstanceStatus d ids = recomputeInstanceStatus d tx.inst.currentStepIDs

section Judged

variable {svc : Service} {now : Time} {db : Db} {d : WorkflowDefinition} {op : Op}

theorem Judged.untouched {i : Nat} {db' : Db} (hu : Untouched i db db') (h : Judged svc db i) :
    Judged svc db' i :=
  fun r hr hid => h r ((hu.mem_instance hid).mp hr) hid

theorem JudgedTx.closing {tx : Tx} (h : JudgedTx d tx []) (hwf : TxWF svc d tx) :
    Judged svc tx.db tx.inst.id := by
  intro r hr hid hflight d' hd'
  obtain rfl := hwf.row_runs hr hid hd'
  rw [hwf.row_status hr hid] at hflight ⊢
  rcases h.rows with hne | ⟨ids, hids, heq⟩
  · exact absurd rfl hne
  · rw [hids r hr hid, heq]
    rcases h.status hflight with hstatus | ⟨stepID, hpending, -⟩
    · exact hstatus
    · cases hpending

/-- An interrupting timer leaves the status right, or owed by its target. -/
private theorem judged_struck {row : WorkflowInstance} {stepID target : StepId}
    (hstatus : row.status = recomputeInstanceStatus d row.currentStepIDs)
    (hok : (d.parksAt stepID && !(withoutStep row.currentStepIDs stepID).any d.parksAt &&
      !d.settles target) = false) :
    row.status = recomputeInstanceStatus d (withoutStep row.currentStepIDs stepID) ∨
      d.settles target = true := by
  by_cases hsettles : d.settles target = true
  · exact .inr hsettles
  refine .inl ?_
  cases hparks : d.parksAt stepID with
  | false => rw [hstatus, recompute_congr (parks_withoutStep hparks)]
  | true =>
    -- the struck step waited, so another one has to
    have hrest : (withoutStep row.currentStepIDs stepID).any d.parksAt = true := by
      simpa [hparks, hsettles] using hok
    have hall : row.currentStepIDs.any d.parksAt = true := by
      obtain ⟨id, hid, hp⟩ := List.any_eq_true.mp hrest
      exact List.any_eq_true.mpr ⟨id, (mem_withoutStep.mp hid).1, hp⟩
    rw [hstatus, recompute_congr (hrest.trans hall.symm)]

theorem ListOpened.judged {tx : Tx} {steps : List StepId}
    (hl : ListOpened svc now db op d tx steps) (h : Judged svc db tx.inst.id)
    (hok : op.misjudges svc now db = false) : JudgedTx d tx steps := by
  cases hl with
  | fresh first hmem hrows hstatus hnone =>
    refine ⟨fun _ => ?_, .inl (by simp)⟩
    cases hparks : d.parksAt first with
    | true => exact .inr ⟨first, rfl, by simp [WorkflowDefinition.settles, hparks]⟩
    | false => exact .inl (by simp [hstatus, hmem, recompute_eq, hparks])
  | advanced steps row step hrow hid hmem hrows hstatus hclear =>
    refine ⟨fun hflight => .inl ?_, .inr ⟨_, hrows, rfl⟩⟩
    rcases hstatus with hstatus | hstatus
    · exact hstatus
    · rw [hstatus] at hflight
      cases hflight
  | interrupted target row se event eventID hop hevent hinterrupting hse htarget hrow hid hruns
      halive hmem hrows hstatus hclear =>
    refine ⟨fun _ => ?_, .inl (by simp)⟩
    have hrowstatus := h row (getInstance_mem hrow) hid halive.1 d hruns
    have hd : (svc.defRepo.getVersion row.definitionID row.definitionVersion).toOption = some d := by
      rw [hruns]
      rfl
    have hcond : (d.parksAt se.stepID &&
        !(withoutStep row.currentStepIDs se.stepID).any d.parksAt && !d.settles target) = false := by
      subst hop htarget
      simpa [Op.misjudges, hevent, hrow, hse, hd, hinterrupting, halive.1, halive.2] using hok
    rw [hstatus, hmem]
    rcases judged_struck hrowstatus hcond with hright | howed
    · exact .inl hright
    · exact .inr ⟨target, rfl, howed⟩
  | forked target row hrow hid hruns hmem hrows hstatus hflight =>
    refine ⟨fun _ => .inl ?_, .inl (by simp)⟩
    rw [hstatus, hmem]
    exact h row hrow hid hflight d hruns
  | retried stepID patch row step hop hrow hid hruns hstep hmem hrows hstatus hfailed =>
    refine ⟨fun _ => ?_, .inl (by simp)⟩
    have hd : (svc.defRepo.getVersion row.definitionID row.definitionVersion).toOption = some d := by
      rw [hruns]
      rfl
    have hcond : (row.currentStepIDs.any d.parksAt && !d.settles stepID) = false := by
      subst hop
      simpa [Op.misjudges, hrow, hd, hfailed] using hok
    by_cases hsettles : d.settles stepID = true
    · exact .inr ⟨stepID, rfl, hsettles⟩
    · refine .inl ?_
      have hnone : row.currentStepIDs.any d.parksAt = false := by simpa [hsettles] using hcond
      rw [hstatus, hmem, recompute_eq, hnone]
      rfl

/-- A dispatch settles the status it is owed, and changes it only along with
    the list. -/
theorem Dispatched.judged {tx tx' : Tx} {step : WorkflowStep} {pending next : List StepId}
    (hdisp : Dispatched svc now d tx step tx' next) (hfind : findStep d step.id = some step)
    (h : JudgedTx d tx (step.id :: pending)) : JudgedTx d tx' (next ++ pending) := by
  obtain ⟨f, hv⟩ := hdisp.instance_view
  -- the list in the row and the one in memory differ at most by the step passed
  have hrows : ∃ ids, RowSteps tx' ids ∧
      recomputeInstanceStatus d ids = recomputeInstanceStatus d tx'.inst.currentStepIDs := by
    cases hdisp.list_view with
    | listed hmem hrows => exact ⟨_, hrows, by rw [hmem]⟩
    | passed hext hmem written hrows hwritten =>
      refine ⟨_, hrows, ?_⟩
      rw [hmem]
      rcases hwritten with rfl | rfl
      · exact (recompute_congr (parks_withoutStep (parksAt_of_internal hfind hext))).symm
      · rfl
  refine ⟨?_, .inr hrows⟩
  intro hflight
  refine .inl ?_
  by_cases hparks : d.parksAt step.id = true
  · -- the step waits: it is listed and the status says so
    have htype := parksAt_of_find hfind ▸ hparks
    have hwritten : writtenStatus svc now tx.inst.vars step = some .waiting := by
      rcases (by simpa using htype : step.type = .userTask ∨ step.type = .wait) with ht | ht <;>
        simp [writtenStatus, ht]
    rw [hv.inst_status, hwritten, Option.getD_some]
    cases hdisp.list_view with
    | listed hmem hrows => simp [hmem, recompute_eq, parks_withStep, hparks]
    | passed hext hmem written hrows hwritten' =>
      rw [parksAt_of_internal hfind hext] at hparks
      cases hparks
  · have hparks : d.parksAt step.id = false := by simpa using hparks
    have hwith : recomputeInstanceStatus d (withStep tx.inst.currentStepIDs step.id) =
        recomputeInstanceStatus d tx.inst.currentStepIDs :=
      recompute_congr (by simp [parks_withStep, hparks])
    have hlist : recomputeInstanceStatus d tx'.inst.currentStepIDs =
        recomputeInstanceStatus d tx.inst.currentStepIDs := by
      cases hdisp.list_view with
      | listed hmem hrows => rw [hmem, hwith]
      | passed hext hmem written hrows hwritten' =>
        rw [hmem, recompute_congr (parks_withoutStep hparks), hwith]
    rw [hlist]
    rw [hv.inst_status] at hflight ⊢
    cases hw : writtenStatus svc now tx.inst.vars step with
    | none =>
      rw [hw, Option.getD_none] at hflight
      rw [Option.getD_none]
      rcases h.status hflight with hstatus | ⟨stepID, hpending, hsettles⟩
      · exact hstatus
      · -- an `END` that is owed the status writes it
        obtain ⟨rfl, -⟩ := List.cons.inj hpending
        have hend : step.type = .endStep := by
          simpa [WorkflowDefinition.settles, hparks, hfind] using hsettles
        simp [writtenStatus, hend] at hw
    | some s =>
      -- every other status written ends the instance
      rw [hw, Option.getD_some] at hflight
      rw [parksAt_of_find hfind] at hparks
      have hends : s = .completed ∨ s = .failed := by
        unfold writtenStatus at hw
        split at hw
        · simp_all
        · simp_all
        · exact .inl (Option.some.inj hw).symm
        · split at hw
          · exact .inr (Option.some.inj hw).symm
          · cases hw
      rcases hends with rfl | rfl <;> cases hflight

theorem judged_invariant (svc : Service) :
    TxInvariant svc (fun db => db.WF svc) (fun d tx _ => TxWF svc d tx)
      (fun db call => call.op.misjudges svc call.now db = false) (fun _ => True)
      (fun db => ∀ i, Judged svc db i)
      (fun d tx pending => (∀ i, i ≠ tx.inst.id → Judged svc tx.db i) ∧ JudgedTx d tx pending) := by
  refine TxInvariant.ofLocal (fun hu h => h.untouched hu) ?_ ?_ ?_
  · intro db op now p i fuel hwf hP hC hop hi
    cases p with
    | commit db' reply =>
      intro r' hr' hid hflight d hd
      obtain ⟨r, hr, hkey, hids, hstatus⟩ := hop.list_kept hr'
      have hid' : r.id = r'.id := congrArg InstanceKey.id hkey
      have hrd : Runs svc r d := hd.of_key hkey
      rcases hstatus with hstatus | hstatus
      · rw [hids, hstatus]
        exact hP i r hr (hid'.trans hid) (hstatus ▸ hflight) d hrd
      · rw [hstatus] at hflight
        cases hflight
    | dispatch d tx steps => exact (hop.list_opened hwf rfl).judged (hP _) hC
    | chain d tx steps source => exact (hop.list_opened hwf rfl).judged (hP _) hC
  · intro now d tx step pending tx' next hwf h _ hfind hdisp
    exact hdisp.judged hfind h
  · intro d tx hwf h
    exact h.closing hwf

end Judged

/-- In every run in which no operation takes over a status that nothing bears
    out, the status of every instance in flight is that of its current
    steps. -/
theorem status_of_current_steps (svc : Service) (calls : List Call)
    (hguard : Run.Guarded (apply svc)
      (fun db call => call.op.misjudges svc call.now db = false) {} calls) :
    ∀ r ∈ (run svc calls).instances, r.status.inFlight = true → ∀ d, Runs svc r d →
      r.status = recomputeInstanceStatus d r.currentStepIDs := by
  intro r hr
  have hjudged : ∀ i, Judged svc (run svc calls) i :=
    (((wf_invariant svc).and (judged_invariant svc)).run
      ⟨wf_empty svc, fun _ _ h => by simp at h⟩
      (hguard.mono fun _ _ h => ⟨h, fun _ _ => trivial⟩)).2
  exact hjudged r.id r hr rfl

/-- A review that goes over to `fallback` if it is not done in time. -/
def timedReview (fallback : WorkflowStep) : WorkflowDefinition where
  id := "timed-review"
  version := 1
  name := "timed review"
  steps := [
    { id := "review", name := "review", type := .userTask, nextStep := "end",
      boundaryEvents := [⟨.timer, "PT1S", true, fallback.id⟩] },
    fallback,
    { id := "end", name := "end", type := .endStep }]

def escalate : WorkflowStep where
  id := "escalate"
  name := "escalate"
  type := .serviceTask
  jobType := "escalate"
  nextStep := "end"

def panel : WorkflowStep where
  id := "panel"
  name := "panel"
  type := .userTask
  nextStep := "end"

/-- The review is not done in time. -/
def timedReviewRun (fallback : WorkflowStep) : List Call :=
  [(timedReview fallback).start, ⟨.fireBoundaryEvent 3 0, 2000000000, 16⟩]

theorem status_of_current_steps_panel :
    ∃ r ∈ (run (.ofList [timedReview panel]) (timedReviewRun panel)).instances,
      r.currentStepIDs = ["panel"] ∧
      r.status = recomputeInstanceStatus (timedReview panel) r.currentStepIDs := by
  have hrow : (run (.ofList [timedReview panel]) (timedReviewRun panel)).instances.any
      fun r => r.status.inFlight && decide (r.currentStepIDs = ["panel"]) &&
        decide (r.definitionID = (timedReview panel).id) && decide (r.definitionVersion = 1) := by
    decide +kernel
  obtain ⟨r, hr, hrow⟩ := List.any_eq_true.mp hrow
  simp only [Bool.and_eq_true, decide_eq_true_eq] at hrow
  obtain ⟨⟨⟨hflight, hids⟩, hdef⟩, hversion⟩ := hrow
  refine ⟨r, hr, hids, status_of_current_steps _ (timedReviewRun panel) (by decide +kernel) r hr
    hflight _ ?_⟩
  unfold Runs
  rw [hdef, hversion]
  rfl

/-- The timer puts the review aside for a job, and the instance goes on
    waiting. -/
theorem waiting_for_nobody :
    ¬ ∀ svc : Service, svc.Uploaded Accepted → ∀ calls, ∀ r ∈ (run svc calls).instances,
      r.status.inFlight = true → ∀ d, Runs svc r d →
      r.status = recomputeInstanceStatus d r.currentStepIDs := by
  intro h
  have hup : (Service.ofList [timedReview escalate]).Uploaded Accepted :=
    Service.uploaded_ofList (by decide +kernel)
  have hrow : (run (.ofList [timedReview escalate]) (timedReviewRun escalate)).instances.any
      fun r => decide (r.status = .waiting) && decide (r.currentStepIDs = ["escalate"]) &&
        decide (r.definitionID = (timedReview escalate).id) &&
        decide (r.definitionVersion = 1) := by
    decide +kernel
  obtain ⟨r, hr, hrow⟩ := List.any_eq_true.mp hrow
  simp only [Bool.and_eq_true, decide_eq_true_eq] at hrow
  obtain ⟨⟨⟨hwaiting, hids⟩, hdef⟩, hversion⟩ := hrow
  have hruns : Runs (.ofList [timedReview escalate]) r (timedReview escalate) := by
    unfold Runs
    rw [hdef, hversion]
    rfl
  have hstatus := h _ hup _ r hr (by rw [hwaiting]; rfl) _ hruns
  rw [hwaiting, hids] at hstatus
  revert hstatus
  decide

end Rochallor
