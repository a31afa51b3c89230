import Rochallor.Safety.Isolation
import Rochallor.Definition.Validator

/-! # No instance is stuck

    An instance in flight has a step execution some external callback can
    still move.  Tokens move from one dispatch to the next; the only place
    where one ends without parking and without ending the instance is a join
    that waits for more branches.  So an instance gets stuck only when such a
    join is dispatched while nothing else of the instance is alive.
-/

namespace Rochallor

/-- An external callback can move the instance. -/
def Movable (db : Db) (i : Nat) : Prop :=
  ∃ se ∈ db.stepExecutions, se.instanceID = i ∧ se.status = .running ∧ se.stepType.external = true

/-- The instance with this id is movable while it is in flight. -/
def MovableInFlight (db : Db) (i : Nat) : Prop :=
  ∀ r ∈ db.instances, r.id = i → r.status.inFlight = true → Movable db i

theorem Movable.of_steps {i : Nat} {db db' : Db} (h : Movable db i)
    (hs : ∀ se ∈ db.stepExecutions, se.instanceID = i → se ∈ db'.stepExecutions) :
    Movable db' i := by
  obtain ⟨se, hse, hi, rest⟩ := h
  exact ⟨se, hs se hse hi, hi, rest⟩

theorem MovableInFlight.untouched {i : Nat} {db db' : Db} (hu : Untouched i db db')
    (h : MovableInFlight db i) : MovableInFlight db' i := by
  intro r hr hid hflight
  exact (h r ((hu.mem_instance hid).mp hr) hid hflight).of_steps
    fun se hse hi => (hu.mem_step hi).mpr hse

/-- A definition in which no path ends before `END`: every service and user
    task has a next step. -/
def GoesOn (d : WorkflowDefinition) : Prop :=
  Accepted d ∧ ∀ step ∈ d.steps, step.type = .serviceTask ∨ step.type = .userTask →
    step.nextStep ≠ ""

instance (d : WorkflowDefinition) : Decidable (GoesOn d) :=
  inferInstanceAs (Decidable (Accepted d ∧ ∀ step ∈ d.steps,
    step.type = .serviceTask ∨ step.type = .userTask → step.nextStep ≠ ""))

/-- The dispatch is of a join that waits for more branches, at a moment when
    the instance is in flight and nothing else of it is alive: no dispatch is
    pending and no step execution is running. -/
def Dispatch.strands (x : Dispatch) : Bool :=
  x.tx.inst.status.inFlight && x.pending.isEmpty &&
    ((findStep x.definition x.stepID).any fun step => decide (step.type = .joinGateway)) &&
    ((findParallelGatewayFor x.definition x.stepID).any fun gateway =>
      decide (x.tx.db.countCompletedBranchLeafs x.tx.inst.id (branchLeafsFor gateway) <
        gateway.parallelNextSteps.length)) &&
    !x.tx.db.stepExecutions.any fun se =>
      decide (se.instanceID = x.tx.inst.id) && decide (se.status = .running)

theorem GoesOn.nextStep {d : WorkflowDefinition} (h : GoesOn d) {step : WorkflowStep}
    (hmem : step ∈ d.steps) (htype : step.type.external = true) : step.nextStep ≠ "" := by
  cases ht : step.type with
  | serviceTask => exact h.2 step hmem (.inl ht)
  | userTask => exact h.2 step hmem (.inr ht)
  | wait => exact h.1.wait_nextStep hmem ht
  | _ => simp [ht, StepType.external] at htype

/-! ## The invariant -/

/-- Entering a step completes nothing. -/
theorem countCompletedBranchLeafs_enterStep (tx : Tx) (step : WorkflowStep) (stepID : StepId)
    (instanceID : Nat) (leafs : List StepId) :
    (enterStep tx step stepID).db.countCompletedBranchLeafs instanceID leafs =
      tx.db.countCompletedBranchLeafs instanceID leafs := by
  simp [Db.countCompletedBranchLeafs]

/-- Something of the transaction's instance is alive, or it has ended. -/
def KeepsGoing (tx : Tx) (pending : List StepId) : Prop :=
  pending ≠ [] ∨ tx.inst.status.inFlight = false ∨ Movable tx.db tx.inst.id

theorem Dispatched.keepsGoing {svc : Service} {now : Time} {d : WorkflowDefinition} {tx tx' : Tx}
    {step : WorkflowStep} {next pending : List StepId}
    (h : Dispatched svc now d tx step tx' next) (hwf : TxWF svc d tx) (hd : Accepted d)
    (hfind : findStep d step.id = some step)
    (hG : Dispatch.strands ⟨now, d, tx, step.id, pending⟩ = false) :
    KeepsGoing tx' (next ++ pending) := by
  obtain ⟨row, hrows, hkey, -, hstatus⟩ := h.rows hwf hfind
  obtain ⟨f, hv⟩ := h.instance_view
  have hid : tx'.inst.id = tx.inst.id := congrArg InstanceKey.id hv.inst_key
  have hparked : step.type.external = true → Movable tx'.db tx'.inst.id := by
    intro hext
    refine ⟨row, by rw [hrows]; simp, ?_, ?_, ?_⟩
    · rw [hid]
      exact congrArg StepKey.instanceID hkey
    · rw [hstatus, if_pos hext]
    · rw [show row.stepType = step.type from congrArg StepKey.stepType hkey]
      exact hext
  cases h with
  | service job rows htype hrows hids => exact .inr (.inr (hparked (by simp [htype, StepType.external])))
  | user rows htype hrows hids => exact .inr (.inr (hparked (by simp [htype, StepType.external])))
  | wait rows htype hrows hids => exact .inr (.inr (hparked (by simp [htype, StepType.external])))
  | route g vars next htype hpass hnext => exact .inl (by simp)
  | fork htype =>
    have := hd.branches (findStep_mem hfind) htype
    exact .inl (by simp [this])
  | transform g vars htype hpass => exact .inl (by simp)
  | hold gateway htype hgateway hcount =>
    by_cases hpending : pending = []
    · subst hpending
      by_cases hflight : tx.inst.status.inFlight = true
      · -- the condition says that a step execution is running
        rw [countCompletedBranchLeafs_enterStep] at hcount
        simp only [Dispatch.strands, hflight, hfind, hgateway, htype, hcount, List.isEmpty_nil,
          Option.any_some, decide_true, Bool.and_self, Bool.true_and, Bool.not_eq_false',
          List.any_eq_true, Bool.and_eq_true, decide_eq_true_eq] at hG
        obtain ⟨se, hse, hi, hrun⟩ := hG
        refine .inr (.inr ⟨se, ?_, hi, hrun, hwf.wf.parked se hse hrun⟩)
        rw [hrows]
        exact List.mem_append_left _ hse
      · exact .inr (.inl (by simpa using hflight))
    · exact .inl (by simpa using hpending)
  | join gateway htype hgateway hcount => exact .inl (by simp)
  | finish chains htype ids hids => exact .inr (.inl rfl)
  | fail reason htype hfails => exact .inr (.inl rfl)

theorem movable_invariant (svc : Service) (hup : svc.Uploaded GoesOn) :
    TxInvariant svc (fun db => db.WF svc) (fun d tx _ => TxWF svc d tx) (fun _ _ => True)
      (fun x => x.strands = false) (fun db => ∀ i, MovableInFlight db i)
      (fun _ tx pending => (∀ i, i ≠ tx.inst.id → MovableInFlight tx.db i) ∧
        KeepsGoing tx pending) := by
  refine TxInvariant.ofLocal (fun hu h => h.untouched hu) ?_ ?_ ?_
  · intro db op now p i fuel hwf hP _ hop hi
    have hest := (wf_invariant svc).opening fuel trivial hwf trivial hop
    have hagenda : ∀ d tx steps, p.agenda = some (d, tx, steps) → TxWF svc d tx →
        KeepsGoing tx steps := by
      intro d tx steps hp htx
      rcases hop.agenda_status hwf hp with hfail | ⟨-, hstop⟩
      · exact .inr (.inl (by simp [hfail, InstanceStatus.inFlight]))
      · refine .inl fun hnil => ?_
        obtain ⟨step, hmem, htype, hnext⟩ := hstop hnil
        exact (hup _ _ _ htx.mirror.runs).nextStep hmem htype hnext
    cases p with
    | dispatch d tx steps => exact hagenda d tx steps rfl hest
    | chain d tx steps source => exact hagenda d tx steps rfl hest
    | commit db' reply =>
      intro r hr hid hflight
      cases hop.committed hwf hi with
      | untouched h => exact (hP i).untouched h r hr hid hflight
      | replaced hflight' hi' hs =>
        exact (hP i r (hi' ▸ hr) hid hflight).of_steps fun se hse _ => hs ▸ hse
      | stopped hflight' inst d hd step hmem htype hnext =>
        exact absurd hnext ((hup _ _ _ hd).2 step hmem (.inl htype))
      | ended h => rcases h r hr hid with h | h <;> simp [h, InstanceStatus.inFlight] at hflight
  · intro now d tx step pending tx' next hwf _ hG hfind hdisp
    exact hdisp.keepsGoing hwf (hup _ _ _ hwf.mirror.runs).1 hfind hG
  · intro d tx hwf hQ r hr hid hflight
    rcases hQ with hne | hended | hmov
    · exact absurd rfl hne
    · rw [hwf.row_status hr hid, hended] at hflight
      cases hflight
    · exact hmov

/-- In every run over definitions in which every service and user task has a
    next step, and in which no waiting join is dispatched as the last thing
    alive, every instance in flight has a running service task, user task or
    wait step. -/
theorem no_instance_stuck (svc : Service) (hup : svc.Uploaded GoesOn) (calls : List Call)
    (hguard : Run.Guarded (apply svc)
      (fun db call => ∀ x ∈ dispatches svc db call, x.strands = false) {} calls) :
    ∀ r ∈ (run svc calls).instances, r.status.inFlight = true →
      ∃ se ∈ (run svc calls).stepExecutions, se.instanceID = r.id ∧ se.status = .running ∧
        (se.stepType = .serviceTask ∨ se.stepType = .userTask ∨ se.stepType = .wait) := by
  intro r hr hflight
  have hmov : MovableInFlight (run svc calls) r.id :=
    (((wf_invariant svc).and (movable_invariant svc hup)).run
      ⟨wf_empty svc, fun _ _ h => by simp at h⟩ (hguard.mono fun _ _ h => ⟨trivial, h⟩)).2 r.id
  obtain ⟨se, hse, hi, hrun, hext⟩ := hmov r hr rfl hflight
  refine ⟨se, hse, hi, hrun, ?_⟩
  cases ht : se.stepType with
  | serviceTask => exact .inl rfl
  | userTask => exact .inr (.inl rfl)
  | wait => exact .inr (.inr rfl)
  | _ => simp [ht, StepType.external] at hext

/-- Two reviews in parallel, one of which a timer takes to the join. -/
def reviewWithDeadline : WorkflowDefinition where
  id := "review-with-deadline"
  version := 1
  name := "review with deadline"
  steps := [
    { id := "fork", name := "fork", type := .parallelGateway,
      parallelNextSteps := ["legal", "risk"], joinStep := "join" },
    { id := "legal", name := "legal", type := .userTask, nextStep := "join",
      boundaryEvents := [⟨.timer, "PT1S", true, "join"⟩] },
    { id := "risk", name := "risk", type := .userTask, nextStep := "join" },
    { id := "join", name := "join", type := .joinGateway, nextStep := "end" },
    { id := "end", name := "end", type := .endStep }]

/-- The timer fires, then the other review is completed. -/
def reviewWithDeadlineRun : List Call :=
  [reviewWithDeadline.start, ⟨.fireBoundaryEvent 4 0, 2000000000, 16⟩,
    ⟨.completeUserTask 0 "risk" [], 2000000001, 16⟩]

/-- Both branches have reached the join, which counts the interrupted review as
    missing and waits for ever. -/
theorem stuck_at_join :
    ¬ ∀ svc : Service, svc.Uploaded GoesOn → ∀ calls, ∀ r ∈ (run svc calls).instances,
      r.status.inFlight = true → ∃ se ∈ (run svc calls).stepExecutions, se.instanceID = r.id ∧
        se.status = .running ∧
        (se.stepType = .serviceTask ∨ se.stepType = .userTask ∨ se.stepType = .wait) := by
  intro h
  have hup : (Service.ofList [reviewWithDeadline]).Uploaded GoesOn :=
    Service.uploaded_ofList (by decide +kernel)
  have hrow : (run (Service.ofList [reviewWithDeadline]) reviewWithDeadlineRun).instances.any
      fun r => r.status.inFlight := by
    decide +kernel
  obtain ⟨r, hr, hflight⟩ := List.any_eq_true.mp hrow
  obtain ⟨se, hse, -, hrun, -⟩ := h _ hup reviewWithDeadlineRun r hr hflight
  have hclosed : (run (Service.ofList [reviewWithDeadline]) reviewWithDeadlineRun).stepExecutions.all
      fun se => decide (se.status ≠ .running) := by
    decide +kernel
  exact of_decide_eq_true (List.all_eq_true.mp hclosed se hse) hrun

theorem no_instance_stuck_reviewWithDeadline :
    ∃ r ∈ (run (.ofList [reviewWithDeadline])
        [reviewWithDeadline.start, ⟨.completeUserTask 0 "legal" [], 1, 16⟩]).instances,
      r.status.inFlight = true ∧ ∃ se ∈ (run (.ofList [reviewWithDeadline])
        [reviewWithDeadline.start, ⟨.completeUserTask 0 "legal" [], 1, 16⟩]).stepExecutions,
        se.instanceID = r.id ∧ se.status = .running ∧
        (se.stepType = .serviceTask ∨ se.stepType = .userTask ∨ se.stepType = .wait) := by
  have hrow : (run (.ofList [reviewWithDeadline]) [reviewWithDeadline.start,
      ⟨.completeUserTask 0 "legal" [], 1, 16⟩]).instances.any fun r => r.status.inFlight := by
    decide +kernel
  obtain ⟨r, hr, hflight⟩ := List.any_eq_true.mp hrow
  exact ⟨r, hr, hflight, no_instance_stuck _ (Service.uploaded_ofList (by decide +kernel)) _
    (by decide +kernel) r hr hflight⟩

end Rochallor
