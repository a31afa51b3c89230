import Rochallor.Safety.Timers

/-! # No timer is forgotten

    Every timer of a running step execution is accounted for: its schedule row
    is still there and unfired, or a claim of it has been committed.  A claim
    goes on to dispatch the timer's target unless it found the instance out of
    flight, and then the timer is used up: a retry of the instance does not
    bring it back.
-/

namespace Rochallor

/-- The timer has dispatched, or was used up while its instance was not
    `ACTIVE` or `WAITING`. -/
def Accounted (hist : List TimerClaim) (row : BoundaryEventSchedule) : Prop :=
  ∃ c ∈ hist, c.event = row ∧ (c.dispatched = true ∨ c.status.inFlight = false)

theorem Accounted.mono {hist hist' : List TimerClaim} {row : BoundaryEventSchedule}
    (h : Accounted hist row) (hsub : hist ⊆ hist') : Accounted hist' row := by
  obtain ⟨c, hc, rest⟩ := h
  exact ⟨c, hsub hc, rest⟩

/-- `rows` are the schedule rows of the step execution, one for each timer of
    its step, as they were inserted. -/
structure ScheduleOf (step : WorkflowStep) (se : StepExecution)
    (rows : List BoundaryEventSchedule) : Prop where
  timers : ∃ now, List.Forall₂ (TimerRow now se.instanceID se.id) step.timers rows
  nodup : (rows.map (·.id)).Nodup

/-- The timers of the step execution are unfired or accounted for. -/
def ScheduledAt (svc : Service) (hist : List TimerClaim) (db : Db) (se : StepExecution) : Prop :=
  ∃ inst ∈ db.instances, inst.id = se.instanceID ∧ ∃ d, Runs svc inst d ∧
    ∃ step, findStep d se.stepID = some step ∧ ∃ rows, ScheduleOf step se rows ∧
      ∀ row ∈ rows, row ∈ db.boundaryEvents ∨ Accounted hist row

/-- So it is for every running step execution. -/
def Scheduled (svc : Service) (hist : List TimerClaim) (db : Db) : Prop :=
  ∀ se ∈ db.stepExecutions, se.status = .running → ScheduledAt svc hist db se

section Steps

variable {svc : Service} {hist : List TimerClaim} {db db' : Db}

theorem ScheduleOf.row {step : WorkflowStep} {se : StepExecution}
    {rows : List BoundaryEventSchedule} (h : ScheduleOf step se rows)
    {row : BoundaryEventSchedule} (hrow : row ∈ rows) :
    row.fired = false ∧ row.stepExecutionID = se.id := by
  obtain ⟨now, htimers⟩ := h.timers
  obtain ⟨be, -, htimer⟩ := TimerRow.of_mem htimers hrow
  exact ⟨htimer.unfired, htimer.stepExecutionID_eq⟩

/-- No unfired row goes without being accounted for. -/
theorem ScheduledAt.later {hist' : List TimerClaim} {se : StepExecution}
    (h : ScheduledAt svc hist db se) (hsub : hist ⊆ hist') (hev : db.Evolves db')
    (hrows : ∀ row ∈ db.boundaryEvents, row.fired = false → row.stepExecutionID = se.id →
      row ∈ db'.boundaryEvents ∨ Accounted hist' row) :
    ScheduledAt svc hist' db' se := by
  obtain ⟨inst, hinst, hid, d, hd, step, hstep, rows, hof, hall⟩ := h
  obtain ⟨inst', hinst', hid', hd'⟩ := hev.runs hinst hd
  refine ⟨inst', hinst', hid'.trans hid, d, hd', step, hstep, rows, hof, ?_⟩
  intro row hrow
  rcases hall row hrow with hmem | hacc
  · obtain ⟨hunfired, hseID⟩ := hof.row hrow
    exact hrows row hmem hunfired hseID
  · exact .inr (hacc.mono hsub)

/-- A dispatch schedules the timers of the step it parks. -/
theorem Dispatched.scheduled {now : Time} {d : WorkflowDefinition} {tx tx' : Tx}
    {step : WorkflowStep} {next : List StepId} (hdisp : Dispatched svc now d tx step tx' next)
    (hwf : TxWF svc d tx) (hfind : findStep d step.id = some step)
    (h : Scheduled svc hist tx.db) : Scheduled svc hist tx'.db := by
  obtain ⟨p, f, row, hs⟩ := hdisp.step_view hwf.wf.step_lt
  have hev := hdisp.evolves hwf hfind
  intro se hse hrun
  rw [hs.rows] at hse
  rcases List.mem_append.mp hse with hse | hse
  · have hold := running_of_update (fun r => by rw [hs.status]; exact closedStatus_ne_running) hse hrun
    refine (h se hold hrun).later (fun _ hc => hc) hev ?_
    intro row hrow _ _
    rcases hdisp.timer_view with ⟨-, hrows, -⟩ | ⟨-, rows, start, hrows, -⟩
    · exact .inl (hrows ▸ hrow)
    · exact .inl (hrows ▸ List.mem_append_left _ hrow)
  · -- the new row: its timers have just been inserted
    obtain rfl := List.mem_singleton.mp hse
    obtain ⟨r, hr, hkey, -⟩ := hwf.mirror.row
    obtain ⟨inst, hinst, hid, hd'⟩ := hev.runs hr (hwf.mirror.runs.of_key hkey)
    simp only [WorkflowInstance.key, InstanceKey.mk.injEq] at hkey
    have hrowkey := hs.row_key
    simp only [StepExecution.key, StepKey.mk.injEq] at hrowkey
    obtain ⟨hseid, hseinst, hsestep, -⟩ := hrowkey
    have hext : step.type.external = true := by
      have hstatus := hs.row_status
      rw [hrun] at hstatus
      by_contra hext
      simp only [hext, if_false] at hstatus
      exact closedStatus_ne_running hstatus.symm
    rcases hdisp.timer_view with ⟨hno, -⟩ | ⟨-, rows, start, hrows, htimers, hids, -⟩
    · rw [hext] at hno
      cases hno
    · refine ⟨inst, hinst, ?_, d, hd', step, ?_, rows, ⟨⟨now, ?_⟩, ?_⟩, ?_⟩
      · rw [hid, hkey.1, hseinst]
      · rw [hsestep]
        exact hfind
      · rw [hseinst, hseid]
        exact htimers
      · rw [hids]
        exact List.nodup_range'
      · intro row hrow
        exact .inl (hrows ▸ List.mem_append_right _ hrow)

theorem scheduled_dispatches (svc : Service) (hist : List TimerClaim) :
    TxInvariant svc (fun db => db.WF svc) (fun d tx _ => TxWF svc d tx) (fun _ _ => False)
      (fun _ => True) (Scheduled svc hist) (fun _ tx _ => Scheduled svc hist tx.db) where
  opening := fun _ _ _ h => h.elim
  step := fun hwf h _ hfind hdisp => hdisp.scheduled hwf hfind h
  closing := fun _ h => h
  acknowledge := fun h => h

end Steps

/-- A committed call accounts for the timer it claims. -/
theorem scheduled_step {svc : Service} {db : Db} {hist : List TimerClaim} (hwf : db.WF svc)
    (h : Scheduled svc hist db) (call : Call) :
    Scheduled svc (hist ++ claims svc db call) (apply svc db call) := by
  unfold apply perform
  cases ht : transact svc db call with
  | error e =>
    intro se hse hrun
    exact (h se hse hrun).later (List.subset_append_left ..) (.refl db) fun _ hrow _ _ => .inl hrow
  | ok r =>
    obtain ⟨p, hp, hsettle⟩ := bind_eq_ok ht
    have hopened := plan_opened hp
    refine (scheduled_dispatches svc _).settle_tables hwf hp ?_ hsettle
    intro se hse hrun
    have hse := hopened.running hse hrun
    refine (h se hse hrun).later (List.subset_append_left ..) (hopened.evolves hwf) ?_
    intro row hrow hunfired hid
    have htimers := hopened.timers
    generalize hop : call.op = op at htimers
    cases htimers with
    | same op hrows hidle => exact .inl (hrows ▸ hrow)
    | swept retention hrows =>
      -- the row is unfired and its step execution runs, so it is not obsolete
      left
      rw [hrows]
      refine List.mem_filter.mpr ⟨hrow, ?_⟩
      simp only [Db.obsolete, hunfired, Bool.false_and, Bool.false_or, Bool.not_false,
        Bool.true_and, Bool.not_eq_true', List.any_eq_false, Bool.and_eq_true, decide_eq_true_eq]
      rintro se' hse' ⟨hid', hclosed⟩
      obtain rfl := hwf.step_eq hse hse' (hid.symm.trans hid'.symm)
      exact hclosed hrun
    | claimed eventID inst event hinst hevent hfate hrows =>
      by_cases hdue : Db.dueEvent call.now eventID inst.id row = true
      · right
        have hid₁ := (dueEvent_iff.mp hdue).1
        have hid₂ := (dueEvent_iff.mp (List.find?_some hevent)).1
        obtain rfl := hwf.timer_eq hrow (List.mem_of_find?_eq_some hevent) (hid₁.trans hid₂.symm)
        have hclaims : claims svc db call = [⟨row, inst.status,
            (dispatches svc db call).head?.any fun x => decide (x.stepID = row.targetStepID)⟩] := by
          simp [claims, hop, ht, hinst, hevent]
        have hmem : (⟨row, inst.status, (dispatches svc db call).head?.any fun x =>
            decide (x.stepID = row.targetStepID)⟩ : TimerClaim) ∈ claims svc db call := by
          rw [hclaims]
          exact List.mem_singleton_self _
        refine ⟨_, List.mem_append_right _ hmem, rfl, ?_⟩
        rcases (claims_spec hmem).1.fate with ⟨hyes, -⟩ | ⟨-, hflight | ⟨se', hse', hclosed⟩⟩
        · exact .inl hyes
        · exact .inr hflight
        · obtain rfl := hwf.step_eq hse (getStepExecution_mem hse')
            (hid.symm.trans (getStepExecution_id hse').symm)
          exact absurd hrun hclosed
      · left
        rw [hrows]
        exact Table.mem_update.mpr ⟨row, hrow, by simp [hdue]⟩

/-! ## Along a run -/

structure Bookkept (svc : Service) (db : Db) (hist : List TimerClaim) : Prop where
  wf : db.WF svc
  scheduled : Scheduled svc hist db

theorem bookkept_run (svc : Service) (calls : List Call) :
    Bookkept svc (run svc calls) (runClaims svc calls) := by
  have h₀ : Bookkept svc {} [] := ⟨wf_empty svc, by simp [Scheduled]⟩
  have hstep : ∀ db hist call, Bookkept svc db hist → True →
      Bookkept svc (apply svc db call) (hist ++ claims svc db call) :=
    fun _ _ call h _ => ⟨wf_apply h.wf call, scheduled_step h.wf h.scheduled call⟩
  simpa [run, runClaims] using
    Run.history (G := fun _ _ => True) hstep h₀ (Run.guarded_true _ calls)

/-- In every committed state, each timer of a running step execution is
    unfired, or has dispatched its target, or was used up by a firing that
    found the instance not in flight. -/
theorem timers_accounted (svc : Service) (calls : List Call) (inst : WorkflowInstance)
    (hinst : inst ∈ (run svc calls).instances)
    (se : StepExecution) (hse : se ∈ (run svc calls).stepExecutions)
    (hid : se.instanceID = inst.id) (hrun : se.status = .running) (d : WorkflowDefinition)
    (hd : Runs svc inst d) (step : WorkflowStep) (hstep : findStep d se.stepID = some step) :
    ∃ rows, ScheduleOf step se rows ∧ ∀ row ∈ rows,
      row ∈ (run svc calls).boundaryEvents ∨ ∃ c ∈ runClaims svc calls, c.event = row ∧
        (c.dispatched = true ∨ c.status.inFlight = false) := by
  obtain ⟨hwf, hscheduled⟩ := bookkept_run svc calls
  obtain ⟨inst', hinst', hid', d', hd', step', hstep', rows, hof, hall⟩ := hscheduled se hse hrun
  obtain rfl := hwf.instance_eq hinst hinst' (hid.symm.trans hid'.symm)
  obtain rfl : d' = d := Except.ok.inj (hd'.symm.trans hd)
  obtain rfl : step' = step := Option.some.inj (hstep'.symm.trans hstep)
  exact ⟨rows, hof, hall⟩

/-- A charge beside a review that is reminded of after a second. -/
def chargeBesideReview : WorkflowDefinition where
  id := "charge-beside-review"
  version := 1
  name := "charge beside review"
  steps := [
    { id := "fork", name := "fork", type := .parallelGateway,
      parallelNextSteps := ["charge", "review"], joinStep := "join" },
    { id := "charge", name := "charge", type := .serviceTask, jobType := "charge",
      nextStep := "join" },
    { id := "review", name := "review", type := .userTask, nextStep := "join",
      boundaryEvents := [⟨.timer, "PT1S", false, "remind"⟩] },
    { id := "remind", name := "remind", type := .serviceTask, jobType := "remind",
      nextStep := "end" },
    { id := "join", name := "join", type := .joinGateway, nextStep := "end" },
    { id := "end", name := "end", type := .endStep }]

/-- The charge fails, the timer is swept, and the charge is retried. -/
def chargeRetriedRun : List Call :=
  [chargeBesideReview.start, ⟨.failJob 3 "worker" "declined" false, 1, 16⟩,
    ⟨.fireBoundaryEvent 6 0, 2000000000, 16⟩, ⟨.retryFailedStep 0 "charge" [], 2000000001, 16⟩]

/-- After that run the instance is active and the review runs. -/
private theorem review_running : ∃ inst ∈ (run (.ofList [chargeBesideReview]) chargeRetriedRun).instances,
    ∃ se ∈ (run (.ofList [chargeBesideReview]) chargeRetriedRun).stepExecutions,
      inst.status.inFlight = true ∧ se.instanceID = inst.id ∧ se.status = .running ∧
      Runs (.ofList [chargeBesideReview]) inst chargeBesideReview ∧ se.stepID = "review" := by
  have hrow : (run (.ofList [chargeBesideReview]) chargeRetriedRun).instances.any fun r =>
      r.status.inFlight && decide (r.id = 0) && decide (r.definitionID = chargeBesideReview.id) &&
        decide (r.definitionVersion = 1) := by
    decide +kernel
  have hstep : (run (.ofList [chargeBesideReview]) chargeRetriedRun).stepExecutions.any
      fun r => decide (r.instanceID = 0) && decide (r.stepID = "review") &&
        decide (r.status = .running) := by
    decide +kernel
  obtain ⟨inst, hinst, hi⟩ := List.any_eq_true.mp hrow
  obtain ⟨se, hse, hs⟩ := List.any_eq_true.mp hstep
  simp only [Bool.and_eq_true, decide_eq_true_eq] at hi hs
  obtain ⟨⟨⟨hflight, hid⟩, hdef⟩, hversion⟩ := hi
  obtain ⟨⟨hseinst, hstepID⟩, hrun⟩ := hs
  refine ⟨inst, hinst, se, hse, hflight, hseinst.trans hid.symm, hrun, ?_, hstepID⟩
  unfold Runs
  rw [hdef, hversion]
  rfl

/-- The instance is active again and the review still runs, but its timer has
    fired without a dispatch. -/
theorem timer_lost_by_retry :
    ¬ ∀ svc : Service, svc.Uploaded Accepted → ∀ calls, ∀ inst ∈ (run svc calls).instances,
      inst.status.inFlight = true → ∀ se ∈ (run svc calls).stepExecutions,
      se.instanceID = inst.id → se.status = .running → ∀ d, Runs svc inst d →
      ∀ step, findStep d se.stepID = some step →
      ∃ rows, ScheduleOf step se rows ∧ ∀ row ∈ rows,
        row ∈ (run svc calls).boundaryEvents ∨
          ∃ c ∈ runClaims svc calls, c.event = row ∧ c.dispatched = true := by
  intro h
  have hup : (Service.ofList [chargeBesideReview]).Uploaded Accepted :=
    Service.uploaded_ofList (by decide +kernel)
  have hfired : (run (.ofList [chargeBesideReview]) chargeRetriedRun).boundaryEvents.all
      (·.fired) := by
    decide +kernel
  have hnone : (runClaims (.ofList [chargeBesideReview]) chargeRetriedRun).all
      fun c => !c.dispatched := by
    decide +kernel
  obtain ⟨inst, hinst, se, hse, hflight, hid, hrun, hd, hstepID⟩ := review_running
  obtain ⟨rows, hof, hall⟩ := h _ hup chargeRetriedRun inst hinst hflight se hse hid hrun _ hd _
    (by rw [hstepID]; rfl)
  obtain ⟨now, htimers⟩ := hof.timers
  cases htimers with
  | @cons be row timers rest htimer hrest =>
    rcases hall row (List.mem_cons_self ..) with hmem | ⟨c, hc, -, hdisp⟩
    · have := List.all_eq_true.mp hfired row hmem
      rw [htimer.unfired] at this
      cases this
    · have := List.all_eq_true.mp hnone c hc
      rw [hdisp] at this
      cases this

theorem timers_accounted_chargeRetried : ∃ (se : StepExecution) (rows : List BoundaryEventSchedule),
    se.stepID = "review" ∧ se.status = .running ∧ rows.length = 1 ∧ ∀ row ∈ rows,
      row.stepExecutionID = se.id ∧
      (row ∈ (run (.ofList [chargeBesideReview]) chargeRetriedRun).boundaryEvents ∨
        ∃ c ∈ runClaims (.ofList [chargeBesideReview]) chargeRetriedRun, c.event = row ∧
          (c.dispatched = true ∨ c.status.inFlight = false)) := by
  obtain ⟨inst, hinst, se, hse, -, hid, hrun, hd, hstepID⟩ := review_running
  obtain ⟨rows, hof, hall⟩ := timers_accounted _ chargeRetriedRun inst hinst se hse hid hrun _ hd _
    (by rw [hstepID]; rfl)
  obtain ⟨now, htimers⟩ := hof.timers
  exact ⟨se, rows, hstepID, hrun, htimers.length_eq.symm,
    fun row hrow => ⟨(hof.row hrow).2, hall row hrow⟩⟩

end Rochallor
