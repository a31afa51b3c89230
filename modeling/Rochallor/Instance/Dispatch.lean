import Rochallor.Instance.Written

/-! # What one dispatch does

    `Dispatched` lists everything a successful `dispatchStep` can do: which
    rows it inserts and closes, what becomes of the instance, and which steps
    it goes on to.  `dispatchStep_dispatched` is the inversion lemma; the rest
    of the module reads the tables off it, one table at a time, so that no
    later proof unfolds a handler.
-/

namespace Rochallor

/-! ## Sub-procedures -/

theorem findStep_id {d : WorkflowDefinition} {stepID : StepId} {step : WorkflowStep}
    (h : findStep d stepID = some step) : step.id = stepID := by
  unfold findStep at h
  simpa using List.find?_some h

theorem findStep_mem {d : WorkflowDefinition} {stepID : StepId} {step : WorkflowStep}
    (h : findStep d stepID = some step) : step ∈ d.steps :=
  List.mem_of_find?_eq_some h

/-- The timers of a step. -/
def WorkflowStep.timers (step : WorkflowStep) : List BoundaryEvent :=
  step.boundaryEvents.filter fun be => decide (be.type = .timer)

/-- `r` is the schedule row of the timer `be`, as it is inserted. -/
structure TimerRow (now : Time) (instanceID seID : Nat) (be : BoundaryEvent)
    (r : BoundaryEventSchedule) : Prop where
  instanceID_eq : r.instanceID = instanceID
  stepExecutionID_eq : r.stepExecutionID = seID
  target_eq : r.targetStepID = be.targetStepId
  interrupting_eq : r.interrupting = be.interrupting
  unfired : r.fired = false
  due : ∃ dur, parseDuration be.duration = .ok dur ∧ r.fireAt = now + dur

/-- Every row of a schedule is the row of one of its timers. -/
theorem TimerRow.of_mem {now : Time} {instanceID seID : Nat} {timers : List BoundaryEvent}
    {rows : List BoundaryEventSchedule} (h : List.Forall₂ (TimerRow now instanceID seID) timers rows)
    {r : BoundaryEventSchedule} (hr : r ∈ rows) :
    ∃ be ∈ timers, TimerRow now instanceID seID be r := by
  induction h with
  | nil => cases hr
  | cons hrow _ ih =>
    rcases List.mem_cons.mp hr with rfl | hr'
    · exact ⟨_, List.mem_cons_self .., hrow⟩
    · obtain ⟨be, hbe, hrow'⟩ := ih hr'
      exact ⟨be, List.mem_cons_of_mem _ hbe, hrow'⟩

/-- Inserts schedule rows that take the next ids. -/
@[simps] def Db.addTimers (db : Db) (rows : List BoundaryEventSchedule) : Db :=
  { db with
    boundaryEvents := db.boundaryEvents ++ rows
    nextId := db.nextId + rows.length }

theorem scheduleBoundaryEvents_ok {now : Time} {instanceID seID : Nat}
    {events : List BoundaryEvent} {db db' : Db}
    (h : scheduleBoundaryEvents now instanceID seID events db = .ok db') :
    ∃ rows, List.Forall₂ (TimerRow now instanceID seID)
        (events.filter fun be => decide (be.type = .timer)) rows ∧
      rows.map (·.id) = List.range' db.nextId rows.length ∧ db' = db.addTimers rows := by
  induction events generalizing db with
  | nil =>
    cases h
    exact ⟨[], .nil, rfl, by simp [Db.addTimers]⟩
  | cons be rest ih =>
    rw [scheduleBoundaryEvents] at h
    split at h
    · rename_i htimer
      split at h
      · cases h
      · rename_i dur hdur
        obtain ⟨rows, hrows, hids, hdb⟩ := ih h
        refine ⟨⟨db.nextId, instanceID, seID, be.targetStepId, now + dur, be.interrupting, false⟩
          :: rows, ?_, ?_, ?_⟩
        · simp only [htimer, decide_true, List.filter_cons_of_pos]
          exact .cons ⟨rfl, rfl, rfl, rfl, rfl, dur, hdur, rfl⟩ hrows
        · simpa [List.range'_succ] using hids
        · subst hdb
          simp [Db.addTimers, Db.insertBoundaryEventSchedule, Nat.add_assoc, Nat.add_comm 1]
    · rename_i htimer
      obtain ⟨rows, hrows, hids, hdb⟩ := ih h
      exact ⟨rows, by simpa [htimer] using hrows, hids, hdb⟩

/-- Rewrites the variables of an instance row. -/
@[simps!] def Db.patchVars (db : Db) (instanceID : Nat) (g : Json → Json) : Db :=
  db.updateInstance instanceID fun r => { r with vars := g r.vars }

theorem patchVars_id (db : Db) (instanceID : Nat) : db.patchVars instanceID id = db := by
  have : Table.update (fun r => decide (r.id = instanceID)) (fun r : WorkflowInstance => r)
      db.instances = db.instances := by
    simp [Table.update]
  simp [Db.patchVars, Db.updateInstance, this]

theorem updateInstanceVariablesPartial_ok {db db' : Db} {instanceID : Nat}
    {patch : GoMap Value} (h : db.updateInstanceVariablesPartial instanceID patch = .ok db') :
    ∃ g p, db' = db.patchVars instanceID g ∧ marshalMembers patch = .ok p ∧
      ∀ ms, g (.obj ms) = .obj (GoMap.overlay ms p) := by
  unfold Db.updateInstanceVariablesPartial at h
  split at h
  · rename_i hempty
    cases h
    obtain rfl := List.isEmpty_iff.mp hempty
    exact ⟨id, [], (patchVars_id _ _).symm, rfl, fun _ => rfl⟩
  · split at h
    · cases h
    · rename_i p hp
      cases h
      exact ⟨fun v => Db.mergeJson v p, p, rfl, hp, fun _ => rfl⟩

section Enqueue

variable (dispatcher : Dispatcher) (db : Db) (job : DispatchJob)

@[simp] theorem enqueue_instances : (enqueue dispatcher db job).instances = db.instances := by
  cases dispatcher <;> rfl

@[simp] theorem enqueue_stepExecutions :
    (enqueue dispatcher db job).stepExecutions = db.stepExecutions := by
  cases dispatcher <;> rfl

@[simp] theorem enqueue_jobs : (enqueue dispatcher db job).jobs = db.jobs := by
  cases dispatcher <;> rfl

@[simp] theorem enqueue_userTasks : (enqueue dispatcher db job).userTasks = db.userTasks := by
  cases dispatcher <;> rfl

@[simp] theorem enqueue_boundaryEvents :
    (enqueue dispatcher db job).boundaryEvents = db.boundaryEvents := by
  cases dispatcher <;> rfl

@[simp] theorem enqueue_chains : (enqueue dispatcher db job).chains = db.chains := by
  cases dispatcher <;> rfl

@[simp] theorem enqueue_statusWrites :
    (enqueue dispatcher db job).statusWrites = db.statusWrites := by
  cases dispatcher <;> rfl

theorem nextId_le_enqueue : db.nextId ≤ (enqueue dispatcher db job).nextId := by
  cases dispatcher
  · exact Nat.le_refl _
  · exact Nat.le_succ _

end Enqueue

/-! ## Inversion -/

/-- The step-execution row of an entry into `step`. -/
def entryRow (tx : Tx) (step : WorkflowStep) : StepExecution where
  id := tx.db.nextId
  instanceID := tx.inst.id
  stepID := step.id
  stepType := step.type
  attemptNumber := tx.db.countStepAttempts tx.inst.id step.id + 1
  status := .running
  inputSnapshot := tx.inst.vars

/-- Whether the routing of a `DECISION`, `TRANSFORMATION` or `DECISION_TABLE`
    step on these variables fails the instance, by the expressions of the step
    alone. -/
def routingFails (svc : Service) (now : Time) (vars : Json) (step : WorkflowStep) : Bool :=
  match step.type, variablesToMap vars with
  | .decision, .error _ => true
  | .decision, .ok m =>
    match step.conditionalNextSteps with
    | none => true
    | some c =>
      match chooseBranch svc m c c.exprs with
      | .ok (some _) => false
      | _ => true
  | .transformation, .ok m =>
    match runTransformations svc now step.transformations m [] with
    | .error (.fail _) => true
    | _ => false
  | .decisionTable, .error _ => true
  | .decisionTable, .ok m =>
    match evaluateDecisionTable svc now m step with
    | .error _ => true
    | .ok _ => false
  | _, _ => false

/-- The request of a completed instance for its next workflow. -/
def chainRequest (now : Time) (d : WorkflowDefinition) (inst : WorkflowInstance) :
    WorkflowChain where
  sourceInstanceID := inst.id
  targetDefinitionID := d.nextWorkflowId
  vars := inst.vars
  businessKey := inst.businessKey
  createdAt := now

/-- Everything a successful dispatch of `step` in the transaction `tx` can do.
    The indices are the transaction after it and the steps it goes on to. -/
inductive Dispatched (svc : Service) (now : Time) (d : WorkflowDefinition) (tx : Tx)
    (step : WorkflowStep) : Tx → List StepId → Prop
  /-- A service task is parked with a new job. -/
  | service (job : DispatchJob) (rows : List BoundaryEventSchedule)
      (htype : step.type = .serviceTask)
      (hrows : List.Forall₂ (TimerRow now tx.inst.id tx.db.nextId) step.timers rows)
      (hids : rows.map (·.id) = List.range' (enqueue svc.dispatcher
        ((enterStep tx step step.id).db.insertJob now tx.inst.id tx.db.nextId (jobTypeOf step)
          step.retryCount tx.inst.vars) job).nextId rows.length)
      (hjob : job = ⟨(enterStep tx step step.id).db.nextId, tx.inst.id, tx.db.nextId,
        jobTypeOf step, step.retryCount, tx.inst.vars, now⟩) :
      Dispatched svc now d tx step
        ⟨(enqueue svc.dispatcher ((enterStep tx step step.id).db.insertJob now tx.inst.id
            tx.db.nextId (jobTypeOf step) step.retryCount tx.inst.vars) job).addTimers rows,
          (enterStep tx step step.id).inst⟩ []
  /-- A user task is parked with a new task row. -/
  | user (rows : List BoundaryEventSchedule) (htype : step.type = .userTask)
      (hrows : List.Forall₂ (TimerRow now tx.inst.id tx.db.nextId) step.timers rows)
      (hids : rows.map (·.id) = List.range' (tx.db.nextId + 2) rows.length) :
      Dispatched svc now d tx step
        ⟨(((enterStep tx step step.id).db.insertUserTask tx.inst.id tx.db.nextId step.id
            tx.inst.vars).updateInstanceStatus tx.inst.id .waiting).addTimers rows,
          { (enterStep tx step step.id).inst with status := .waiting }⟩ []
  /-- A wait step is parked. -/
  | wait (rows : List BoundaryEventSchedule) (htype : step.type = .wait)
      (hrows : List.Forall₂ (TimerRow now tx.inst.id tx.db.nextId) step.timers rows)
      (hids : rows.map (·.id) = List.range' (tx.db.nextId + 1) rows.length) :
      Dispatched svc now d tx step
        ⟨((enterStep tx step step.id).db.updateInstanceStatus tx.inst.id .waiting).addTimers rows,
          { (enterStep tx step step.id).inst with status := .waiting }⟩ []
  /-- A decision or a decision table goes on, closing every running row of its
      step. -/
  | route (g : Json → Json) (vars : Json) (next : StepId)
      (htype : step.type = .decision ∨ step.type = .decisionTable)
      (hpass : routingFails svc now tx.inst.vars step = false)
      (hnext : (step.type = .decisionTable ∧ next = step.nextStep) ∨
        (step.type = .decision ∧ ∃ c e, step.conditionalNextSteps = some c ∧ e ∈ c.exprs ∧
          next = c.target e))
      (hmerged : Merged tx.inst.vars vars g)
      (hwrites : WritesOnly step.writtenKeys tx.inst.vars vars g) :
      Dispatched svc now d tx step
        (closeByStep now ⟨(enterStep tx step step.id).db.patchVars tx.inst.id g,
          { (enterStep tx step step.id).inst with vars := vars }⟩ step) [next]
  /-- A gateway goes on to its branches. -/
  | fork (htype : step.type = .parallelGateway) :
      Dispatched svc now d tx step (closeByStep now (enterStep tx step step.id) step)
        step.parallelNextSteps
  /-- A transformation goes on, closing its own row. -/
  | transform (g : Json → Json) (vars : Json) (htype : step.type = .transformation)
      (hpass : routingFails svc now tx.inst.vars step = false)
      (hmerged : Merged tx.inst.vars vars g)
      (hwrites : WritesOnly step.writtenKeys tx.inst.vars vars g) :
      Dispatched svc now d tx step
        (Tx.removeFromCurrentSteps
          ⟨((enterStep tx step step.id).db.patchVars tx.inst.id g).completeStepExecutionByID now
              tx.db.nextId (some vars),
            { (enterStep tx step step.id).inst with vars := vars }⟩ step.id) [step.nextStep]
  /-- A join waits for more branches. -/
  | hold (gateway : WorkflowStep) (htype : step.type = .joinGateway)
      (hgateway : findParallelGatewayFor d step.id = some gateway)
      (hcount : (enterStep tx step step.id).db.countCompletedBranchLeafs tx.inst.id
        (branchLeafsFor gateway) < gateway.parallelNextSteps.length) :
      Dispatched svc now d tx step
        ⟨(enterStep tx step step.id).db.completeStepExecutionByID now tx.db.nextId none,
          (enterStep tx step step.id).inst⟩ []
  /-- A join goes on. -/
  | join (gateway : WorkflowStep) (htype : step.type = .joinGateway)
      (hgateway : findParallelGatewayFor d step.id = some gateway)
      (hcount : gateway.parallelNextSteps.length ≤
        (enterStep tx step step.id).db.countCompletedBranchLeafs tx.inst.id
          (branchLeafsFor gateway)) :
      Dispatched svc now d tx step
        (Tx.removeFromCurrentSteps
          ⟨(enterStep tx step step.id).db.completeStepExecutionByID now tx.db.nextId none,
            (enterStep tx step step.id).inst⟩ step.id) [step.nextStep]
  /-- The instance completes.  `chains` is the chain table afterwards. -/
  | finish (chains : List WorkflowChain) (htype : step.type = .endStep)
      (ids : List StepId)
      (hids : ids = withoutStep (enterStep tx step step.id).inst.currentStepIDs step.id)
      (hchains : chains = if d.autoStartNextWorkflow && !d.nextWorkflowId.isEmpty then
          (tx.db.insertWorkflowChain (chainRequest now d tx.inst)).chains
        else tx.db.chains) :
      Dispatched svc now d tx step
        ⟨{ ((enterStep tx step step.id).db.completeStepExecutionByID now tx.db.nextId
              none).completeInstance now tx.inst.id ids with chains := chains },
          { (enterStep tx step step.id).inst with currentStepIDs := ids, status := .completed }⟩ []
  /-- The routing of the step fails the instance. -/
  | fail (reason : String)
      (htype : step.type = .decision ∨ step.type = .transformation ∨ step.type = .decisionTable)
      (hfails : routingFails svc now tx.inst.vars step = true) (hreason : reason ≠ "") :
      Dispatched svc now d tx step
        (failInstance now (enterStep tx step step.id) step.id reason) []

theorem chooseBranch_mem {svc : Service} {vars : GoMap Value} {c : ConditionalBranches}
    {exprs : List String} {target : StepId}
    (h : chooseBranch svc vars c exprs = .ok (some target)) :
    ∃ e ∈ exprs, target = c.target e := by
  induction exprs with
  | nil => cases h
  | cons e rest ih =>
    rw [chooseBranch] at h
    split at h
    · cases h
    · cases h
      exact ⟨e, List.mem_cons_self .., rfl⟩
    · obtain ⟨e', he', ht⟩ := ih h
      exact ⟨e', List.mem_cons_of_mem _ he', ht⟩
    · cases h

section Inversion

variable {svc : Service} {now : Time} {d : WorkflowDefinition} {tx tx' : Tx}
  {step : WorkflowStep} {next : List StepId}

private theorem handleServiceTask_dispatched (htype : step.type = .serviceTask)
    (h : handleServiceTask svc now (enterStep tx step step.id) step tx.db.nextId =
      .ok (tx', next)) : Dispatched svc now d tx step tx' next := by
  unfold handleServiceTask at h
  obtain ⟨db, hdb, h⟩ := bind_eq_ok h
  obtain ⟨rows, hrows, hids, rfl⟩ := scheduleBoundaryEvents_ok hdb
  cases h
  exact .service _ rows htype hrows hids rfl

private theorem handleUserTask_dispatched (htype : step.type = .userTask)
    (h : handleUserTask now (enterStep tx step step.id) step tx.db.nextId = .ok (tx', next)) :
    Dispatched svc now d tx step tx' next := by
  unfold handleUserTask at h
  obtain ⟨db, hdb, h⟩ := bind_eq_ok h
  obtain ⟨rows, hrows, hids, rfl⟩ := scheduleBoundaryEvents_ok hdb
  cases h
  exact .user rows htype hrows hids

private theorem handleWait_dispatched (htype : step.type = .wait)
    (h : handleWait now (enterStep tx step step.id) step tx.db.nextId = .ok (tx', next)) :
    Dispatched svc now d tx step tx' next := by
  unfold handleWait at h
  obtain ⟨db, hdb, h⟩ := bind_eq_ok h
  obtain ⟨rows, hrows, hids, rfl⟩ := scheduleBoundaryEvents_ok hdb
  cases h
  exact .wait rows htype hrows hids

private theorem handleDecision_dispatched (htype : step.type = .decision)
    (h : handleDecision svc now (enterStep tx step step.id) step = .ok (tx', next)) :
    Dispatched svc now d tx step tx' next := by
  have hvars : (enterStep tx step step.id).inst.vars = tx.inst.vars := rfl
  unfold handleDecision at h
  rw [hvars] at h
  cases hm : variablesToMap tx.inst.vars with
  | error e =>
    simp only [hm] at h
    cases h
    exact .fail _ (.inl htype) (by simp [routingFails, htype, hm]) (by simp)
  | ok vars =>
    simp only [hm] at h
    cases hc : step.conditionalNextSteps with
    | none =>
      simp only [hc] at h
      cases h
      exact .fail _ (.inl htype) (by simp [routingFails, htype, hm, hc]) (by decide)
    | some c =>
      simp only [hc] at h
      split at h
      · rename_i reason hb
        cases h
        exact .fail _ (.inl htype) (by simp [routingFails, htype, hm, hc, hb])
          (chooseBranch_error hb)
      · rename_i hb
        cases h
        exact .fail _ (.inl htype) (by simp [routingFails, htype, hm, hc, hb]) (by decide)
      · rename_i target hb
        cases h
        obtain ⟨e, he, ht⟩ := chooseBranch_mem hb
        have hpass : routingFails svc now tx.inst.vars step = false := by
          simp [routingFails, htype, hm, hc, hb]
        have hroute := Dispatched.route (d := d) id tx.inst.vars target (.inl htype) hpass
          (.inr ⟨htype, c, e, hc, he, ht⟩) (.keep fun _ => rfl) (.keep fun _ => rfl)
        rw [patchVars_id] at hroute
        exact hroute

private theorem handleTransformation_dispatched (htype : step.type = .transformation)
    (h : handleTransformation svc now (enterStep tx step step.id) step tx.db.nextId =
      .ok (tx', next)) : Dispatched svc now d tx step tx' next := by
  have hvars : (enterStep tx step step.id).inst.vars = tx.inst.vars := rfl
  unfold handleTransformation at h
  rw [hvars] at h
  cases hm : variablesToMap tx.inst.vars with
  | error e =>
    simp only [hm] at h
    cases h
  | ok vars =>
    simp only [hm] at h
    split at h
    · cases h
    · rename_i reason hb
      cases h
      exact .fail _ (.inr (.inl htype)) (by simp [routingFails, htype, hm, hb])
        (runTransformations_fail hb)
    · rename_i vars' delta hb
      split at h
      · cases h
      · rename_i merged hmarshal
        obtain ⟨db, hdb, h⟩ := bind_eq_ok h
        obtain ⟨g, p, rfl, hp, hg⟩ := updateInstanceVariablesPartial_ok hdb
        cases h
        obtain ⟨hnodup, hget⟩ := runTransformations_overlay hb (variablesToMap_ok hm).1
          List.nodup_nil fun _ => rfl
        have hkeys : ∀ k ∈ delta.map (·.1), k ∈ step.writtenKeys := by
          intro k hk
          rw [WorkflowStep.writtenKeys, htype]
          exact (runTransformations_keys hb k hk).resolve_left List.not_mem_nil
        exact .transform g merged htype (by simp [routingFails, htype, hm, hb])
          (.merge hm hnodup hget hmarshal hp hg)
          ((WritesOnly.merge hm hnodup hget hmarshal hp hg).mono hkeys)

private theorem handleDecisionTable_dispatched (htype : step.type = .decisionTable)
    (h : handleDecisionTable svc now (enterStep tx step step.id) step = .ok (tx', next)) :
    Dispatched svc now d tx step tx' next := by
  have hvars : (enterStep tx step step.id).inst.vars = tx.inst.vars := rfl
  unfold handleDecisionTable at h
  rw [hvars] at h
  cases hm : variablesToMap tx.inst.vars with
  | error e =>
    simp only [hm] at h
    cases h
    exact .fail _ (.inr (.inr htype)) (by simp [routingFails, htype, hm]) (by simp)
  | ok vars =>
    simp only [hm] at h
    split at h
    · rename_i reason hb
      cases h
      exact .fail _ (.inr (.inr htype)) (by simp [routingFails, htype, hm, hb])
        (evaluateDecisionTable_error hb)
    · rename_i outputs hb
      have hpass : routingFails svc now tx.inst.vars step = false := by
        simp [routingFails, htype, hm, hb]
      split at h
      · cases h
        -- no outputs: the variables stay as they are
        have hroute := Dispatched.route (d := d) id tx.inst.vars step.nextStep (.inr htype) hpass
          (.inl ⟨htype, rfl⟩) (.keep fun _ => rfl) (.keep fun _ => rfl)
        rw [patchVars_id] at hroute
        exact hroute
      · split at h
        · cases h
        · rename_i merged hmarshal
          obtain ⟨db, hdb, h⟩ := bind_eq_ok h
          obtain ⟨g, p, rfl, hp, hg⟩ := updateInstanceVariablesPartial_ok hdb
          cases h
          have hnodup : ((vars.overlay outputs).map (·.1)).Nodup :=
            overlay_nodup (variablesToMap_ok hm).1
          have hget := GoMap.get_overlay vars outputs
          exact .route g merged step.nextStep (.inr htype) hpass (.inl ⟨htype, rfl⟩)
            (.merge hm hnodup hget hmarshal hp hg)
            ((WritesOnly.merge hm hnodup hget hmarshal hp hg).mono
              (evaluateDecisionTable_keys htype hb))

private theorem handleJoinGateway_dispatched (htype : step.type = .joinGateway)
    (h : handleJoinGateway now d (enterStep tx step step.id) step tx.db.nextId =
      .ok (tx', next)) : Dispatched svc now d tx step tx' next := by
  unfold handleJoinGateway at h
  split at h
  · cases h
  · rename_i gateway hgateway
    simp only at h
    split at h
    · rename_i hcount
      cases h
      exact .hold gateway htype hgateway hcount
    · rename_i hcount
      cases h
      exact .join gateway htype hgateway (Nat.le_of_not_lt hcount)

private theorem handleEnd_dispatched (htype : step.type = .endStep)
    (h : handleEnd now d (enterStep tx step step.id) step tx.db.nextId = .ok (tx', next)) :
    Dispatched svc now d tx step tx' next := by
  unfold handleEnd at h
  simp only at h
  split at h
  · rename_i hauto
    cases h
    exact .finish _ htype _ rfl (by rw [if_pos hauto]; rfl)
  · rename_i hauto
    cases h
    exact .finish tx.db.chains htype _ rfl (by rw [if_neg hauto])

/-- The inversion lemma. -/
theorem dispatchStep_dispatched {stepID : StepId}
    (h : dispatchStep svc now d tx stepID = .ok (tx', next)) :
    ∃ step, findStep d stepID = some step ∧ Dispatched svc now d tx step tx' next := by
  unfold dispatchStep at h
  split at h
  · cases h
  · rename_i step hfind
    obtain rfl := findStep_id hfind
    refine ⟨step, hfind, ?_⟩
    unfold routeStep at h
    split at h
    case h_1 htype => exact handleServiceTask_dispatched htype h
    case h_2 htype => exact handleUserTask_dispatched htype h
    case h_3 htype => exact handleDecision_dispatched htype h
    case h_4 htype => exact handleTransformation_dispatched htype h
    case h_5 htype => exact handleWait_dispatched htype h
    case h_6 htype =>
      cases h
      exact .fork htype
    case h_7 htype => exact handleJoinGateway_dispatched htype h
    case h_8 htype => exact handleEnd_dispatched htype h
    case h_9 htype => exact handleDecisionTable_dispatched htype h
    case h_10 htype => cases h

end Inversion

/-! ## Keys

    The columns of a row that no statement ever updates. -/

structure InstanceKey where
  id : Nat
  definitionID : String
  definitionVersion : Int
  businessKey : Option String

structure StepKey where
  id : Nat
  instanceID : Nat
  stepID : StepId
  stepType : StepType

/-- The key of a row attached to a step execution. -/
structure ChildKey where
  id : Nat
  instanceID : Nat
  stepExecutionID : Nat

structure TaskKey extends ChildKey where
  stepID : StepId

def WorkflowInstance.key (r : WorkflowInstance) : InstanceKey :=
  ⟨r.id, r.definitionID, r.definitionVersion, r.businessKey⟩

def StepExecution.key (r : StepExecution) : StepKey :=
  ⟨r.id, r.instanceID, r.stepID, r.stepType⟩

def Job.key (r : Job) : ChildKey :=
  ⟨r.id, r.instanceID, r.stepExecutionID⟩

def UserTask.key (r : UserTask) : TaskKey :=
  ⟨⟨r.id, r.instanceID, r.stepExecutionID⟩, r.stepID⟩

def BoundaryEventSchedule.key (r : BoundaryEventSchedule) : ChildKey :=
  ⟨r.id, r.instanceID, r.stepExecutionID⟩

/-! ## Views -/

/-- The status a dispatch of `step` writes to the instance, if any. -/
def writtenStatus (svc : Service) (now : Time) (vars : Json) (step : WorkflowStep) :
    Option InstanceStatus :=
  match step.type with
  | .userTask | .wait => some .waiting
  | .endStep => some .completed
  | _ => if routingFails svc now vars step then some .failed else none

/-- The status in which a dispatch that does not park its step closes it. -/
def closedStatus (svc : Service) (now : Time) (vars : Json) (step : WorkflowStep) :
    StepExecutionStatus :=
  if routingFails svc now vars step then .failed else .completed

theorem closedStatus_ne_running {svc : Service} {now : Time} {vars : Json} {step : WorkflowStep} :
    closedStatus svc now vars step ≠ .running := by
  unfold closedStatus
  split <;> simp

/-- How a dispatch changes the row and the in-memory copy of its instance. -/
structure InstanceView (tx tx' : Tx) (written : Option InstanceStatus)
    (f : WorkflowInstance → WorkflowInstance) : Prop where
  rows : tx'.db.instances =
    Table.update (fun r => decide (r.id = tx.inst.id)) f tx.db.instances
  key : ∀ r, (f r).key = r.key
  inst_key : tx'.inst.key = tx.inst.key
  status : ∀ r, (f r).status = written.getD r.status
  inst_status : tx'.inst.status = written.getD tx.inst.status
  completedAt_keep : written.any (·.terminal) = false → ∀ r, (f r).completedAt = r.completedAt
  completedAt_set : written.any (·.terminal) = true → ∀ r, (f r).completedAt.isSome = true
  writes : ∃ statement, statement ≠ .insertInstance ∧ statement ≠ .reactivateInstance ∧
    tx'.db.statusWrites = tx.db.statusWrites ++
      written.toList.map (⟨tx.inst.id, ·, statement⟩)

/-- How a dispatch changes the step executions: it closes running rows of its
    own step and inserts `row`. -/
structure StepView (tx tx' : Tx) (step : WorkflowStep) (closed : StepExecutionStatus)
    (p : StepExecution → Bool) (f : StepExecution → StepExecution) (row : StepExecution) :
    Prop where
  rows : tx'.db.stepExecutions = Table.update p f tx.db.stepExecutions ++ [row]
  touched : ∀ r ∈ tx.db.stepExecutions, p r = true →
    Db.runningAt tx.inst.id step.id r = true ∧ step.type.external = false
  key : ∀ r, (f r).key = r.key
  attempt : ∀ r, (f r).attemptNumber = r.attemptNumber
  status : ∀ r, (f r).status = closed
  row_key : row.key = ⟨tx.db.nextId, tx.inst.id, step.id, step.type⟩
  row_attempt : row.attemptNumber = tx.db.countStepAttempts tx.inst.id step.id + 1
  row_status : row.status = if step.type.external then .running else closed

namespace Dispatched

variable {svc : Service} {now : Time} {d : WorkflowDefinition} {tx tx' : Tx}
  {step : WorkflowStep} {next : List StepId}

theorem routingFails_eq_false (htype : step.type ≠ .decision ∧ step.type ≠ .transformation ∧
    step.type ≠ .decisionTable) (vars : Json) : routingFails svc now vars step = false := by
  unfold routingFails
  split <;> simp_all

private theorem written_none (htype : step.type ≠ .userTask ∧ step.type ≠ .wait ∧
    step.type ≠ .endStep) (hpass : routingFails svc now tx.inst.vars step = false) :
    writtenStatus svc now tx.inst.vars step = none := by
  unfold writtenStatus
  split <;> simp_all

/-- The entry rewrites the current steps; `g` is what the handler does after. -/
private theorem instance_view_of_enter (step : WorkflowStep) {written : Option InstanceStatus}
    {g : WorkflowInstance → WorkflowInstance}
    (hrows : tx'.db.instances = Table.update (fun r => decide (r.id = tx.inst.id)) g
      (enterStep tx step step.id).db.instances)
    (hkey : ∀ r, (g r).key = r.key) (hinst : tx'.inst.key = tx.inst.key)
    (hstatus : ∀ r, (g r).status = written.getD r.status)
    (hmem : tx'.inst.status = written.getD tx.inst.status)
    (hkeep : written.any (·.terminal) = false → ∀ r, (g r).completedAt = r.completedAt)
    (hset : written.any (·.terminal) = true → ∀ r, (g r).completedAt.isSome = true)
    (statement : StatusStatement)
    (hstatement : statement ≠ .insertInstance ∧ statement ≠ .reactivateInstance)
    (hwrites : tx'.db.statusWrites = tx.db.statusWrites ++
      written.toList.map (⟨tx.inst.id, ·, statement⟩)) :
    ∃ f, InstanceView tx tx' written f := by
  let enter (r : WorkflowInstance) : WorkflowInstance :=
    { r with currentStepIDs := withStep tx.inst.currentStepIDs step.id }
  refine ⟨g ∘ enter, ?_, fun r => hkey (enter r), hinst, fun r => hstatus (enter r), hmem,
    fun h r => hkeep h (enter r), fun h r => hset h (enter r),
    statement, hstatement.1, hstatement.2, hwrites⟩
  rw [hrows, enterStep_db_instances, Table.update_update]
  exact fun r hr => hr

/-- The handler leaves the instance alone. -/
private theorem instance_view_of_keep (step : WorkflowStep)
    (hrows : tx'.db.instances = (enterStep tx step step.id).db.instances)
    (hinst : tx'.inst.key = tx.inst.key) (hmem : tx'.inst.status = tx.inst.status)
    (hwrites : tx'.db.statusWrites = tx.db.statusWrites) : ∃ f, InstanceView tx tx' none f :=
  instance_view_of_enter step (g := id) (by rw [Table.update_id, hrows]) (fun _ => rfl) hinst (fun _ => rfl)
    hmem (fun _ _ => rfl) (fun h => by simp at h) .updateInstanceStatus (by simp)
    (by simp [hwrites])

theorem instance_view (h : Dispatched svc now d tx step tx' next) :
    ∃ f, InstanceView tx tx' (writtenStatus svc now tx.inst.vars step) f := by
  cases h with
  | service job rows htype hrows hids =>
    rw [written_none (by simp [htype]) (routingFails_eq_false (by simp [htype]) _)]
    exact instance_view_of_keep step (by simp) rfl rfl (by simp)
  | user rows htype hrows hids =>
    have hw : writtenStatus svc now tx.inst.vars step = some .waiting := by
      simp [writtenStatus, htype]
    rw [hw]
    exact instance_view_of_enter step (g := fun r => { r with status := .waiting }) rfl (fun _ => rfl)
      rfl (fun _ => rfl) rfl (fun _ _ => rfl) (fun h => by simp [InstanceStatus.terminal, InstanceStatus.inFlight] at h)
      .updateInstanceStatus (by simp) (by simp)
  | wait rows htype hrows hids =>
    have hw : writtenStatus svc now tx.inst.vars step = some .waiting := by
      simp [writtenStatus, htype]
    rw [hw]
    exact instance_view_of_enter step (g := fun r => { r with status := .waiting }) rfl (fun _ => rfl)
      rfl (fun _ => rfl) rfl (fun _ _ => rfl) (fun h => by simp [InstanceStatus.terminal, InstanceStatus.inFlight] at h)
      .updateInstanceStatus (by simp) (by simp)
  | route g vars next htype hpass hnext =>
    rw [written_none (by rcases htype with h | h <;> simp [h]) hpass]
    exact instance_view_of_enter step (g := fun r => { r with vars := g r.vars }) rfl (fun _ => rfl) rfl
      (fun _ => rfl) rfl (fun _ _ => rfl) (fun h => by simp at h) .updateInstanceStatus (by simp) (by simp)
  | fork htype =>
    rw [written_none (by simp [htype]) (routingFails_eq_false (by simp [htype]) _)]
    exact instance_view_of_keep step (by simp) rfl rfl (by simp)
  | transform g vars htype hpass =>
    rw [written_none (by simp [htype]) hpass]
    exact instance_view_of_enter step (g := fun r => { r with vars := g r.vars }) rfl (fun _ => rfl) rfl
      (fun _ => rfl) rfl (fun _ _ => rfl) (fun h => by simp at h) .failInstance (by simp) (by simp)
  | hold gateway htype hgateway hcount =>
    rw [written_none (by simp [htype]) (routingFails_eq_false (by simp [htype]) _)]
    exact instance_view_of_keep step (by simp) rfl rfl (by simp)
  | join gateway htype hgateway hcount =>
    rw [written_none (by simp [htype]) (routingFails_eq_false (by simp [htype]) _)]
    exact instance_view_of_keep step (by simp) rfl rfl (by simp)
  | finish chains htype ids hids =>
    have hw : writtenStatus svc now tx.inst.vars step = some .completed := by
      simp [writtenStatus, htype]
    rw [hw]
    exact instance_view_of_enter step
      (g := fun r => { r with status := .completed, completedAt := some now, currentStepIDs := ids })
      rfl (fun _ => rfl) rfl (fun _ => rfl) rfl
      (fun h => by simp [InstanceStatus.terminal, InstanceStatus.inFlight] at h) (fun _ _ => rfl)
      .completeInstance (by simp) (by simp)
  | fail reason htype hfails =>
    have hw : writtenStatus svc now tx.inst.vars step = some .failed := by
      rcases htype with h | h | h <;> simp [writtenStatus, h, hfails]
    rw [hw]
    exact instance_view_of_enter step
      (g := fun r => { r with status := .failed, failureReason := some reason, completedAt := some now })
      rfl (fun _ => rfl) rfl (fun _ => rfl) rfl
      (fun h => by simp [InstanceStatus.terminal, InstanceStatus.inFlight] at h) (fun _ _ => rfl)
      .failInstance (by simp) (by simp)

private theorem entry_runningAt : Db.runningAt tx.inst.id step.id (entryRow tx step) = true := by
  simp [Db.runningAt, entryRow]

/-- The step is parked. -/
private theorem step_view_of_park {closed : StepExecutionStatus}
    (hrows : tx'.db.stepExecutions = tx.db.stepExecutions ++ [entryRow tx step])
    (htype : step.type.external = true) :
    ∃ p f row, StepView tx tx' step closed p f row := by
  refine ⟨fun _ => false, fun r => { r with status := closed }, entryRow tx step, ?_, ?_,
    fun _ => rfl, fun _ => rfl, fun _ => rfl, rfl, rfl, ?_⟩
  · rw [hrows, Table.update_eq_self fun _ _ => rfl]
  · intro r _ hr
    simp at hr
  · simp [htype, entryRow]

/-- Every running row of the step is closed. -/
private theorem step_view_of_step {closed : StepExecutionStatus}
    {f : StepExecution → StepExecution}
    (hrows : tx'.db.stepExecutions = Table.update (Db.runningAt tx.inst.id step.id) f
      (tx.db.stepExecutions ++ [entryRow tx step]))
    (htype : step.type.external = false) (hkey : ∀ r, (f r).key = r.key)
    (hattempt : ∀ r, (f r).attemptNumber = r.attemptNumber)
    (hstatus : ∀ r, (f r).status = closed) :
    ∃ p f row, StepView tx tx' step closed p f row := by
  refine ⟨Db.runningAt tx.inst.id step.id, f, f (entryRow tx step), ?_,
    fun r _ hr => ⟨hr, htype⟩, hkey, hattempt, hstatus, hkey _, hattempt _, ?_⟩
  · rw [hrows]
    simp [entry_runningAt]
  · simp [htype, hstatus]

/-- Only the new row is closed. -/
private theorem step_view_of_id {closed : StepExecutionStatus}
    {f : StepExecution → StepExecution}
    (hfresh : ∀ r ∈ tx.db.stepExecutions, r.id < tx.db.nextId)
    (hrows : tx'.db.stepExecutions = Table.update (fun r => decide (r.id = tx.db.nextId)) f
      (tx.db.stepExecutions ++ [entryRow tx step]))
    (htype : step.type.external = false) (hkey : ∀ r, (f r).key = r.key)
    (hattempt : ∀ r, (f r).attemptNumber = r.attemptNumber)
    (hstatus : ∀ r, (f r).status = closed) :
    ∃ p f row, StepView tx tx' step closed p f row := by
  have hnone : ∀ r ∈ tx.db.stepExecutions, decide (r.id = tx.db.nextId) = false := by
    intro r hr
    have := hfresh r hr
    simp only [decide_eq_false_iff_not]
    omega
  refine ⟨fun _ => false, f, f (entryRow tx step), ?_, ?_, hkey, hattempt, hstatus, hkey _,
    hattempt _, ?_⟩
  · rw [hrows, Table.update_append, Table.update_eq_self hnone, Table.update_eq_self fun _ _ => rfl]
    simp [entryRow]
  · intro r _ hr
    simp at hr
  · simp [htype, hstatus]

theorem step_view (h : Dispatched svc now d tx step tx' next)
    (hfresh : ∀ r ∈ tx.db.stepExecutions, r.id < tx.db.nextId) :
    ∃ p f row, StepView tx tx' step (closedStatus svc now tx.inst.vars step) p f row := by
  have hclosed : routingFails svc now tx.inst.vars step = false →
      closedStatus svc now tx.inst.vars step = .completed := by
    intro hpass
    simp [closedStatus, hpass]
  cases h with
  | service job rows htype hrows hids =>
    exact step_view_of_park (by simp [entryRow]) (by simp [htype, StepType.external])
  | user rows htype hrows hids =>
    exact step_view_of_park (by simp [entryRow]) (by simp [htype, StepType.external])
  | wait rows htype hrows hids =>
    exact step_view_of_park (by simp [entryRow]) (by simp [htype, StepType.external])
  | route g vars next htype hpass hnext =>
    rw [hclosed hpass]
    exact step_view_of_step rfl (by rcases htype with h | h <;> simp [h, StepType.external])
      (fun _ => rfl) (fun _ => rfl) (fun _ => rfl)
  | fork htype =>
    rw [hclosed (routingFails_eq_false (by simp [htype]) _)]
    exact step_view_of_step rfl (by simp [htype, StepType.external])
      (fun _ => rfl) (fun _ => rfl) (fun _ => rfl)
  | transform g vars htype hpass =>
    rw [hclosed hpass]
    exact step_view_of_id hfresh rfl (by simp [htype, StepType.external])
      (fun _ => rfl) (fun _ => rfl) (fun _ => rfl)
  | hold gateway htype hgateway hcount =>
    rw [hclosed (routingFails_eq_false (by simp [htype]) _)]
    exact step_view_of_id hfresh rfl (by simp [htype, StepType.external])
      (fun _ => rfl) (fun _ => rfl) (fun _ => rfl)
  | join gateway htype hgateway hcount =>
    rw [hclosed (routingFails_eq_false (by simp [htype]) _)]
    exact step_view_of_id hfresh rfl (by simp [htype, StepType.external])
      (fun _ => rfl) (fun _ => rfl) (fun _ => rfl)
  | finish chains htype ids hids =>
    rw [hclosed (routingFails_eq_false (by simp [htype]) _)]
    exact step_view_of_id hfresh rfl (by simp [htype, StepType.external])
      (fun _ => rfl) (fun _ => rfl) (fun _ => rfl)
  | fail reason htype hfails =>
    have hf : closedStatus svc now tx.inst.vars step = .failed := by simp [closedStatus, hfails]
    rw [hf]
    exact step_view_of_step rfl (by rcases htype with h | h | h <;> simp [h, StepType.external])
      (fun _ => rfl) (fun _ => rfl) (fun _ => rfl)

/-- A service task gets one unlocked job, and nothing else touches the jobs. -/
theorem job_view (h : Dispatched svc now d tx step tx' next) :
    (step.type ≠ .serviceTask ∧ tx'.db.jobs = tx.db.jobs) ∨
    (step.type = .serviceTask ∧ ∃ job : Job, tx'.db.jobs = tx.db.jobs ++ [job] ∧
      job.key = ⟨tx.db.nextId + 1, tx.inst.id, tx.db.nextId⟩ ∧ job.status = .unlocked ∧
      job.retriesRemaining = step.retryCount) := by
  cases h with
  | service job rows htype hrows hids =>
    refine .inr ⟨htype, _, by simp; rfl, rfl, rfl, rfl⟩
  | user rows htype hrows hids => exact .inl ⟨by simp [htype], rfl⟩
  | wait rows htype hrows hids => exact .inl ⟨by simp [htype], rfl⟩
  | route g vars next htype hpass hnext =>
    exact .inl ⟨by rcases htype with h | h <;> simp [h], rfl⟩
  | fork htype => exact .inl ⟨by simp [htype], rfl⟩
  | transform g vars htype hpass => exact .inl ⟨by simp [htype], rfl⟩
  | hold gateway htype hgateway hcount => exact .inl ⟨by simp [htype], rfl⟩
  | join gateway htype hgateway hcount => exact .inl ⟨by simp [htype], rfl⟩
  | finish chains htype ids hids => exact .inl ⟨by simp [htype], rfl⟩
  | fail reason htype hfails => exact .inl ⟨by rcases htype with h | h | h <;> simp [h], rfl⟩

/-- A user task gets one open task row, and nothing else touches the tasks. -/
theorem task_view (h : Dispatched svc now d tx step tx' next) :
    (step.type ≠ .userTask ∧ tx'.db.userTasks = tx.db.userTasks) ∨
    (step.type = .userTask ∧ ∃ task : UserTask, tx'.db.userTasks = tx.db.userTasks ++ [task] ∧
      task.key = ⟨⟨tx.db.nextId + 1, tx.inst.id, tx.db.nextId⟩, step.id⟩ ∧
      task.status = .opened) := by
  cases h with
  | service job rows htype hrows hids => exact .inl ⟨by simp [htype], by simp⟩
  | user rows htype hrows hids => exact .inr ⟨htype, _, rfl, rfl, rfl⟩
  | wait rows htype hrows hids => exact .inl ⟨by simp [htype], rfl⟩
  | route g vars next htype hpass hnext =>
    exact .inl ⟨by rcases htype with h | h <;> simp [h], rfl⟩
  | fork htype => exact .inl ⟨by simp [htype], rfl⟩
  | transform g vars htype hpass => exact .inl ⟨by simp [htype], rfl⟩
  | hold gateway htype hgateway hcount => exact .inl ⟨by simp [htype], rfl⟩
  | join gateway htype hgateway hcount => exact .inl ⟨by simp [htype], rfl⟩
  | finish chains htype ids hids => exact .inl ⟨by simp [htype], rfl⟩
  | fail reason htype hfails => exact .inl ⟨by rcases htype with h | h | h <;> simp [h], rfl⟩

/-- A parked step gets the schedule rows of its timers, under fresh ids, and
    nothing else touches the schedule. -/
theorem timer_view (h : Dispatched svc now d tx step tx' next) :
    (step.type.external = false ∧ tx'.db.boundaryEvents = tx.db.boundaryEvents ∧
      tx'.db.nextId = tx.db.nextId + 1) ∨
    (step.type.external = true ∧ ∃ rows start,
      tx'.db.boundaryEvents = tx.db.boundaryEvents ++ rows ∧
      List.Forall₂ (TimerRow now tx.inst.id tx.db.nextId) step.timers rows ∧
      rows.map (·.id) = List.range' start rows.length ∧
      (step.type = .serviceTask ∨ step.type = .userTask → tx.db.nextId + 1 < start) ∧
      tx.db.nextId < start ∧ tx'.db.nextId = start + rows.length) := by
  cases h with
  | service job rows htype hrows hids =>
    refine .inr ⟨by simp [htype, StepType.external], rows, _, by simp, hrows, hids, ?_, ?_, rfl⟩
    · intro _
      refine Nat.lt_of_lt_of_le ?_ (nextId_le_enqueue ..)
      exact Nat.lt_succ_self _
    · refine Nat.lt_of_lt_of_le ?_ (nextId_le_enqueue ..)
      simp only [Db.insertJob_nextId, enterStep_db_nextId]
      omega
  | user rows htype hrows hids =>
    exact .inr ⟨by simp [htype, StepType.external], rows, _, rfl, hrows, hids,
      fun _ => Nat.lt_succ_self _, by omega, rfl⟩
  | wait rows htype hrows hids =>
    exact .inr ⟨by simp [htype, StepType.external], rows, _, rfl, hrows, hids,
      fun h => by simp [htype] at h, by omega, rfl⟩
  | route g vars next htype hpass hnext =>
    exact .inl ⟨by rcases htype with h | h <;> simp [h, StepType.external], rfl, rfl⟩
  | fork htype => exact .inl ⟨by simp [htype, StepType.external], rfl, rfl⟩
  | transform g vars htype hpass => exact .inl ⟨by simp [htype, StepType.external], rfl, rfl⟩
  | hold gateway htype hgateway hcount => exact .inl ⟨by simp [htype, StepType.external], rfl, rfl⟩
  | join gateway htype hgateway hcount => exact .inl ⟨by simp [htype, StepType.external], rfl, rfl⟩
  | finish chains htype ids hids => exact .inl ⟨by simp [htype, StepType.external], rfl, rfl⟩
  | fail reason htype hfails =>
    exact .inl ⟨by rcases htype with h | h | h <;> simp [h, StepType.external], rfl, rfl⟩

end Dispatched

end Rochallor
