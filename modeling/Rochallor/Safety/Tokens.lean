import Rochallor.Safety.Waiting

/-! # Tokens at a waiting step

    A branch that waits at a `USER_TASK` or a `WAIT` step is a running
    execution of that step.  Completing the task, or sending the signal, names
    the instance and the step, not the execution: it closes every running
    execution of the step and goes on once.  As long as no branch comes to a
    step where another one waits, that is one execution for one successor.
-/

namespace Rochallor

/-! ## What a transaction leaves of the rows -/

section Settle

variable {svc : Service} {now : Time} {fuel : Nat} {p : Plan} {r : Db × Option EngineError}

/-- The dispatches of a plan insert rows for their steps and tasks and leave
    the others alone. -/
theorem Plan.settle_rows
    (hwf : p.Establishes (fun db => db.WF svc) fun d tx _ => TxWF svc d tx)
    (hsettle : p.settle svc now fuel = .ok r) :
    (∃ new, r.1.stepExecutions = p.tables.stepExecutions ++ new) ∧
      ∃ new, r.1.userTasks = p.tables.userTasks ++ new := by
  have key : ∀ {d tx tx' steps}, TxWF svc d tx → dispatchAll svc now d fuel tx steps = .ok tx' →
      (∃ new, tx'.db.stepExecutions = tx.db.stepExecutions ++ new) ∧
        ∃ new, tx'.db.userTasks = tx.db.userTasks ++ new := by
    intro d tx tx' steps hwf hrun
    refine (Agenda.run_invariant (J := fun t _ => TxWF svc d t ∧
        (∃ new, t.db.stepExecutions = tx.db.stepExecutions ++ new) ∧
        ∃ new, t.db.userTasks = tx.db.userTasks ++ new)
      (G := fun _ => True) ?_ ⟨hwf, ⟨[], by simp⟩, [], by simp⟩ (fun _ _ => trivial) hrun).2
    rintro t stepID pending t' next ⟨hwf, ⟨new, hnew⟩, tasks, htasks⟩ - hs
    obtain ⟨step, hfind, hdisp⟩ := dispatchStep_dispatched hs
    obtain rfl := findStep_id hfind
    obtain ⟨row, hrows, -⟩ := hdisp.rows hwf hfind
    refine ⟨hdisp.wf hwf hfind, ?_, ?_⟩
    · exact ⟨new ++ [row], by rw [hrows, hnew, List.append_assoc]⟩
    · rcases hdisp.task_view with ⟨-, ht⟩ | ⟨-, task, ht, -⟩
      · exact ⟨tasks, by rw [ht, htasks]⟩
      · exact ⟨tasks ++ [task], by rw [ht, htasks, List.append_assoc]⟩
  cases p with
  | commit db reply =>
    cases hsettle
    exact ⟨⟨[], by simp [Plan.tables]⟩, [], by simp [Plan.tables]⟩
  | dispatch d tx steps =>
    obtain ⟨tx', hrun, hr⟩ := bind_eq_ok hsettle
    cases hr
    exact key hwf hrun
  | chain d tx steps source =>
    obtain ⟨tx', hrun, hr⟩ := bind_eq_ok hsettle
    cases hr
    exact key hwf hrun

end Settle

/-! ## Completing a task and sending a signal -/

/-- The user tasks a call makes leave `OPEN`. -/
def taskClosings (svc : Service) (db : Db) (call : Call) : List Nat :=
  (db.userTasks.filter fun u => decide (u.status = .opened) &&
    (apply svc db call).userTasks.all fun r =>
      decide (r.id = u.id → r.status ≠ .opened)).map (·.id)

/-- The steps a call goes on to. -/
def goesOnTo (svc : Service) (db : Db) (call : Call) : List StepId :=
  match plan svc call.now db call.op with
  | .ok p => (p.agenda.map (·.2.2)).getD []
  | .error _ => []

section Completions

variable {svc : Service} {now : Time} {db : Db} {call : Call}

/-- Going on past a step whose executions are all closed closes nothing more. -/
theorem Advanced.rows {d : WorkflowDefinition} {tx tx' : Tx} {step : WorkflowStep}
    {next : List StepId} (h : Advanced now d tx step tx' next)
    (hclear : ∀ r ∈ tx.db.stepExecutions, Db.runningAt tx.inst.id step.id r = false) :
    tx'.db.stepExecutions = tx.db.stepExecutions ∧ tx'.db.userTasks = tx.db.userTasks ∧
      next.length ≤ 1 := by
  cases h with
  | on target htarget hnext => exact ⟨rfl, rfl, Nat.le_refl 1⟩
  | stop hnext hlen => exact ⟨rfl, rfl, Nat.zero_le 1⟩
  | fail reason => exact ⟨Table.update_eq_self hclear, rfl, Nat.zero_le 1⟩

/-- No row runs at a step whose rows have just been closed. -/
private theorem none_runningAt {instanceID : Nat} {stepID : StepId}
    {f : StepExecution → StepExecution} (hf : ∀ r, (f r).status ≠ .running)
    {rows : List StepExecution} :
    ∀ r ∈ Table.update (Db.runningAt instanceID stepID) f rows,
      Db.runningAt instanceID stepID r = false := by
  intro r hr
  by_contra hrun
  simp only [Bool.not_eq_false] at hrun
  have hstatus : r.status = .running := by
    simp only [Db.runningAt, Bool.and_eq_true, decide_eq_true_eq] at hrun
    exact hrun.2
  rw [(running_kept hf hr hstatus).2] at hrun
  cases hrun

/-- A plan that closes the executions at a step, and the tasks `q` picks. -/
private theorem closings_of_plan (hwf : db.WF svc) {p : Plan} {r : Db × Option EngineError}
    (hp : plan svc call.now db call.op = .ok p) (hsettle : p.settle svc call.now call.fuel = .ok r)
    {instanceID : Nat} {stepID : StepId} {f : StepExecution → StepExecution}
    {q : UserTask → Bool} {g : UserTask → UserTask}
    (hs : p.tables.stepExecutions =
      Table.update (Db.runningAt instanceID stepID) f db.stepExecutions)
    (ht : p.tables.userTasks = Table.update q g db.userTasks)
    (hf : ∀ r, (f r).key = r.key ∧ (f r).status ≠ .running)
    (hg : ∀ r, (g r).key = r.key ∧ (g r).status ≠ .opened)
    (hq : ∀ r, q r = true → r.status = .opened) :
    closings svc db call = (db.stepExecutions.filter (Db.runningAt instanceID stepID)).map (·.id) ∧
      taskClosings svc db call = (db.userTasks.filter q).map (·.id) := by
  have happly := apply_of_plan hp hsettle
  have hest := (wf_invariant svc).opening call.fuel trivial hwf trivial (plan_opened hp)
  obtain ⟨⟨new, hnew⟩, tasks, htasks⟩ := Plan.settle_rows hest hsettle
  have hafter := wf_apply hwf call
  rw [happly] at hafter
  rw [hs] at hnew
  rw [ht] at htasks
  refine ⟨?_, ?_⟩
  · have hnd := hafter.shape.step_ids.nodup
    simp only [Db.shape, List.map_map, hnew] at hnd
    unfold closings
    rw [happly, hnew]
    refine congrArg (List.map _) (Table.filter_closed ?_ (fun r => congrArg StepKey.id (hf r).1)
      (fun r => (hf r).2) hnd)
    intro r _ hr
    simp only [Db.runningAt, Bool.and_eq_true, decide_eq_true_eq] at hr
    exact hr.2
  · have hnd := hafter.shape.task_ids.nodup
    simp only [Db.shape, List.map_map, htasks] at hnd
    unfold taskClosings
    rw [happly, htasks]
    exact congrArg (List.map _) (Table.filter_closed (fun r _ hr => hq r hr)
      (fun r => congrArg (fun k : TaskKey => k.id) (hg r).1) (fun r => (hg r).2) hnd)

/-- What a call that completes a waiting step has done. -/
structure Completed (svc : Service) (db : Db) (call : Call) (instanceID : Nat) (stepID : StepId)
    (isTask : Bool) : Prop where
  steps : closings svc db call =
    (db.stepExecutions.filter (Db.runningAt instanceID stepID)).map (·.id)
  tasks : taskClosings svc db call =
    if isTask then (db.userTasks.filter (Db.openAt instanceID stepID)).map (·.id) else []
  next : (goesOnTo svc db call).length ≤ 1
  /-- The call is refused unless a row is there to be closed. -/
  found : if isTask then ∃ u ∈ db.userTasks, Db.openAt instanceID stepID u = true
    else ∃ se ∈ db.stepExecutions, Db.runningAt instanceID stepID se = true
  waits : ∃ inst ∈ db.instances, inst.id = instanceID ∧ ∃ d, Runs svc inst d ∧
    d.parksAt stepID = true

theorem completeUserTask_completed (hwf : db.WF svc) {instanceID : Nat} {stepID : StepId}
    {vars : GoMap Value} (hop : call.op = .completeUserTask instanceID stepID vars)
    (hok : (perform svc db call).2 = none) : Completed svc db call instanceID stepID true := by
  obtain ⟨p, r, hp, hsettle, -⟩ := perform_plan hok
  have hopened := plan_opened hp
  rw [hop] at hopened
  cases hopened with
  | ignored _ hrefused => cases hrefused
  | jobReplaced _ _ _ _ _ hop' _ _ _ => rcases hop' with h | ⟨h, -⟩ <;> cases h
  | userTaskCompleted _ _ inst d step result merged g tx next hinst hflight hd hfind htype hrows
      hadv =>
    have hstep := findStep_id hfind
    obtain ⟨hs, ht, hlen⟩ := hadv.rows (by
      rw [hstep]
      exact none_runningAt fun _ => by simp)
    obtain ⟨hsteps, htasks⟩ := closings_of_plan hwf hp hsettle hs ht (fun _ => ⟨rfl, by simp⟩)
      (fun _ => ⟨rfl, by simp⟩) (fun r hr => by
        simp only [Db.openAt, Bool.and_eq_true, decide_eq_true_eq] at hr
        exact hr.2)
    refine ⟨hsteps, by simpa using htasks, ?_, ?_, inst, getInstance_mem hinst, rfl, d, hd, ?_⟩
    · unfold goesOnTo
      rw [hp]
      exact hlen
    · obtain ⟨u, hu, hopen⟩ := List.countP_pos_iff.mp (Nat.pos_of_ne_zero hrows)
      exact ⟨u, hu, hopen⟩
    · rw [parksAt_of_find hfind, htype]
      rfl

theorem signalWait_completed (hwf : db.WF svc) {instanceID : Nat} {stepID : StepId}
    {vars : GoMap Value} (hop : call.op = .signalWait instanceID stepID vars)
    (hok : (perform svc db call).2 = none) : Completed svc db call instanceID stepID false := by
  obtain ⟨p, r, hp, hsettle, -⟩ := perform_plan hok
  have hopened := plan_opened hp
  rw [hop] at hopened
  cases hopened with
  | ignored _ hrefused => cases hrefused
  | jobReplaced _ _ _ _ _ hop' _ _ _ => rcases hop' with h | ⟨h, -⟩ <;> cases h
  | waitSignalled _ _ inst d step merged g tx next hinst hflight hd hfind htype hrows hadv =>
    have hstep := findStep_id hfind
    obtain ⟨hs, ht, hlen⟩ := hadv.rows (by
      rw [hstep]
      exact none_runningAt fun _ => by simp)
    -- a signal touches no task
    have ht' : tx.db.userTasks = Table.update (fun _ => false)
        (fun u => { u with status := .completed }) db.userTasks := by
      rw [ht, Table.update_eq_self fun _ _ => rfl]
      rfl
    obtain ⟨hsteps, htasks⟩ := closings_of_plan hwf hp hsettle hs ht' (fun _ => ⟨rfl, by simp⟩)
      (fun _ => ⟨rfl, by simp⟩) (fun _ h => by cases h)
    refine ⟨hsteps, by simpa using htasks, ?_, ?_, inst, getInstance_mem hinst, rfl, d, hd, ?_⟩
    · unfold goesOnTo
      rw [hp]
      exact hlen
    · obtain ⟨se, hse, hrun⟩ := List.countP_pos_iff.mp (Nat.pos_of_ne_zero hrows)
      exact ⟨se, hse, hrun⟩
    · rw [parksAt_of_find hfind, htype]
      rfl

end Completions

/-! ## At most one branch at a waiting step -/

/-- A branch comes to a waiting step at which another branch waits. -/
def Dispatch.crowds (x : Dispatch) : Bool :=
  x.definition.parksAt x.stepID &&
    x.tx.db.stepExecutions.any (Db.runningAt x.tx.inst.id x.stepID)

/-- At most one execution of each waiting step of an instance is running. -/
def Uncrowded (db : Db) : Prop :=
  ∀ a ∈ db.stepExecutions, ∀ b ∈ db.stepExecutions, a.status = .running → b.status = .running →
    a.instanceID = b.instanceID → a.stepID = b.stepID → a.stepType ≠ .serviceTask → a = b

theorem uncrowded_invariant (svc : Service) :
    TxInvariant svc (fun db => db.WF svc) (fun d tx _ => TxWF svc d tx) (fun _ _ => True)
      (fun x => x.crowds = false) Uncrowded (fun _ tx _ => Uncrowded tx.db) where
  opening := by
    intro db op now p fuel hwf hI _ hop
    -- an operation starts no step by itself
    have hsame : Uncrowded p.tables := by
      intro a ha b hb hra hrb
      exact hI a (hop.running ha hra) b (hop.running hb hrb) hra hrb
    cases p with
    | commit db reply => exact hsame
    | dispatch d tx steps => exact hsame
    | chain d tx steps source => exact hsame
  step := by
    intro now d tx step pending tx' next hwf hJ hG hfind hdisp
    obtain ⟨row, hrows, hkey, -, hstatus⟩ := hdisp.rows hwf hfind
    have hrow : row.instanceID = tx.inst.id ∧ row.stepID = step.id ∧ row.stepType = step.type :=
      ⟨congrArg StepKey.instanceID hkey, congrArg StepKey.stepID hkey,
        congrArg StepKey.stepType hkey⟩
    -- a row beside the new one would be crowded by it
    have hnone : ∀ a ∈ tx.db.stepExecutions, a.status = .running → row.status = .running →
        a.instanceID = row.instanceID → a.stepID = row.stepID → row.stepType = .serviceTask := by
      intro a ha hra hrr hi hs
      by_contra htype
      have hext : step.type.external = true := by
        by_contra hext
        rw [hstatus, if_neg hext] at hrr
        exact closedStatus_ne_running hrr
      have hparks : d.parksAt step.id = true := by
        rw [parksAt_of_find hfind]
        rw [hrow.2.2] at htype
        cases hst : step.type <;> simp_all [StepType.external]
      have hany : tx.db.stepExecutions.any (Db.runningAt tx.inst.id step.id) = true := by
        refine List.any_eq_true.mpr ⟨a, ha, ?_⟩
        simp [Db.runningAt, hra, hi.trans hrow.1, hs.trans hrow.2.1]
      simp [Dispatch.crowds, hparks, hany] at hG
    intro a ha b hb hra hrb hi hs htype
    rw [hrows] at ha hb
    rcases List.mem_append.mp ha with hold | hnew <;> rcases List.mem_append.mp hb with hold' | hnew'
    · exact hJ a hold b hold' hra hrb hi hs htype
    · obtain rfl := List.mem_singleton.mp hnew'
      have ha' := hwf.step_type hold (hi.trans hrow.1) (by rw [hs, hrow.2.1]; exact hfind)
      rw [ha', ← hrow.2.2] at htype
      exact absurd (hnone a hold hra hrb hi hs) htype
    · obtain rfl := List.mem_singleton.mp hnew
      exact absurd (hnone b hold' hrb hra hi.symm hs.symm) htype
    · rw [List.mem_singleton.mp hnew, List.mem_singleton.mp hnew']
  closing := fun _ hJ => hJ
  acknowledge := fun hI => hI

section Unique

variable {svc : Service} {db : Db} {instanceID : Nat} {stepID : StepId}

/-- The one execution that runs at a waiting step. -/
theorem Uncrowded.filter_running (h : Uncrowded db) (hwf : db.WF svc) {se : StepExecution}
    (hse : se ∈ db.stepExecutions) (hrun : Db.runningAt instanceID stepID se = true)
    (hwaits : se.stepType ≠ .serviceTask) :
    db.stepExecutions.filter (Db.runningAt instanceID stepID) = [se] := by
  have hnd := hwf.shape.step_ids.nodup
  simp only [Db.shape, List.map_map] at hnd
  refine Table.filter_eq_singleton hnd hse hrun ?_
  intro r hr hrr
  simp only [Db.runningAt, Bool.and_eq_true, decide_eq_true_eq] at hrun hrr
  exact (h se hse r hr hrun.2 hrr.2 (hrun.1.1.trans hrr.1.1.symm) (hrun.1.2.trans hrr.1.2.symm)
    hwaits).symm

/-- The one task that is open at a user task. -/
theorem Uncrowded.filter_open (h : Uncrowded db) (hwf : db.WF svc) (hdel : Delivery db)
    {u : UserTask} (hu : u ∈ db.userTasks) (hopen : Db.openAt instanceID stepID u = true) :
    (∃ se ∈ db.stepExecutions, se.id = u.stepExecutionID ∧ se.stepType = .userTask ∧
      Db.runningAt instanceID stepID se = true) ∧
      db.userTasks.filter (Db.openAt instanceID stepID) = [u] := by
  -- every open task at the step belongs to an execution that runs there
  have hstep : ∀ v ∈ db.userTasks, Db.openAt instanceID stepID v = true →
      ∃ se ∈ db.stepExecutions, se.id = v.stepExecutionID ∧ se.stepType = .userTask ∧
        Db.runningAt instanceID stepID se = true := by
    intro v hv hvopen
    simp only [Db.openAt, Bool.and_eq_true, decide_eq_true_eq] at hvopen
    obtain ⟨⟨hvi, hvs⟩, hvopen⟩ := hvopen
    obtain ⟨se, hse, hid, hrun⟩ := hdel.opened v hv hvopen
    have hkey := hwf.task_step_of_id hv hse hid
    have hi : se.instanceID = v.instanceID := congrArg StepKey.instanceID hkey
    have hs : se.stepID = v.stepID := congrArg StepKey.stepID hkey
    exact ⟨se, hse, hid, congrArg StepKey.stepType hkey,
      by simp [Db.runningAt, hi, hs, hvi, hvs, hrun]⟩
  obtain ⟨se, hse, hid, htype, hrun⟩ := hstep u hu hopen
  refine ⟨⟨se, hse, hid, htype, hrun⟩, ?_⟩
  have hnd := hwf.shape.task_ids.nodup
  simp only [Db.shape, List.map_map] at hnd
  refine Table.filter_eq_singleton hnd hu hopen ?_
  intro v hv hvopen
  obtain ⟨se', hse', hid', -, hrun'⟩ := hstep v hv hvopen
  have hone := h.filter_running hwf hse hrun (by simp [htype])
  have hmem : se' ∈ db.stepExecutions.filter (Db.runningAt instanceID stepID) :=
    List.mem_filter.mpr ⟨hse', hrun'⟩
  rw [hone] at hmem
  obtain rfl := List.mem_singleton.mp hmem
  -- and an execution has one open task
  have hse_run : se'.status = .running := by
    simp only [Db.runningAt, Bool.and_eq_true, decide_eq_true_eq] at hrun
    exact hrun.2
  have hcount := hdel.task se' hse hse_run htype
  rw [List.countP_eq_length_filter, List.length_eq_one_iff] at hcount
  obtain ⟨w, hw⟩ := hcount
  have hin : ∀ x ∈ db.userTasks, Db.openAt instanceID stepID x = true →
      se'.id = x.stepExecutionID → x = w := by
    intro x hx hxopen hxid
    have hxmem : x ∈ db.userTasks.filter (openFor se'.id) := by
      simp only [Db.openAt, Bool.and_eq_true, decide_eq_true_eq] at hxopen
      simp [List.mem_filter, hx, openFor, hxid, hxopen.2]
    rw [hw] at hxmem
    exact List.mem_singleton.mp hxmem
  rw [hin v hv hvopen hid', hin u hu hopen hid]

end Unique

/-- Two reviews in parallel that both lead to one signature. -/
def signedOnce : WorkflowDefinition where
  id := "signed-once"
  version := 1
  name := "signed once"
  steps := [
    { id := "fork", name := "fork", type := .parallelGateway,
      parallelNextSteps := ["legal", "risk"], joinStep := "join" },
    { id := "legal", name := "legal", type := .userTask, nextStep := "sign" },
    { id := "risk", name := "risk", type := .userTask, nextStep := "sign" },
    { id := "sign", name := "sign", type := .userTask, nextStep := "join" },
    { id := "join", name := "join", type := .joinGateway, nextStep := "end" },
    { id := "end", name := "end", type := .endStep }]

/-- The legal review is done. -/
def legalDone : List Call :=
  [signedOnce.start, ⟨.completeUserTask 0 "legal" [], 1, 16⟩]

/-- Both reviews are done, and both branches wait for the signature. -/
def bothDone : List Call :=
  legalDone ++ [⟨.completeUserTask 0 "risk" [], 2, 16⟩]

def sign : Call := ⟨.completeUserTask 0 "sign" [], 3, 16⟩

end Rochallor
