import Rochallor.Framework.Worth
import Rochallor.Safety.Forks

/-! # The work of a workflow

    Retries, timers and parallel branches apart, an instance goes through its
    definition.  If no step of the definition leads back to itself, there is an
    end to that: the number of step executions is bounded by the definition and
    the number of manual retries, whatever the calls and their order.

    A running execution is worth the steps it can go on to, a timer that has not
    fired is worth its target, and each execution on record has cost one.  Calls
    add to this account only where they start the instance or retry a step.
-/

namespace Rochallor

/-! ## Where a step leads -/

/-- The steps an execution of the step can bring about: those it goes on to,
    and the targets of its timers. -/
def WorkflowStep.leads (step : WorkflowStep) : List StepId :=
  step.onward ++ step.timers.map (·.targetStepId)

/-- The same by step id; there are none if the step does not exist. -/
def WorkflowDefinition.leads (d : WorkflowDefinition) (stepID : StepId) : List StepId :=
  (findStep d stepID).elim [] (·.leads)

/-- No step leads back to itself. -/
def WorkflowDefinition.Acyclic (d : WorkflowDefinition) : Prop :=
  ∀ stepID, ¬ Relation.TransGen (fun a b => b ∈ d.leads a) stepID stepID

theorem WorkflowDefinition.Acyclic.exists_worth {d : WorkflowDefinition} (h : d.Acyclic) :
    ∃ w, Agenda.Worth d.leads w := by
  have hitems : ∀ {stepID}, d.leads stepID ≠ [] → stepID ∈ d.steps.map (·.id) := by
    intro stepID hleads
    unfold WorkflowDefinition.leads at hleads
    cases hfind : findStep d stepID with
    | none => simp [hfind] at hleads
    | some step => exact mem_of_findStep hfind
  exact Agenda.exists_worth hitems h

/-! ## The account of an instance -/

section Account

variable (d : WorkflowDefinition) (w : StepId → Nat) (i : Nat)

/-- What the completion of a running execution of the step can go on to. -/
def promise (stepID : StepId) : Nat :=
  (((findStep d stepID).elim [] (·.onward)).map w).sum

/-- An execution of the instance counts for one, and for what it can go on to. -/
def StepExecution.account (r : StepExecution) : Nat :=
  if r.instanceID = i then
    if r.status = .running then promise d w r.stepID + 1 else 1
  else 0

/-- A timer of the instance counts for its target until it fires. -/
def BoundaryEventSchedule.account (r : BoundaryEventSchedule) : Nat :=
  if r.instanceID = i ∧ r.fired = false then w r.targetStepID else 0

def Db.account (db : Db) : Nat :=
  (db.stepExecutions.map (StepExecution.account d w i)).sum +
    (db.boundaryEvents.map (BoundaryEventSchedule.account w i)).sum

/-- What an operation adds to the account: it starts the instance, or it retries
    one of its steps. -/
def Op.grant (db : Db) : Op → Nat
  | .start _ _ _ _ | .startChain _ => if db.nextId = i then w ((d.steps.map (·.id)).headD "") else 0
  | .retryFailedStep instanceID stepID _ => if instanceID = i then w stepID else 0
  | _ => 0

end Account

section Accounts

variable {d : WorkflowDefinition} {w : StepId → Nat} {i : Nat}

/-- The executions of the instance are on the account. -/
theorem executions_le_account (db : Db) :
    db.stepExecutions.countP (fun r => decide (r.instanceID = i)) ≤ db.account d w i := by
  refine Nat.le_trans ?_ (Nat.le_add_right _ _)
  induction db.stepExecutions with
  | nil => exact Nat.le_refl _
  | cons r rest ih =>
    rw [List.countP_cons, List.map_cons, List.sum_cons]
    have hone : (if decide (r.instanceID = i) = true then 1 else 0) ≤ r.account d w i := by
      by_cases hi : r.instanceID = i
      · simp only [StepExecution.account, hi, decide_true, if_true]
        split <;> omega
      · simp [hi]
    omega

/-! ## Closing executions and firing timers -/

/-- A row that is closed, or left as it is. -/
theorem account_closed {r r' : StepExecution} (hkey : r'.key = r.key)
    (hstatus : r'.status = .running → r.status = .running) :
    r'.account d w i ≤ r.account d w i := by
  have hinst : r'.instanceID = r.instanceID := congrArg StepKey.instanceID hkey
  have hstep : r'.stepID = r.stepID := congrArg StepKey.stepID hkey
  unfold StepExecution.account
  rw [hinst, hstep]
  by_cases hi : r.instanceID = i
  · by_cases hrun : r'.status = .running
    · simp [hi, hrun, hstatus hrun]
    · simp only [hi, hrun, if_true, if_false]
      split <;> omega
  · simp [hi]

theorem account_rewritten {t t' : List StepExecution} (h : Rewritten t t') :
    (t'.map (StepExecution.account d w i)).sum ≤ (t.map (StepExecution.account d w i)).sum := by
  obtain ⟨f, rfl, hf, hclosed⟩ := h
  rw [List.map_map]
  refine List.sum_le_sum fun r hr => account_closed (hf r).1 fun hrun => ?_
  by_contra hne
  exact hne (hclosed r hr hne ▸ hrun)

/-- A running execution that is closed frees what it was to go on to. -/
theorem account_close {t : List StepExecution} {q : StepExecution → Bool}
    {f : StepExecution → StepExecution} (hf : ∀ r, (f r).key = r.key ∧ (f r).status ≠ .running)
    {se : StepExecution} (hse : se ∈ t) (hq : q se = true) (hrun : se.status = .running)
    (hi : se.instanceID = i) :
    ((Table.update q f t).map (StepExecution.account d w i)).sum + promise d w se.stepID ≤
      (t.map (StepExecution.account d w i)).sum := by
  unfold Table.update
  rw [List.map_map]
  refine List.sum_map_add_le (fun r _ => ?_) hse ?_
  · show (if q r then f r else r).account d w i ≤ r.account d w i
    split
    · exact account_closed (hf r).1 fun h => absurd h (hf r).2
    · exact Nat.le_refl _
  · show (if q se then f se else se).account d w i + promise d w se.stepID ≤ se.account d w i
    have hinst : (f se).instanceID = i := (congrArg StepKey.instanceID (hf se).1).trans hi
    simp only [hq, if_true, StepExecution.account, hinst, (hf se).2, hi, hrun, if_false]
    omega

/-- A timer that fires frees the worth of its target. -/
theorem account_fire {now : Time} {db : Db} {eventID instanceID : Nat} {e : BoundaryEventSchedule}
    (he : db.boundaryEvents.find? (Db.dueEvent now eventID instanceID) = some e) :
    ((db.markFired now eventID instanceID).boundaryEvents.map
        (BoundaryEventSchedule.account w i)).sum + (if instanceID = i then w e.targetStepID else 0) ≤
      (db.boundaryEvents.map (BoundaryEventSchedule.account w i)).sum := by
  have hdue := List.find?_some he
  obtain ⟨-, hinst, hunfired, -⟩ := dueEvent_iff.mp hdue
  rw [Db.markFired_boundaryEvents]
  unfold Table.update
  rw [List.map_map]
  refine List.sum_map_add_le (fun r _ => ?_) (List.mem_of_find?_eq_some he) ?_
  · simp only [Function.comp_apply]
    split
    · simp [BoundaryEventSchedule.account]
    · exact Nat.le_refl _
  · simp [BoundaryEventSchedule.account, hdue, hinst, hunfired]

/-! ## Openings -/

section Openings

variable {svc : Service} {now : Time} {db : Db} {op : Op} {p : Plan}

/-- No timer is set, and none fires twice. -/
theorem Opened.timer_account (h : Opened svc now db op p) :
    (p.tables.boundaryEvents.map (BoundaryEventSchedule.account w i)).sum ≤
      (db.boundaryEvents.map (BoundaryEventSchedule.account w i)).sum := by
  cases h.timers with
  | same op hrows hidle => rw [hrows]
  | claimed eventID inst event hinst hevent hfate hrows =>
    rw [hrows]
    exact Nat.le_trans (Nat.le_add_right _ _) (account_fire hevent)
  | swept retention hrows =>
    rw [hrows]
    exact ((List.filter_sublist ..).map _).sum_le_sum fun _ _ => Nat.zero_le _

/-- Before its dispatches an operation adds nothing. -/
theorem Opened.account_le (h : Opened svc now db op p) (hwf : db.WF svc) :
    p.tables.account d w i ≤ db.account d w i :=
  Nat.add_le_add (account_rewritten (h.rewritten hwf)) h.timer_account

/-- What a completed step goes on to has been promised by its execution. -/
theorem Advanced.promised {tx tx' : Tx} {step : WorkflowStep} {next : List StepId}
    (h : Advanced now d tx step tx' next) (hext : step.type.external = true)
    (hfind : findStep d step.id = some step) : (next.map w).sum ≤ promise d w step.id := by
  obtain ⟨hlen, hnext⟩ := h.onward hext
  unfold promise
  rw [hfind, Option.elim_some]
  cases next with
  | nil => exact Nat.zero_le _
  | cons t rest =>
    have hrest : rest = [] := List.length_eq_zero_iff.mp (by simpa using hlen)
    subst hrest
    exact (List.singleton_subperm_iff.mpr (hnext t (List.mem_cons_self ..))).sum_map_le

/-- A step that is completed and gone on from. -/
theorem account_advanced {tx tx' : Tx} {step : WorkflowStep} {next : List StepId}
    (h : Advanced now d tx step tx' next) (hext : step.type.external = true)
    (hfind : findStep d step.id = some step) {q : StepExecution → Bool}
    {f : StepExecution → StepExecution}
    (hrows : tx.db.stepExecutions = Table.update q f db.stepExecutions)
    (htimers : tx.db.boundaryEvents = db.boundaryEvents)
    (hf : ∀ r, (f r).key = r.key ∧ (f r).status ≠ .running) {se : StepExecution}
    (hse : se ∈ db.stepExecutions) (hq : q se = true) (hrun : se.status = .running)
    (hi : se.instanceID = i) (hstep : se.stepID = step.id) :
    tx'.db.account d w i + (next.map w).sum ≤ db.account d w i := by
  have hnext : (next.map w).sum ≤ promise d w step.id := h.promised hext hfind
  have hclose := account_close (d := d) (w := w) hf hse hq hrun hi
  have hlater := account_rewritten (d := d) (w := w) (i := i) h.rewritten
  rw [hrows] at hlater
  rw [hstep] at hclose
  unfold Db.account
  rw [h.timers, htimers]
  omega

/-- An open task belongs to an execution that runs at its step. -/
theorem running_of_open (hwf : db.WF svc) (hdel : Delivery db) {instanceID : Nat} {stepID : StepId}
    {u : UserTask} (hu : u ∈ db.userTasks) (hopen : Db.openAt instanceID stepID u = true) :
    ∃ se ∈ db.stepExecutions, Db.runningAt instanceID stepID se = true := by
  simp only [Db.openAt, Bool.and_eq_true, decide_eq_true_eq] at hopen
  obtain ⟨⟨hui, hus⟩, hopened⟩ := hopen
  obtain ⟨se, hse, hid, hrun⟩ := hdel.opened u hu hopened
  have hkey := hwf.task_step_of_id hu hse hid
  have hi : se.instanceID = u.instanceID := congrArg StepKey.instanceID hkey
  have hs : se.stepID = u.stepID := congrArg StepKey.stepID hkey
  exact ⟨se, hse, by simp [Db.runningAt, hi, hs, hui, hus, hrun]⟩

/-- A timer that fires is gone on from, whatever becomes of its step. -/
theorem account_fired {db' : Db} {eventID instanceID : Nat} {e : BoundaryEventSchedule}
    (he : db.boundaryEvents.find? (Db.dueEvent now eventID instanceID) = some e)
    (hi : instanceID = i)
    (htimers : db'.boundaryEvents = (db.markFired now eventID instanceID).boundaryEvents)
    (hexecs : (db'.stepExecutions.map (StepExecution.account d w i)).sum ≤
      (db.stepExecutions.map (StepExecution.account d w i)).sum) :
    db'.account d w i + ([e.targetStepID].map w).sum ≤ db.account d w i := by
  have hfire := account_fire (w := w) (i := i) he
  rw [if_pos hi] at hfire
  unfold Db.account
  rw [htimers, List.map_singleton, List.sum_singleton]
  omega

/-- What an operation goes on to is paid for, or granted. -/
theorem Opened.account_owed (h : Opened svc now db op p) (hwf : db.WF svc) (hdel : Delivery db)
    {tx : Tx} {steps : List StepId} (hp : p.agenda = some (d, tx, steps)) (hi : tx.inst.id = i) :
    tx.db.account d w i + (steps.map w).sum ≤ db.account d w i + op.grant d w i db := by
  have hle : p.tables.account d w i ≤ db.account d w i := h.account_le hwf
  have hexecs := account_rewritten (d := d) (w := w) (i := i) (h.rewritten hwf)
  cases h with
  | started definitionID version vars businessKey d json key hd hsteps =>
    cases hp
    have hid : db.nextId = i := hi
    simp only [Op.grant, hid, if_true, List.map_cons, List.map_nil, List.sum_cons, List.sum_nil]
    exact Nat.add_le_add_right hle _
  | chainStarted source d json key hd hsteps hclaim =>
    cases hp
    have hid : db.nextId = i := hi
    simp only [Op.grant, hid, if_true, List.map_cons, List.map_nil, List.sum_cons, List.sum_nil]
    exact Nat.add_le_add_right hle _
  | stepRetried inst stepID patch d g json hinst hfailed hlatest hd =>
    cases hp
    have hid : inst.id = i := hi
    simp only [Op.grant, hid, if_true, List.map_cons, List.map_nil, List.sum_cons, List.sum_nil]
    exact Nat.add_le_add_right hle _
  | jobAdvanced jobID workerID vars job se inst d step g json tx next hcb hacc hd hfind hadv =>
    cases hp
    have hid : inst.id = i := by
      rw [← hi]
      cases hadv <;> rfl
    have hstep := findStep_id hfind
    have hext : step.type.external = true := by
      simp [hcb.step_type hwf hd hfind, StepType.external]
    refine account_advanced hadv hext (hstep ▸ hfind) rfl rfl (fun r => ⟨rfl, by simp⟩)
      (getStepExecution_mem hcb.se_eq) (by simp) (alive_of_acceptsCallback hacc).1.2
      ((hcb.service hwf).2.trans hid) hstep.symm
  | userTaskCompleted stepID vars inst d step result merged g tx next hinst hflight hd hfind
      htype hrows hadv =>
    cases hp
    have hid : inst.id = i := by
      rw [← hi]
      cases hadv <;> rfl
    have hstep := findStep_id hfind
    obtain ⟨u, hu, hopen⟩ := List.countP_pos_iff.mp (Nat.pos_of_ne_zero hrows)
    obtain ⟨se, hse, hrun⟩ := running_of_open hwf hdel hu hopen
    have hat := hrun
    simp only [Db.runningAt, Bool.and_eq_true, decide_eq_true_eq] at hat
    exact account_advanced hadv (by simp [htype, StepType.external]) (hstep ▸ hfind) rfl rfl
      (fun r => ⟨rfl, by simp⟩) hse hrun hat.2 (hat.1.1.trans hid) (hat.1.2.trans hstep.symm)
  | waitSignalled stepID vars inst d step merged g tx next hinst hflight hd hfind htype hrows hadv =>
    cases hp
    have hid : inst.id = i := by
      rw [← hi]
      cases hadv <;> rfl
    have hstep := findStep_id hfind
    obtain ⟨se, hse, hrun⟩ := List.countP_pos_iff.mp (Nat.pos_of_ne_zero hrows)
    have hat := hrun
    simp only [Db.runningAt, Bool.and_eq_true, decide_eq_true_eq] at hat
    exact account_advanced hadv (by simp [htype, StepType.external]) (hstep ▸ hfind) rfl rfl
      (fun r => ⟨rfl, by simp⟩) hse hrun hat.2 (hat.1.1.trans hid) (hat.1.2.trans hstep.symm)
  | timerInterrupts eventID inst event se d hinst hevent hinterrupting hse halive hd =>
    cases hp
    exact Nat.le_trans (account_fired hevent hi rfl hexecs) (Nat.le_add_right _ _)
  | timerForks eventID inst event se d hinst hevent hinterrupting hse halive hd =>
    cases hp
    exact Nat.le_trans (account_fired hevent hi rfl hexecs) (Nat.le_add_right _ _)
  | _ => cases hp

end Openings

/-! ## Dispatches -/

section Dispatches

variable {svc : Service} {now : Time} {tx tx' : Tx} {step : WorkflowStep} {next : List StepId}

/-- The timers of a step execution, as they are set. -/
theorem account_timers {seID : Nat} {timers : List BoundaryEvent}
    {rows : List BoundaryEventSchedule} (h : List.Forall₂ (TimerRow now i seID) timers rows) :
    (rows.map (BoundaryEventSchedule.account w i)).sum =
      ((timers.map (·.targetStepId)).map w).sum := by
  induction h with
  | nil => rfl
  | cons hrow _ ih =>
    simp only [List.map_cons, List.sum_cons, ih, BoundaryEventSchedule.account, hrow.instanceID_eq,
      hrow.unfired, and_self, if_true, hrow.target_eq]

/-- A dispatch is paid for by the worth of its step. -/
theorem Dispatched.account_le (h : Dispatched svc now d tx step tx' next) (hwf : TxWF svc d tx)
    (hfind : findStep d step.id = some step) (hw : Agenda.Worth d.leads w) (hi : tx.inst.id = i) :
    tx'.db.account d w i + (next.map w).sum ≤ tx.db.account d w i + w step.id := by
  obtain ⟨row, hrows, hkey, -, hstatus⟩ := h.rows hwf hfind
  have hinst : row.instanceID = i := (congrArg StepKey.instanceID hkey).trans hi
  have hstep : row.stepID = step.id := congrArg StepKey.stepID hkey
  have hworth := hw step.id
  unfold WorkflowDefinition.leads WorkflowStep.leads at hworth
  rw [hfind, Option.elim_some, List.map_append, List.sum_append] at hworth
  have hnext : (next.map w).sum ≤ (step.automaticTargets.map w).sum := h.automatic.sum_map_le
  unfold Db.account
  rw [hrows, List.map_append, List.sum_append, List.map_singleton, List.sum_singleton]
  rcases h.timer_view with ⟨hext, htimers, -⟩ | ⟨hext, rows, start, htimers, hset, -⟩
  · -- the row of a step that passes at once is closed, and the worth goes to the next steps
    have hrow : row.account d w i = 1 := by
      rw [hext] at hstatus
      simp [StepExecution.account, hinst, hstatus, closedStatus_ne_running]
    have honward : step.onward = step.automaticTargets := by
      simp [WorkflowStep.onward, hext]
    rw [honward] at hworth
    rw [htimers, hrow]
    omega
  · -- a parked step keeps its worth, in its own row and in those of its timers
    have hrow : row.account d w i = (step.onward.map w).sum + 1 := by
      rw [hext] at hstatus
      simp [StepExecution.account, hinst, hstatus, promise, hstep, hfind]
    have hnone : next = [] := h.parked_next hext
    have hbells := account_timers (w := w) (hi ▸ hset)
    rw [htimers, List.map_append, List.sum_append, hbells, hrow, hnone, List.map_nil, List.sum_nil]
    omega

/-- A dispatch for another instance. -/
theorem Dispatched.account_other (h : Dispatched svc now d tx step tx' next) (hwf : TxWF svc d tx)
    (hfind : findStep d step.id = some step) {d' : WorkflowDefinition} (hi : tx.inst.id ≠ i) :
    tx'.db.account d' w i = tx.db.account d' w i := by
  obtain ⟨row, hrows, hkey, -⟩ := h.rows hwf hfind
  have hinst : row.instanceID ≠ i := fun hid => hi ((congrArg StepKey.instanceID hkey).symm.trans hid)
  have hrow : row.account d' w i = 0 := if_neg hinst
  have htimers : (tx'.db.boundaryEvents.map (BoundaryEventSchedule.account w i)).sum =
      (tx.db.boundaryEvents.map (BoundaryEventSchedule.account w i)).sum := by
    rcases h.timer_view with ⟨-, hsame, -⟩ | ⟨-, rows, start, hsame, hset, -⟩
    · rw [hsame]
    · rw [hsame, List.map_append, List.sum_append]
      have hzero : ∀ n ∈ rows.map (BoundaryEventSchedule.account w i), n = 0 := by
        intro n hn
        obtain ⟨r, hr, rfl⟩ := List.mem_map.mp hn
        obtain ⟨be, -, hrow⟩ := TimerRow.of_mem hset hr
        exact if_neg fun hboth => hi (hrow.instanceID_eq.symm.trans hboth.1)
      rw [List.sum_eq_zero hzero, Nat.add_zero]
  unfold Db.account
  rw [htimers, hrows, List.map_append, List.sum_append, List.map_singleton, List.sum_singleton,
    hrow, Nat.add_zero]

end Dispatches

end Accounts

/-! ## Runs -/

/-- The instance, if it is there, runs the definition. -/
def Owns (svc : Service) (d : WorkflowDefinition) (i : Nat) (db : Db) : Prop :=
  ∀ inst ∈ db.instances, inst.id = i → Runs svc inst d

section Runs

variable {svc : Service} {d : WorkflowDefinition} {w : StepId → Nat} {i : Nat} {db db' : Db}

theorem Owns.earlier (h : Owns svc d i db') (hev : db.Evolves db') : Owns svc d i db := by
  intro inst hinst hid
  obtain ⟨inst', hinst', hkey⟩ := hev.instances.mem hinst
  have hid' : inst'.id = inst.id := congrArg InstanceKey.id hkey
  exact (h inst' hinst' (hid'.trans hid)).of_key hkey.symm

/-- A transaction on the instance runs its definition. -/
theorem Owns.definition {tx : Tx} {d' : WorkflowDefinition} (h : Owns svc d i tx.db)
    (hwf : TxWF svc d' tx) (hi : tx.inst.id = i) : d' = d := by
  obtain ⟨row, hrow, hkey, -⟩ := hwf.mirror.row
  have hid : row.id = tx.inst.id := congrArg InstanceKey.id hkey
  have hruns := (h row hrow (hid.trans hi)).of_key hkey.symm
  exact Except.ok.inj (hwf.mirror.runs.symm.trans hruns)

/-- Whatever a call does, the account stays below what it was with the grant of
    the call. -/
theorem account_invariant (svc : Service) (hw : Agenda.Worth d.leads w) (bound : Nat) :
    TxInvariant svc (fun db => db.WF svc ∧ Delivery db) (fun d tx _ => TxWF svc d tx ∧ Delivery tx.db)
      (fun db call => Owns svc d i db → db.account d w i + call.op.grant d w i db ≤ bound)
      (fun _ => True) (fun db => Owns svc d i db → db.account d w i ≤ bound)
      (fun _ tx pending => Owns svc d i tx.db → tx.db.account d w i +
        (if tx.inst.id = i then (pending.map w).sum else 0) ≤ bound) where
  opening := by
    intro db op now p fuel hI₀ hI hC hop
    have hev : db.Evolves p.tables := hop.evolves hI₀.1
    have hle := hop.account_le (d := d) (w := w) (i := i) hI₀.1
    have hwf := (wf_invariant svc).opening fuel trivial hI₀.1 trivial hop
    -- the dispatches a plan still owes to the instance
    have howed : ∀ {d' : WorkflowDefinition} {tx : Tx} {steps : List StepId},
        p.agenda = some (d', tx, steps) → p.tables = tx.db → TxWF svc d' tx →
        Owns svc d i tx.db → tx.db.account d w i +
          (if tx.inst.id = i then (steps.map w).sum else 0) ≤ bound := by
      intro d' tx steps hp htables htx howns
      have hbefore : Owns svc d i db := howns.earlier (htables ▸ hev)
      split
      · rename_i hi
        obtain rfl := howns.definition htx hi
        exact Nat.le_trans (hop.account_owed hI₀.1 hI₀.2 hp hi) (hC hbefore)
      · rw [← htables]
        exact Nat.le_trans hle (hI hbefore)
    cases p with
    | commit db' reply => exact fun howns => Nat.le_trans hle (hI (howns.earlier hev))
    | dispatch d' tx steps => exact howed rfl rfl hwf
    | chain d' tx steps source => exact howed rfl rfl hwf
  step := by
    intro now d' tx step pending tx' next hJ₀ hJ _ hfind hdisp howns
    have hbefore : Owns svc d i tx.db := howns.earlier (hdisp.evolves hJ₀.1 hfind)
    have hbudget := hJ hbefore
    have hsame : tx'.inst.id = tx.inst.id := by
      obtain ⟨f, hv⟩ := hdisp.instance_view
      exact congrArg InstanceKey.id hv.inst_key
    rw [hsame]
    by_cases hi : tx.inst.id = i
    · obtain rfl := hbefore.definition hJ₀.1 hi
      have hpays := hdisp.account_le hJ₀.1 hfind hw hi
      rw [if_pos hi, List.map_cons, List.sum_cons] at hbudget
      rw [if_pos hi, List.map_append, List.sum_append]
      omega
    · rw [if_neg hi] at hbudget ⊢
      rwa [hdisp.account_other hJ₀.1 hfind hi]
  closing := by
    intro d' tx _ hJ howns
    have hbudget := hJ howns
    simp only [List.map_nil, List.sum_nil, ite_self, Nat.add_zero] at hbudget
    exact hbudget
  acknowledge := fun hI => hI

/-- Nothing is on the account of an instance that is yet to be started. -/
theorem account_unstarted (hwf : db.WF svc) (hi : db.nextId ≤ i) : db.account d w i = 0 := by
  have hexecs : ∀ n ∈ db.stepExecutions.map (StepExecution.account d w i), n = 0 := by
    intro n hn
    obtain ⟨r, hr, rfl⟩ := List.mem_map.mp hn
    have hlt := hwf.instance_lt r hr
    exact if_neg (by omega)
  have htimers : ∀ n ∈ db.boundaryEvents.map (BoundaryEventSchedule.account w i), n = 0 := by
    intro n hn
    obtain ⟨r, hr, rfl⟩ := List.mem_map.mp hn
    obtain ⟨k, hk, -, hinst⟩ := hwf.shape.timer_step r.key
      (by simpa [Db.shape] using ⟨r, hr, rfl⟩)
    obtain ⟨se, hse, rfl⟩ := List.mem_map.mp hk
    have hlt := hwf.instance_lt se hse
    have hsame : se.instanceID = r.instanceID := hinst
    exact if_neg (by omega)
  rw [Db.account, List.sum_eq_zero hexecs, List.sum_eq_zero htimers, Nat.add_zero]

/-- The steps of the instance a call retries. -/
def Op.retries (i : Nat) : Op → List StepId
  | .retryFailedStep instanceID stepID _ => if instanceID = i then [stepID] else []
  | _ => []

/-- The grant of a call, where the account is open only from the start on. -/
theorem grant_le (hwf : db.WF svc) (op : Op) : db.account d w i + op.grant d w i db ≤
    max (db.account d w i) (w ((d.steps.map (·.id)).headD "")) + ((op.retries i).map w).sum := by
  have hstart : db.account d w i + (if db.nextId = i then w ((d.steps.map (·.id)).headD "") else 0) ≤
      max (db.account d w i) (w ((d.steps.map (·.id)).headD "")) := by
    split
    · rename_i hi
      rw [account_unstarted hwf (Nat.le_of_eq hi)]
      omega
    · omega
  cases op with
  | start => exact Nat.le_trans hstart (Nat.le_add_right _ _)
  | startChain => exact Nat.le_trans hstart (Nat.le_add_right _ _)
  | retryFailedStep instanceID stepID patch =>
    unfold Op.grant Op.retries
    by_cases hi : instanceID = i
    · simp only [hi, if_true, List.map_singleton, List.sum_singleton]
      omega
    · simp only [hi, if_false, List.map_nil, List.sum_nil]
      omega
  | _ =>
    simp only [Op.grant, Op.retries, List.map_nil, List.sum_nil]
    omega

/-- What the calls can have spent on the instance. -/
theorem account_run (svc : Service) (hw : Agenda.Worth d.leads w) (calls : List Call)
    (howns : Owns svc d i (run svc calls)) :
    (run svc calls).account d w i ≤ w ((d.steps.map (·.id)).headD "") +
      ((calls.flatMap fun call => call.op.retries i).map w).sum := by
  induction calls using List.reverseRecOn with
  | nil => exact Nat.zero_le _
  | append_singleton calls call ih =>
    have hrun : run svc (calls ++ [call]) = apply svc (run svc calls) call := Run.after_append ..
    have hwf := wf_run svc calls
    rw [hrun] at howns ⊢
    have hbefore : Owns svc d i (run svc calls) := howns.earlier (evolves_apply hwf call)
    have hbudget := ih hbefore
    have hgrant := grant_le (d := d) (w := w) (i := i) hwf call.op
    have hrule := ((wf_invariant svc).and (delivery_invariant svc)).and
      (account_invariant (i := i) svc hw (max ((run svc calls).account d w i)
        (w ((d.steps.map (·.id)).headD "")) + ((call.op.retries i).map w).sum))
    have hle := (hrule.apply ⟨⟨hwf, delivery_run svc calls⟩,
      fun _ => Nat.le_trans (Nat.le_add_right _ _) hgrant⟩ (fun _ => hgrant)
      fun _ _ => trivial).2 howns
    simp only [List.flatMap_append, List.flatMap_singleton, List.map_append, List.sum_append]
    omega

end Runs

/-- Steps that are ordered by what they lead to. -/
theorem WorkflowDefinition.Acyclic.of_rank {d : WorkflowDefinition} (rank : StepId → Nat)
    (h : ∀ step ∈ d.steps, ∀ t ∈ step.leads, rank t < rank step.id) : d.Acyclic := by
  have hedge : ∀ {a b}, b ∈ d.leads a → rank b < rank a := by
    intro a b hb
    unfold WorkflowDefinition.leads at hb
    cases hfind : findStep d a with
    | none => simp [hfind] at hb
    | some step =>
      rw [hfind, Option.elim_some] at hb
      rw [← findStep_id hfind]
      exact h step (findStep_mem hfind) b hb
  have hpath : ∀ {a b}, Relation.TransGen (fun a b => b ∈ d.leads a) a b → rank b < rank a := by
    intro a b hab
    induction hab with
    | single hb => exact hedge hb
    | tail _ hb ih => exact Nat.lt_trans (hedge hb) ih
  exact fun stepID hcycle => Nat.lt_irrefl _ (hpath hcycle)

/-- An instance of an acyclic definition has a bounded number of step
    executions: the bound is fixed by the definition and grows only with the
    manual retries, whatever the calls, their order and their outcomes. -/
theorem acyclic_executions_bounded (d : WorkflowDefinition) (hd : d.Acyclic) :
    ∃ w : StepId → Nat, ∀ (svc : Service) (calls : List Call),
      ∀ inst ∈ (run svc calls).instances, Runs svc inst d →
        (run svc calls).stepExecutions.countP (fun r => decide (r.instanceID = inst.id)) ≤
          w ((d.steps.map (·.id)).headD "") +
            ((calls.flatMap fun call => call.op.retries inst.id).map w).sum := by
  obtain ⟨w, hw⟩ := hd.exists_worth
  refine ⟨w, fun svc calls inst hinst hruns => ?_⟩
  have howns : Owns svc d inst.id (run svc calls) := by
    intro inst' hinst' hid
    obtain rfl := (wf_run svc calls).instance_eq hinst' hinst hid
    exact hruns
  exact Nat.le_trans (executions_le_account _) (account_run svc hw calls howns)

/-- A charge, which reminds somebody when it takes long, beside a review. -/
def shipOrder : WorkflowDefinition where
  id := "ship-order"
  version := 1
  name := "ship order"
  steps := [
    { id := "fork", name := "fork", type := .parallelGateway,
      parallelNextSteps := ["charge", "review"], joinStep := "join" },
    { id := "charge", name := "charge", type := .serviceTask, jobType := "charge",
      nextStep := "join", boundaryEvents := [⟨.timer, "PT30S", false, "remind"⟩] },
    { id := "review", name := "review", type := .userTask, nextStep := "join" },
    { id := "remind", name := "remind", type := .userTask, nextStep := "end" },
    { id := "join", name := "join", type := .joinGateway, nextStep := "end" },
    { id := "end", name := "end", type := .endStep }]

theorem acyclic_executions_bounded_shipOrder :
    (run (.ofList [shipOrder]) [shipOrder.start]).stepExecutions.map (·.stepID) =
      ["fork", "charge", "review"] ∧
    ∃ w : StepId → Nat, ∀ (svc : Service) (calls : List Call),
      ∀ inst ∈ (run svc calls).instances, Runs svc inst shipOrder →
        (run svc calls).stepExecutions.countP (fun r => decide (r.instanceID = inst.id)) ≤
          w "fork" + ((calls.flatMap fun call => call.op.retries inst.id).map w).sum :=
  ⟨by decide +kernel, acyclic_executions_bounded shipOrder
    (.of_rank (["end", "remind", "join", "review", "charge", "fork"].idxOf ·) (by decide))⟩

end Rochallor
