import Rochallor.Safety.Callbacks
import Rochallor.Safety.Isolation
import Rochallor.Safety.Status

/-! # Boundary timers

    `FireBoundaryEvent` claims a due timer before it looks at the instance and
    the source step.  A claim is final: the row is never unfired again and its
    id never reused, so a timer dispatches its target at most once.  The other
    side of it is that a claim made while the instance is not in flight uses
    the timer up, even if the instance is retried later.
-/

namespace Rochallor

/-! ## What the openings do to timers -/

/-- The step execution has left `RUNNING`. -/
def Closed (db : Db) (seID : Nat) : Prop :=
  ∃ se ∈ db.stepExecutions, se.id = seID ∧ se.status ≠ .running

theorem Closed.evolves {db db' : Db} {seID : Nat} (h : Closed db seID) (hev : db.Evolves db') :
    Closed db' seID := by
  obtain ⟨se, hse, hid, hclosed⟩ := h
  obtain ⟨se', hse', hlater⟩ := hev.steps.mem hse
  obtain rfl := hlater.closed hclosed
  exact ⟨se', hse', hid, hclosed⟩

/-- What an operation does to the schedule before its dispatches. -/
inductive TimersOpened (now : Time) (db : Db) (p : Plan) : Op → Prop
  /-- Nothing; in particular no timer is due. -/
  | same (op : Op) (h : p.tables.boundaryEvents = db.boundaryEvents)
      (hidle : ∀ eventID instanceID, op = .fireBoundaryEvent eventID instanceID →
        db.boundaryEvents.find? (Db.dueEvent now eventID instanceID) = none ∧
          p = .commit db none) :
      TimersOpened now db p op
  /-- A due timer is claimed, and used up or dispatched. -/
  | claimed (eventID : Nat) (inst : WorkflowInstance) (event : BoundaryEventSchedule)
      (hinst : db.getInstance inst.id = some inst)
      (hevent : db.boundaryEvents.find? (Db.dueEvent now eventID inst.id) = some event)
      (hfate : (p = .commit (db.markFired now eventID inst.id) none ∧
          (inst.status.inFlight = false ∨
            ∃ se, db.getStepExecution event.stepExecutionID = some se ∧ se.status ≠ .running)) ∨
        ∃ d tx se, p = .dispatch d tx [event.targetStepID] ∧
          db.getStepExecution event.stepExecutionID = some se ∧ Alive se inst ∧
          (event.interrupting = true → Closed tx.db event.stepExecutionID))
      (h : p.tables.boundaryEvents = (db.markFired now eventID inst.id).boundaryEvents) :
      TimersOpened now db p (.fireBoundaryEvent eventID inst.id)
  /-- The housekeeper removes obsolete rows. -/
  | swept (retention : Int)
      (h : p.tables.boundaryEvents = (db.deleteObsoleteBoundaryEvents now retention).boundaryEvents) :
      TimersOpened now db p (.deleteObsoleteBoundaryEvents retention)

section Openings

variable {svc : Service} {now : Time} {db : Db} {op : Op} {p : Plan}

theorem Advanced.timers {d : WorkflowDefinition} {tx tx' : Tx} {step : WorkflowStep}
    {next : List StepId} (h : Advanced now d tx step tx' next) :
    tx'.db.boundaryEvents = tx.db.boundaryEvents := by
  cases h <;> rfl

theorem Opened.timers (h : Opened svc now db op p) : TimersOpened now db p op := by
  cases h with
  | ignored op hrefused =>
    refine .same _ rfl ?_
    rintro eventID instanceID rfl
    exact ⟨hrefused, rfl⟩
  | jobAdvanced jobID workerID vars job se inst d step g json tx next hcb hacc hd hfind hadv =>
    exact .same _ hadv.timers fun _ _ h => by cases h
  | jobRetried jobID workerID errorMessage job se inst hcb hacc hretries =>
    exact .same _ (enqueueReplacement_boundaryEvents ..) fun _ _ h => by cases h
  | jobReplaced op jobID job se inst hop hcb halive hlocked =>
    refine .same _ (enqueueReplacement_boundaryEvents ..) ?_
    rintro eventID instanceID rfl
    rcases hop with h | ⟨h, -⟩ <;> cases h
  | polled workerID jobTypes max seconds lease rowLocked =>
    obtain ⟨jobs, hpoll⟩ := db.pollJobs_tables now workerID jobTypes max lease rowLocked
    exact .same _ (by rw [Plan.tables, hpoll]) fun _ _ h => by cases h
  | userTaskCompleted stepID vars inst d step result merged g tx next hinst hflight hd hfind
      htype hrows hadv => exact .same _ hadv.timers fun _ _ h => by cases h
  | waitSignalled stepID vars inst d step merged g tx next hinst hflight hd hfind htype hrows
      hadv => exact .same _ hadv.timers fun _ _ h => by cases h
  | timerConsumed eventID inst event hinst hevent hdead =>
    exact .claimed eventID inst event hinst hevent (.inl ⟨rfl, hdead⟩) rfl
  | timerInterrupts eventID inst event se d hinst hevent hinterrupting hse halive hd =>
    refine .claimed eventID inst event hinst hevent (.inr ⟨d, _, se, rfl, hse, halive, ?_⟩) rfl
    intro _
    refine ⟨_, Table.mem_update.mpr ⟨se, getStepExecution_mem hse, rfl⟩, ?_, ?_⟩
    · simpa using getStepExecution_id hse
    · simp
  | timerForks eventID inst event se d hinst hevent hinterrupting hse halive hd =>
    refine .claimed eventID inst event hinst hevent (.inr ⟨d, _, se, rfl, hse, halive, ?_⟩) rfl
    intro h
    rw [hinterrupting] at h
    cases h
  | housekept retention => exact .swept retention rfl
  | _ => exact .same _ rfl fun _ _ h => by cases h

/-- A row that runs after closing some is an old row, and not one of those. -/
theorem running_kept {q : StepExecution → Bool} {f : StepExecution → StepExecution}
    (hf : ∀ r, (f r).status ≠ .running) {rows : List StepExecution} {se : StepExecution}
    (hse : se ∈ Table.update q f rows) (hrun : se.status = .running) :
    se ∈ rows ∧ q se = false := by
  obtain ⟨r, hr, rfl⟩ := Table.mem_update.mp hse
  by_cases hq : q r = true
  · rw [if_pos hq] at hrun
    exact absurd hrun (hf r)
  · rw [if_neg hq]
    exact ⟨hr, by simpa using hq⟩

theorem running_of_update {q : StepExecution → Bool} {f : StepExecution → StepExecution}
    (hf : ∀ r, (f r).status ≠ .running) {rows : List StepExecution} {se : StepExecution}
    (hse : se ∈ Table.update q f rows) (hrun : se.status = .running) : se ∈ rows :=
  (running_kept hf hse hrun).1

theorem Advanced.running {d : WorkflowDefinition} {tx tx' : Tx} {step : WorkflowStep}
    {next : List StepId} (h : Advanced now d tx step tx' next) {se : StepExecution}
    (hse : se ∈ tx'.db.stepExecutions) (hrun : se.status = .running) :
    se ∈ tx.db.stepExecutions := by
  cases h with
  | on target htarget => exact hse
  | stop hnext hlen => exact hse
  | fail reason => exact running_of_update (fun _ => by simp) hse hrun

/-- An operation starts no step by itself. -/
theorem Opened.running (h : Opened svc now db op p) {se : StepExecution}
    (hse : se ∈ p.tables.stepExecutions) (hrun : se.status = .running) :
    se ∈ db.stepExecutions := by
  cases h with
  | outputsRejected jobID workerID vars job se' inst violations hcb hacc =>
    exact running_of_update (fun _ => by simp) hse hrun
  | jobCompleted jobID workerID vars job se' inst d step g hcb hacc hd hfind hnext =>
    exact running_of_update (fun _ => by simp) hse hrun
  | jobAdvanced jobID workerID vars job se' inst d step g json tx next hcb hacc hd hfind hadv =>
    exact running_of_update (fun _ => by simp) (hadv.running hse hrun) hrun
  | jobRetried jobID workerID errorMessage job se' inst hcb hacc hretries =>
    simpa [Plan.tables] using hse
  | jobFailed jobID workerID errorMessage retryable job se' inst hcb hacc =>
    exact running_of_update (fun _ => by simp) hse hrun
  | jobReplaced op jobID job se' inst hop hcb halive hlocked =>
    simpa [Plan.tables] using hse
  | polled workerID jobTypes max seconds lease rowLocked =>
    simpa [Plan.tables] using hse
  | userTaskCompleted stepID vars inst d step result merged g tx next hinst hflight hd hfind
      htype hrows hadv =>
    exact running_of_update (fun _ => by simp) (hadv.running hse hrun) hrun
  | waitSignalled stepID vars inst d step merged g tx next hinst hflight hd hfind htype hrows
      hadv =>
    exact running_of_update (fun _ => by simp) (hadv.running hse hrun) hrun
  | timerInterrupts eventID inst event se' d hinst hevent hinterrupting hse' halive hd =>
    exact running_of_update (fun _ => by simp) hse hrun
  | _ => exact hse

theorem Statuses.nextId_le {db db' : Db} (h : Statuses db db') : db.nextId ≤ db'.nextId := by
  induction h with
  | refl => exact Nat.le_refl _
  | tail _ hstep ih =>
    refine Nat.le_trans ih ?_
    cases hstep with
    | keep _ _ _ _ _ _ _ hnext => exact hnext
    | insert _ _ _ _ _ _ hnext => exact Nat.le_of_lt hnext
    | write _ _ _ _ _ _ _ _ _ _ _ _ _ hnext => exact hnext

end Openings

/-! ## Claims -/

/-- A committed claim of a timer. -/
structure TimerClaim where
  /-- The row, as it was before. -/
  event : BoundaryEventSchedule
  /-- The status of its instance at the time. -/
  status : InstanceStatus
  /-- Whether the call goes on to dispatch the timer's target. -/
  dispatched : Bool

/-- The timer a call claims, if it commits. -/
def claims (svc : Service) (db : Db) (call : Call) : List TimerClaim :=
  match call.op, transact svc db call with
  | .fireBoundaryEvent eventID instanceID, .ok _ =>
    match db.getInstance instanceID,
      db.boundaryEvents.find? (Db.dueEvent call.now eventID instanceID) with
    | some inst, some event =>
      [⟨event, inst.status, (dispatches svc db call).head?.any fun x =>
        decide (x.stepID = event.targetStepID)⟩]
    | _, _ => []
  | _, _ => []

/-- What is known of a claim. -/
structure IsClaim (db : Db) (now : Time) (c : TimerClaim) : Prop where
  due : db.boundaryEvents.find? (Db.dueEvent now c.event.id c.event.instanceID) = some c.event
  status : ∃ inst, db.getInstance c.event.instanceID = some inst ∧ c.status = inst.status
  fate : (c.dispatched = true ∧ ∃ se inst, db.getStepExecution c.event.stepExecutionID = some se ∧
      db.getInstance c.event.instanceID = some inst ∧ Alive se inst) ∨
    (c.dispatched = false ∧ (c.status.inFlight = false ∨
      ∃ se, db.getStepExecution c.event.stepExecutionID = some se ∧ se.status ≠ .running))

theorem dueEvent_iff {now : Time} {eventID instanceID : Nat} {r : BoundaryEventSchedule} :
    Db.dueEvent now eventID instanceID r = true ↔
      r.id = eventID ∧ r.instanceID = instanceID ∧ r.fired = false ∧ r.fireAt ≤ now := by
  simp [Db.dueEvent, and_assoc]

section Claims

variable {svc : Service} {db : Db} {call : Call} {c : TimerClaim}

/-- A committed plan that dispatches makes its first dispatch. -/
theorem dispatches_head {d : WorkflowDefinition} {tx : Tx} {stepID : StepId} {steps : List StepId}
    {r : Db × Option EngineError}
    (hp : plan svc call.now db call.op = .ok (.dispatch d tx (stepID :: steps)))
    (ht : transact svc db call = .ok r) :
    (dispatches svc db call).head? = some ⟨call.now, d, tx, stepID, steps⟩ := by
  have hsettle : Plan.settle svc call.now call.fuel (.dispatch d tx (stepID :: steps)) = .ok r := by
    unfold transact at ht
    rw [hp] at ht
    exact ht
  obtain ⟨tx', hrun, -⟩ := bind_eq_ok hsettle
  obtain ⟨n, t₁, next, hfuel, hstep, -⟩ := Agenda.run_cons hrun
  simp only [dispatches, ht, hp, Plan.dispatches, Plan.agenda, hfuel]
  rw [Agenda.trace_cons hstep]
  rfl

theorem dispatches_commit {db' : Db} {reply : Option EngineError}
    (hp : plan svc call.now db call.op = .ok (.commit db' reply)) : dispatches svc db call = [] := by
  unfold dispatches
  rw [hp]
  cases transact svc db call <;> rfl

theorem claims_spec (h : c ∈ claims svc db call) :
    IsClaim db call.now c ∧ call.op = .fireBoundaryEvent c.event.id c.event.instanceID ∧
      ∃ p r, plan svc call.now db call.op = .ok p ∧ transact svc db call = .ok r := by
  unfold claims at h
  split at h
  · rename_i eventID instanceID r hop ht
    split at h
    · rename_i inst event hinst hevent
      obtain rfl := List.mem_singleton.mp h
      obtain ⟨hid, hiid, -, -⟩ := dueEvent_iff.mp (List.find?_some hevent)
      obtain rfl := hid
      obtain rfl := hiid
      obtain ⟨p, hp, -⟩ := bind_eq_ok ht
      refine ⟨⟨hevent, ⟨inst, hinst, rfl⟩, ?_⟩, hop, p, r, hp, ht⟩
      have hopened := (plan_opened hp).timers
      generalize hop' : call.op = op at hopened
      cases hopened with
      | same op h hidle =>
        rw [(hidle event.id event.instanceID (hop'.symm.trans hop)).1] at hevent
        cases hevent
      | swept retention h =>
        rw [hop] at hop'
        cases hop'
      | claimed eventID' inst' event' hinst' hevent' hfate hrows =>
        rw [hop] at hop'
        obtain ⟨hide, hidi⟩ := Op.fireBoundaryEvent.inj hop'
        rw [← hidi] at hinst' hevent'
        rw [← hide] at hevent'
        obtain rfl : inst' = inst := Option.some.inj (hinst'.symm.trans hinst)
        obtain rfl : event' = event := Option.some.inj (hevent'.symm.trans hevent)
        rcases hfate with ⟨rfl, hdead⟩ | ⟨d, tx, se, rfl, hse, halive, -⟩
        · exact .inr ⟨by simp [dispatches_commit hp], hdead⟩
        · exact .inl ⟨by simp [dispatches_head hp ht], se, inst', hse, hinst, halive⟩
    · cases h
  · cases h

/-- A firing dispatches through a claim, and its target first. -/
theorem dispatches_claimed {eventID instanceID : Nat} {x : Dispatch}
    (hop : call.op = .fireBoundaryEvent eventID instanceID)
    (hx : (dispatches svc db call).head? = some x) :
    ∃ c ∈ claims svc db call, c.dispatched = true ∧ c.event.id = eventID ∧
      x.stepID = c.event.targetStepID := by
  cases ht : transact svc db call with
  | error e => simp [dispatches, ht] at hx
  | ok r =>
    obtain ⟨p, hp, -⟩ := bind_eq_ok ht
    have hopened := (plan_opened hp).timers
    generalize hop' : call.op = op at hopened
    cases hopened with
    | same op hrows hidle =>
      obtain ⟨-, rfl⟩ := hidle _ _ (hop'.symm.trans hop)
      simp [dispatches_commit hp] at hx
    | swept retention hrows =>
      rw [hop] at hop'
      cases hop'
    | claimed eventID' inst event hinst hevent hfate hrows =>
      rw [hop] at hop'
      obtain ⟨rfl, rfl⟩ := Op.fireBoundaryEvent.inj hop'
      rcases hfate with ⟨rfl, -⟩ | ⟨d, tx, se, rfl, -⟩
      · simp [dispatches_commit hp] at hx
      · have hhead := dispatches_head hp ht
        obtain rfl := Option.some.inj (hx.symm.trans hhead)
        refine ⟨⟨event, inst.status, true⟩, ?_, rfl, (dueEvent_iff.mp (List.find?_some hevent)).1,
          rfl⟩
        simp [claims, hop, ht, hinst, hevent, hhead]

theorem claims_length : (claims svc db call).length ≤ 1 := by
  unfold claims
  split
  · split <;> simp
  · simp

end Claims

/-! ## A timer dispatches once -/

/-- No timer with one of these ids can dispatch any more: its row is fired or
    gone, or its step execution has left `RUNNING`. -/
def Spent (ids : List Nat) (db : Db) : Prop :=
  ∀ id ∈ ids, id < db.nextId ∧ ∀ r ∈ db.boundaryEvents, r.id = id →
    r.fired = true ∨ Closed db r.stepExecutionID

/-- Rows of a spent timer stay spent as long as they only get fired. -/
private theorem spent_of_evolves {db db' : Db} (hev : db.Evolves db')
    {r r' : BoundaryEventSchedule} (hseID : r'.stepExecutionID = r.stepExecutionID)
    (hfired : r.fired = true → r'.fired = true)
    (h : r.fired = true ∨ Closed db r.stepExecutionID) :
    r'.fired = true ∨ Closed db' r'.stepExecutionID := by
  rcases h with h | h
  · exact .inl (hfired h)
  · exact .inr (hseID ▸ h.evolves hev)

theorem Opened.evolves {svc : Service} {now : Time} {db : Db} {op : Op} {p : Plan}
    (hwf : db.WF svc) (h : Opened svc now db op p) : db.Evolves p.tables := by
  have hest := (evolves_invariant svc db).opening 0 hwf (.refl db) trivial h
  cases p with
  | commit db reply => exact hest
  | dispatch d tx steps => exact hest
  | chain d tx steps source => exact hest

theorem spent_invariant (svc : Service) (ids : List Nat) :
    TxInvariant svc (fun db => db.WF svc) (fun d tx _ => TxWF svc d tx) (fun _ _ => True)
      (fun _ => True) (Spent ids) (fun _ tx _ => Spent ids tx.db) where
  opening := by
    intro db op now p _ hwf h _ hop
    have hev := hop.evolves hwf
    have key : Spent ids p.tables := by
      intro id hid
      obtain ⟨hlt, hspent⟩ := h id hid
      refine ⟨Nat.lt_of_lt_of_le hlt hop.statuses.nextId_le, ?_⟩
      intro r hr hrid
      cases hop.timers with
      | same op hrows hidle =>
        exact spent_of_evolves hev rfl (fun h => h) (hspent r (hrows ▸ hr) hrid)
      | claimed eventID inst event hinst hevent hfate hrows =>
        rw [hrows] at hr
        obtain ⟨r₀, hr₀, rfl⟩ := Table.mem_update.mp hr
        have hid₀ : r₀.id = id := by
          rw [← hrid]
          split <;> rfl
        refine spent_of_evolves hev ?_ ?_ (hspent r₀ hr₀ hid₀)
        · split <;> rfl
        · intro hf
          split
          · rfl
          · exact hf
      | swept retention hrows =>
        rw [hrows] at hr
        exact spent_of_evolves hev rfl (fun h => h) (hspent r (List.mem_filter.mp hr).1 hrid)
    cases p with
    | commit db reply => exact key
    | dispatch d tx steps => exact key
    | chain d tx steps source => exact key
  step := by
    intro now d tx step pending tx' next hwf h _ hfind hdisp id hid
    have hev := hdisp.evolves hwf hfind
    obtain ⟨hlt, hspent⟩ := h id hid
    rcases hdisp.timer_view with ⟨-, hrows, hn⟩ | ⟨-, rows, start, hrows, -, hids, -, hstart, hn⟩
    · refine ⟨by omega, fun r hr hrid => ?_⟩
      exact spent_of_evolves hev rfl (fun h => h) (hspent r (hrows ▸ hr) hrid)
    · refine ⟨by omega, ?_⟩
      intro r hr hrid
      rw [hrows] at hr
      rcases List.mem_append.mp hr with hr | hr
      · exact spent_of_evolves hev rfl (fun h => h) (hspent r hr hrid)
      · -- a new row has a new id
        have : r.id ∈ List.range' start rows.length := hids ▸ List.mem_map_of_mem hr
        rw [List.mem_range'_1] at this
        omega
  closing := fun _ h => h
  acknowledge := fun h => h

theorem spent_apply {svc : Service} {ids : List Nat} {db : Db} (hwf : db.WF svc)
    (h : Spent ids db) (call : Call) : Spent ids (apply svc db call) :=
  (((wf_invariant svc).and (spent_invariant svc ids)).apply ⟨hwf, h⟩ trivial
    fun _ _ => trivial).2

/-- What has been established before the dispatches holds after the call. -/
theorem TxInvariant.settle_tables {svc : Service} {C : Db → Call → Prop} {I : Db → Prop}
    (h : TxInvariant svc (fun db => db.WF svc) (fun d tx _ => TxWF svc d tx) C
      (fun _ => True) I (fun _ tx _ => I tx.db)) {db : Db} (hwf : db.WF svc) {now : Time} {op : Op}
    {fuel : Nat} {p : Plan} {r : Db × Option EngineError} (hp : plan svc now db op = .ok p)
    (hI : I p.tables) (hsettle : p.settle svc now fuel = .ok r) : I r.1 := by
  have hest := (wf_invariant svc).opening fuel trivial hwf trivial (plan_opened hp)
  have hboth : p.Establishes (fun db => db.WF svc ∧ I db) (fun d tx _ => TxWF svc d tx ∧ I tx.db) := by
    cases p with
    | commit db reply => exact ⟨hest, hI⟩
    | dispatch d tx steps => exact ⟨hest, hI⟩
    | chain d tx steps source => exact ⟨hest, hI⟩
  exact (((wf_invariant svc).and h).settle hboth (fun _ _ => trivial) hsettle).2

theorem Db.WF.timer_eq {svc : Service} {db : Db} (h : db.WF svc) {r r' : BoundaryEventSchedule}
    (hr : r ∈ db.boundaryEvents) (hr' : r' ∈ db.boundaryEvents) (hid : r.id = r'.id) : r = r' := by
  have hnd := h.shape.timer_ids.nodup
  simp only [Db.shape, List.map_map] at hnd
  exact Table.eq_of_key hnd hr hr' hid

theorem Db.WF.timer_lt {svc : Service} {db : Db} (h : db.WF svc) {r : BoundaryEventSchedule}
    (hr : r ∈ db.boundaryEvents) : r.id < db.nextId := by
  refine h.shape.timer_ids.lt _ ?_
  simp only [Db.shape, List.map_map]
  exact List.mem_map_of_mem hr

/-- What a committed call does to the rows before its dispatches. -/
theorem claims_plan {svc : Service} {db : Db} {call : Call} {c : TimerClaim}
    (h : c ∈ claims svc db call) : ∃ p r, plan svc call.now db call.op = .ok p ∧
      p.settle svc call.now call.fuel = .ok r ∧ apply svc db call = r.1 ∧
      p.tables.boundaryEvents =
        (db.markFired call.now c.event.id c.event.instanceID).boundaryEvents ∧
      (c.dispatched = true → c.event.interrupting = true →
        Closed p.tables c.event.stepExecutionID) := by
  obtain ⟨hc, hop, p, r, hp, ht⟩ := claims_spec h
  have hsettle : p.settle svc call.now call.fuel = .ok r := by
    unfold transact at ht
    rw [hp] at ht
    exact ht
  have happly : apply svc db call = r.1 := by
    unfold apply perform
    rw [ht]
  refine ⟨p, r, hp, hsettle, happly, ?_⟩
  have htimers := (plan_opened hp).timers
  generalize hop' : call.op = op at htimers
  cases htimers with
  | same op hrows hidle =>
    have hdue := hc.due
    rw [(hidle _ _ (hop'.symm.trans hop)).1] at hdue
    cases hdue
  | swept retention hrows =>
    rw [hop] at hop'
    cases hop'
  | claimed eventID inst event hinst hevent hfate hrows =>
    rw [hop] at hop'
    obtain ⟨hide, hidi⟩ := Op.fireBoundaryEvent.inj hop'
    refine ⟨by rw [hrows, hide, hidi], ?_⟩
    intro hdisp hint
    have hdue := hc.due
    rw [hide, hidi] at hdue
    obtain rfl := Option.some.inj (hevent.symm.trans hdue)
    rcases hc.fate with ⟨-, se, inst', hse, hinst', halive⟩ | ⟨hno, -⟩
    · rcases hfate with ⟨-, hdead⟩ | ⟨d, tx, se', rfl, -, -, hclosed⟩
      · -- the call found the instance and the step alive
        rw [hidi] at hinst'
        obtain rfl := Option.some.inj (hinst.symm.trans hinst')
        rcases hdead with hdead | ⟨se', hse', hdead⟩
        · rw [halive.1] at hdead
          cases hdead
        · obtain rfl := Option.some.inj (hse'.symm.trans hse)
          exact absurd halive.2 hdead
      · exact hclosed hint
    · rw [hdisp] at hno
      cases hno

/-- A claimed timer is spent. -/
theorem claims_spent {svc : Service} {db : Db} (hwf : db.WF svc) {call : Call} {c : TimerClaim}
    (h : c ∈ claims svc db call) : Spent [c.event.id] (apply svc db call) := by
  obtain ⟨p, r, hp, hsettle, happly, hrows, -⟩ := claims_plan h
  obtain ⟨hc, -⟩ := claims_spec h
  have hmem := List.mem_of_find?_eq_some hc.due
  rw [happly]
  refine (spent_invariant svc [c.event.id]).settle_tables hwf hp ?_ hsettle
  intro id hid
  obtain rfl := List.mem_singleton.mp hid
  refine ⟨Nat.lt_of_lt_of_le (hwf.timer_lt hmem) (plan_opened hp).statuses.nextId_le, ?_⟩
  intro r' hr' hrid
  rw [hrows] at hr'
  obtain ⟨r₀, hr₀, rfl⟩ := Table.mem_update.mp hr'
  by_cases hdue : Db.dueEvent call.now c.event.id c.event.instanceID r₀ = true
  · exact .inl (by simp [hdue])
  · rw [if_neg hdue] at hrid
    obtain rfl := hwf.timer_eq hr₀ hmem hrid
    exact absurd (List.find?_some hc.due) hdue

/-- The claims of a run. -/
def runClaims (svc : Service) (calls : List Call) : List TimerClaim :=
  Run.outputs (apply svc) (claims svc) {} calls

/-- The ids of the timers that have dispatched. -/
def dispatchedIds (cs : List TimerClaim) : List Nat :=
  (cs.filter (·.dispatched)).map (·.event.id)

theorem dispatchedIds_append (cs cs' : List TimerClaim) :
    dispatchedIds (cs ++ cs') = dispatchedIds cs ++ dispatchedIds cs' := by
  simp [dispatchedIds]

/-- A timer that dispatches was not spent. -/
theorem Spent.not_dispatched {svc : Service} {db : Db} (hwf : db.WF svc) {ids : List Nat}
    (h : Spent ids db) {call : Call} {c : TimerClaim} (hc : c ∈ claims svc db call)
    (hdisp : c.dispatched = true) : c.event.id ∉ ids := by
  intro hid
  obtain ⟨hclaim, -⟩ := claims_spec hc
  rcases hclaim.fate with ⟨-, se, inst, hse, -, halive⟩ | ⟨hno, -⟩
  · obtain ⟨-, hspent⟩ := h _ hid
    obtain ⟨-, -, hunfired, -⟩ := dueEvent_iff.mp (List.find?_some hclaim.due)
    rcases hspent _ (List.mem_of_find?_eq_some hclaim.due) rfl with hf | ⟨se', hse', hid', hclosed⟩
    · rw [hunfired] at hf
      cases hf
    · obtain rfl := hwf.step_eq hse' (getStepExecution_mem hse)
        (hid'.trans (getStepExecution_id hse).symm)
      exact hclosed halive.2
  · rw [hdisp] at hno
    cases hno

/-- The timers that have dispatched are distinct, and spent. -/
structure FiredOnce (svc : Service) (db : Db) (hist : List TimerClaim) : Prop where
  wf : db.WF svc
  nodup : (dispatchedIds hist).Nodup
  spent : Spent (dispatchedIds hist) db

theorem firedOnce_step {svc : Service} {db : Db} {hist : List TimerClaim}
    (h : FiredOnce svc db hist) (call : Call) :
    FiredOnce svc (apply svc db call) (hist ++ claims svc db call) := by
  obtain ⟨hwf, hnd, hspent⟩ := h
  have hold := spent_apply hwf hspent call
  suffices h : (dispatchedIds (hist ++ claims svc db call)).Nodup ∧
      Spent (dispatchedIds (hist ++ claims svc db call)) (apply svc db call) from
    ⟨wf_apply hwf call, h.1, h.2⟩
  have hlen : (claims svc db call).length ≤ 1 := claims_length
  rw [dispatchedIds_append]
  cases hcs : claims svc db call with
  | nil => simpa [dispatchedIds] using ⟨hnd, hold⟩
  | cons c rest =>
    have hc : c ∈ claims svc db call := by simp [hcs]
    obtain rfl : rest = [] := by
      rw [hcs] at hlen
      simpa using hlen
    cases hd : c.dispatched with
    | false => simpa [dispatchedIds, hd] using ⟨hnd, hold⟩
    | true =>
      have hnew := claims_spent hwf hc
      have hids : dispatchedIds [c] = [c.event.id] := by simp [dispatchedIds, hd]
      rw [hids]
      refine ⟨?_, ?_⟩
      · refine List.Nodup.append hnd (by simp) ?_
        intro id hid hid'
        obtain rfl := List.mem_singleton.mp hid'
        exact hspent.not_dispatched hwf hc hd hid
      · intro id hid
        rcases List.mem_append.mp hid with hid | hid
        · exact hold id hid
        · exact hnew id hid

theorem firedOnce_run (svc : Service) (calls : List Call) :
    FiredOnce svc (run svc calls) (runClaims svc calls) := by
  have h₀ : FiredOnce svc {} [] :=
    ⟨wf_empty svc, by simp [dispatchedIds], by simp [Spent, dispatchedIds]⟩
  have hstep : ∀ db hist call, FiredOnce svc db hist → True →
      FiredOnce svc (apply svc db call) (hist ++ claims svc db call) :=
    fun _ _ call h _ => firedOnce_step h call
  simpa [run, runClaims] using Run.history (G := fun _ _ => True) hstep h₀ (Run.guarded_true _ calls)

/-- An error is never committed: the call that returns it changes nothing. -/
theorem fireBoundaryEvent_error {svc : Service} {db : Db} {call : Call} {eventID instanceID : Nat}
    {e : EngineError} (hop : call.op = .fireBoundaryEvent eventID instanceID)
    (herr : (perform svc db call).2 = some e) : apply svc db call = db := by
  unfold apply
  unfold perform at herr ⊢
  cases ht : transact svc db call with
  | error e => rfl
  | ok r =>
    obtain ⟨p, hp, hsettle⟩ := bind_eq_ok ht
    rw [ht] at herr
    have hopened := plan_opened hp
    rw [hop] at hopened
    -- every way to commit answers without an error
    have hnone : r.2 = none := by
      cases hopened with
      | ignored _ _ =>
        cases hsettle
        rfl
      | timerConsumed _ _ _ _ _ _ =>
        cases hsettle
        rfl
      | timerInterrupts _ _ _ _ _ _ _ _ _ _ _ =>
        obtain ⟨_, _, hr⟩ := bind_eq_ok hsettle
        cases hr
        rfl
      | timerForks _ _ _ _ _ _ _ _ _ _ _ =>
        obtain ⟨_, _, hr⟩ := bind_eq_ok hsettle
        cases hr
        rfl
      | jobReplaced _ _ _ _ _ hop' _ _ _ => rcases hop' with h | ⟨h, -⟩ <;> cases h
    simp only at herr
    rw [hnone] at herr
    cases herr

/-! ## A step execution is closed once -/

/-- The step executions a call makes leave `RUNNING`. -/
def closings (svc : Service) (db : Db) (call : Call) : List Nat :=
  (db.stepExecutions.filter fun se => decide (se.status = .running) &&
    (apply svc db call).stepExecutions.all fun r =>
      decide (r.id = se.id → r.status ≠ .running)).map (·.id)

/-- The closings of a run. -/
def runClosings (svc : Service) (calls : List Call) : List Nat :=
  Run.outputs (apply svc) (closings svc) {} calls

/-- The step executions closed so far are distinct, and closed. -/
structure ClosedOnce (svc : Service) (db : Db) (hist : List Nat) : Prop where
  wf : db.WF svc
  nodup : hist.Nodup
  closed : ∀ seID ∈ hist, Closed db seID

section Closings

variable {svc : Service} {db : Db} {call : Call} {seID : Nat}

/-- A step execution is not both. -/
theorem Closed.not_running (hwf : db.WF svc) (h : Closed db seID) {se : StepExecution}
    (hse : se ∈ db.stepExecutions) (hid : se.id = seID) : se.status ≠ .running := by
  obtain ⟨se', hse', hid', hclosed⟩ := h
  obtain rfl := hwf.step_eq hse hse' (hid.trans hid'.symm)
  exact hclosed

theorem mem_closings (hwf : db.WF svc) : seID ∈ closings svc db call ↔
    (∃ se ∈ db.stepExecutions, se.id = seID ∧ se.status = .running) ∧
      Closed (apply svc db call) seID := by
  constructor
  · intro h
    obtain ⟨se, hse, rfl⟩ := List.mem_map.mp h
    simp only [List.mem_filter, Bool.and_eq_true, decide_eq_true_eq, List.all_eq_true] at hse
    obtain ⟨hse, hrun, hall⟩ := hse
    obtain ⟨se', hse', hlater⟩ := (evolves_apply hwf call).steps.mem hse
    have hid : se'.id = se.id := congrArg StepKey.id hlater.key
    exact ⟨⟨se, hse, rfl, hrun⟩, se', hse', hid, hall se' hse' hid⟩
  · rintro ⟨⟨se, hse, rfl, hrun⟩, hclosed⟩
    refine List.mem_map.mpr ⟨se, ?_, rfl⟩
    simp only [List.mem_filter, Bool.and_eq_true, decide_eq_true_eq, List.all_eq_true]
    exact ⟨hse, hrun, fun r hr hid => hclosed.not_running (wf_apply hwf call) hr hid⟩

theorem closings_nodup (hwf : db.WF svc) : (closings svc db call).Nodup := by
  have hnd := hwf.shape.step_ids.nodup
  simp only [Db.shape, List.map_map] at hnd
  exact hnd.sublist (List.filter_sublist.map _)

theorem closedOnce_step {hist : List Nat} (h : ClosedOnce svc db hist) (call : Call) :
    ClosedOnce svc (apply svc db call) (hist ++ closings svc db call) where
  wf := wf_apply h.wf call
  nodup := by
    refine List.Nodup.append h.nodup (closings_nodup h.wf) ?_
    intro seID hold hnew
    obtain ⟨⟨se, hse, hid, hrun⟩, -⟩ := (mem_closings h.wf).mp hnew
    exact (h.closed seID hold).not_running h.wf hse hid hrun
  closed := by
    intro seID hmem
    rcases List.mem_append.mp hmem with hold | hnew
    · exact (h.closed seID hold).evolves (evolves_apply h.wf call)
    · exact ((mem_closings h.wf).mp hnew).2

/-- An interrupting timer that dispatches closes its step execution. -/
theorem interrupting_closes (hwf : db.WF svc) {c : TimerClaim} (hc : c ∈ claims svc db call)
    (hdisp : c.dispatched = true) (hint : c.event.interrupting = true) :
    c.event.stepExecutionID ∈ closings svc db call := by
  obtain ⟨p, r, hp, hsettle, happly, -, hclosed⟩ := claims_plan hc
  obtain ⟨hclaim, -⟩ := claims_spec hc
  refine (mem_closings hwf).mpr ⟨?_, ?_⟩
  · rcases hclaim.fate with ⟨-, se, inst, hse, -, halive⟩ | ⟨hno, -⟩
    · exact ⟨se, getStepExecution_mem hse, getStepExecution_id hse, halive.2⟩
    · rw [hdisp] at hno
      cases hno
  · rw [happly]
    exact (hclosed hdisp hint).evolves (evolves_settle hwf hp hsettle)

end Closings

theorem closedOnce_run (svc : Service) (calls : List Call) :
    ClosedOnce svc (run svc calls) (runClosings svc calls) := by
  have h₀ : ClosedOnce svc {} [] := ⟨wf_empty svc, List.nodup_nil, by simp⟩
  have hstep : ∀ db hist call, ClosedOnce svc db hist → True →
      ClosedOnce svc (apply svc db call) (hist ++ closings svc db call) :=
    fun _ _ call h _ => closedOnce_step h call
  simpa [run, runClosings] using
    Run.history (G := fun _ _ => True) hstep h₀ (Run.guarded_true _ calls)

/-- Nothing else ever closes a step execution that a call closes. -/
theorem closings_exclusive {svc : Service} {calls : List Call} {call : Call} {seID : Nat}
    (h : seID ∈ closings svc (run svc calls) call) (more : List Call) :
    seID ∉ runClosings svc calls ∧
      seID ∉ Run.outputs (apply svc) (closings svc) (run svc (calls ++ [call])) more := by
  have hnd := (closedOnce_run svc (calls ++ call :: more)).nodup
  unfold runClosings at hnd
  rw [Run.outputs_append, Run.outputs] at hnd
  have hrun : Run.after (apply svc) {} calls = run svc calls := rfl
  have hnext : apply svc (run svc calls) call = run svc (calls ++ [call]) := by
    rw [run_append]
    rfl
  rw [hrun, hnext, List.nodup_append] at hnd
  obtain ⟨-, hrest, hbefore⟩ := hnd
  refine ⟨fun hmem => hbefore _ hmem _ (List.mem_append_left _ h) rfl, fun hmem => ?_⟩
  exact (List.nodup_append.mp hrest).2.2 _ h _ hmem rfl

end Rochallor
