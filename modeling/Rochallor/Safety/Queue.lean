import Mathlib
import Rochallor.Framework.WorkQueue
import Rochallor.Safety.Leases
import Rochallor.Safety.Recovery

/-! # The jobs as a work queue

    The executions of the service tasks and their job rows are one queue of
    leased tasks: an execution is a task, each of its jobs an attempt.  What the
    queue calls a lease is a locked row, and what the polls, heartbeats,
    failures, sweeps and forced retries do to the rows is what the queue allows.
    A job id is never used twice, so it tells the attempts of a task apart.
-/

namespace Rochallor

/-! ## The abstraction -/

/-- When the lease runs out; a row without a time is never held. -/
def Job.expiry (r : Job) : WithBot Time :=
  match r.lockExpiresAt with
  | none => ⊥
  | some t => t

/-- The attempt a job is. -/
def Job.attempt (r : Job) : WorkQueue.Attempt String (WithBot Time) where
  id := r.id
  retries := r.retriesRemaining
  lease := if r.status = .locked then some (r.workerID.getD "", r.expiry) else none

/-- An execution of a service task. -/
def serviceExecution (seID : Nat) (r : StepExecution) : Bool :=
  decide (r.id = seID) && decide (r.stepType = .serviceTask)

/-- The task an execution is. -/
def Db.task (db : Db) (seID : Nat) : Option (WorkQueue.Task String (WithBot Time)) :=
  (db.stepExecutions.find? (serviceExecution seID)).map fun se =>
    match se.status, db.jobs.find? (liveFor seID) with
    | .running, some job => .offered job.attempt
    | _, _ => .closed

/-- What an operation does to the queue. -/
def Op.action (now : Time) : Op → WorkQueue.Action String (WithBot Time)
  | .poll workerID _ _ seconds _ =>
    match leaseSeconds seconds with
    | .ok lease => .lease workerID ((now + lease * 1000000000 : Time) : WithBot Time)
    | .error _ => .other
  | .heartbeat _ jobID workerID _ => .renew jobID workerID now
  | .failJob jobID workerID _ true => .handBack jobID workerID now
  | .sweepLease jobID => .recover jobID now
  | .retryJob jobID => .replace jobID
  | _ => .other

theorem valid_iff {r : Job} {now : Time} :
    (r.lockExpiresAt.any fun t => decide (now < t)) = true ↔ (now : WithBot Time) < r.expiry := by
  unfold Job.expiry
  cases r.lockExpiresAt with
  | none => simp
  | some t => simp

theorem Job.attempt_locked {r : Job} (h : r.status = .locked) :
    r.attempt.lease = some (r.workerID.getD "", r.expiry) :=
  if_pos h

theorem Job.attempt_unlocked {r : Job} (h : r.status = .unlocked) : r.attempt.lease = none := by
  unfold Job.attempt
  simp [h]

/-- The engine accepts the reports the queue accepts. -/
theorem accepts_of_acceptsCallback {now : Time} {job : Job} {se : StepExecution}
    {inst : WorkflowInstance} {workerID : String}
    (h : (jobExecution now job se inst).acceptsCallback workerID = true) :
    job.attempt.Accepts workerID (now : WithBot Time) := by
  intro owner expiry hlease
  unfold Job.attempt at hlease
  split at hlease
  · rename_i hlocked
    cases hlease
    simp only [JobExecution.acceptsCallback, jobExecution, hlocked, Bool.and_eq_true,
      Bool.or_eq_true, decide_eq_true_eq, beq_iff_eq, reduceCtorEq, true_and, false_or] at h
    exact ⟨h.2.1, valid_iff.mp h.2.2⟩
  · cases hlease

section Tasks

variable {svc : Service} {db : Db} {se : StepExecution}

theorem Db.WF.find_service (hwf : db.WF svc) (hse : se ∈ db.stepExecutions)
    (htype : se.stepType = .serviceTask) :
    db.stepExecutions.find? (serviceExecution se.id) = some se := by
  cases hfind : db.stepExecutions.find? (serviceExecution se.id) with
  | none =>
    have hnone := List.find?_eq_none.mp hfind se hse
    simp [serviceExecution, htype] at hnone
  | some r =>
    have hr := List.find?_some hfind
    simp only [serviceExecution, Bool.and_eq_true, decide_eq_true_eq] at hr
    rw [hwf.step_eq (List.mem_of_find?_eq_some hfind) hse hr.1]

theorem task_closed (hwf : db.WF svc) (hse : se ∈ db.stepExecutions)
    (htype : se.stepType = .serviceTask) (hclosed : se.status ≠ .running) :
    db.task se.id = some .closed := by
  unfold Db.task
  rw [hwf.find_service hse htype]
  simp only [Option.map_some]
  split <;> simp_all

theorem task_offered (hwf : db.WF svc) (hdel : Delivery db) (hse : se ∈ db.stepExecutions)
    (htype : se.stepType = .serviceTask) (hrun : se.status = .running) {r : Job} (hr : r ∈ db.jobs)
    (hown : r.stepExecutionID = se.id) (hlive : r.status.live = true) :
    db.task se.id = some (.offered r.attempt) := by
  unfold Db.task
  rw [hwf.find_service hse htype]
  cases hfind : db.jobs.find? (liveFor se.id) with
  | none =>
    have hnone := List.find?_eq_none.mp hfind r hr
    simp [liveFor, hown, hlive] at hnone
  | some r' =>
    have hr' := List.find?_some hfind
    simp only [liveFor, Bool.and_eq_true, decide_eq_true_eq] at hr'
    rw [hdel.live_unique hse hrun htype hr (List.mem_of_find?_eq_some hfind) hlive hr'.2 hown hr'.1]
    simp [hrun]

theorem task_unknown {seID : Nat}
    (h : ∀ se ∈ db.stepExecutions, se.id = seID → se.stepType ≠ .serviceTask) :
    db.task seID = none := by
  unfold Db.task
  rw [Option.map_eq_none_iff, List.find?_eq_none]
  intro se hse
  simp only [serviceExecution, Bool.and_eq_true, decide_eq_true_eq, not_and]
  exact h se hse

/-- The rows behind an attempt on offer. -/
theorem offered_rows {seID : Nat} {a : WorkQueue.Attempt String (WithBot Time)}
    (h : db.task seID = some (.offered a)) :
    ∃ se ∈ db.stepExecutions, se.id = seID ∧ se.stepType = .serviceTask ∧ se.status = .running ∧
      ∃ r ∈ db.jobs, r.stepExecutionID = seID ∧ r.status.live = true ∧ a = r.attempt := by
  unfold Db.task at h
  obtain ⟨se, hfind, hse⟩ := Option.map_eq_some_iff.mp h
  have hservice := List.find?_some hfind
  simp only [serviceExecution, Bool.and_eq_true, decide_eq_true_eq] at hservice
  refine ⟨se, List.mem_of_find?_eq_some hfind, hservice.1, hservice.2, ?_⟩
  split at hse
  · rename_i r hrun hjob
    cases hse
    have hlive := List.find?_some hjob
    simp only [liveFor, Bool.and_eq_true, decide_eq_true_eq] at hlive
    exact ⟨hrun, r, List.mem_of_find?_eq_some hjob, hlive.1, hlive.2, rfl⟩
  · cases hse

end Tasks

/-! ## Turns of the jobs -/

/-- The second job is what a turn of the queue makes of the first. -/
structure Takes (act : WorkQueue.Action String (WithBot Time)) (fresh : Nat) (r r' : Job) : Prop where
  live : r'.status.live = true
  step : r'.stepExecutionID = r.stepExecutionID
  turn : WorkQueue.Turn act fresh (some (.offered r.attempt)) (some (.offered r'.attempt))

/-- What an operation does to the job rows before its dispatches. -/
inductive JobTurns (act : WorkQueue.Action String (WithBot Time)) (db db' : Db) : Prop
  | rows (p : Job → Bool) (f : Job → Job) (hjobs : db'.jobs = Table.update p f db.jobs)
      (hkey : ∀ r, (f r).key = r.key)
      (hturn : ∀ r ∈ db.jobs, p r = true → r.status.live = true →
        Closed db' r.stepExecutionID ∨ Takes act db.nextId r (f r))
  | replaced (job new : Job) (p : Job → Bool) (f : Job → Job) (hjob : job ∈ db.jobs)
      (hjobs : db'.jobs = Table.update p f db.jobs ++ [new]) (hkey : ∀ r, (f r).key = r.key)
      (hp : ∀ r ∈ db.jobs, p r = true → r = job) (hid : new.id = db.nextId)
      (hwaits : new.status = .unlocked) (hturn : Takes act db.nextId job new)

section Turns

variable {svc : Service} {now : Time} {db db' : Db} {op : Op} {p : Plan}
  {act : WorkQueue.Action String (WithBot Time)}

theorem JobTurns.same (h : db'.jobs = db.jobs) : JobTurns act db db' :=
  .rows (fun _ => false) id (by rw [Table.update_id, h]) (fun _ => rfl) fun _ _ hp _ => by cases hp

/-- The job of a callback is closed with its execution. -/
theorem JobTurns.finished (hwf : db.WF svc) {jobID : Nat} {job : Job} {se : StepExecution}
    {inst : WorkflowInstance} (hcb : Callback db jobID job se inst) {f : Job → Job}
    (hjobs : db'.jobs = Table.update (fun r => decide (r.id = jobID)) f db.jobs)
    (hkey : ∀ r, (f r).key = r.key) (hclosed : Closed db' se.id) : JobTurns act db db' := by
  refine .rows _ f hjobs hkey fun r hr hid _ => .inl ?_
  rw [hcb.job_step_id hwf r hr hid]
  exact hclosed

/-- The jobs of an execution are closed with it. -/
theorem JobTurns.withdrawn (seID : Nat) {q : Job → Bool} {f : Job → Job}
    (hjobs : db'.jobs = Table.update q f db.jobs) (hkey : ∀ r, (f r).key = r.key)
    (hq : ∀ r, q r = true → r.stepExecutionID = seID) (hclosed : Closed db' seID) :
    JobTurns act db db' := by
  refine .rows q f hjobs hkey fun r _ hpick _ => .inl ?_
  rw [hq r hpick]
  exact hclosed

/-- A poll leases waiting attempts. -/
theorem pollJobs_turns (hwf : db.WF svc) {workerID : String} {jobTypes : List String} {max : Nat}
    {lease : Int} {rowLocked : List Nat} :
    JobTurns (.lease workerID ((now + lease * 1000000000 : Time) : WithBot Time)) db
      (db.pollJobs now workerID jobTypes max lease rowLocked).2 := by
  unfold Db.pollJobs
  split
  · exact .same rfl
  · refine .rows _ _ rfl (fun _ => rfl) fun r hr hclaim _ => .inr ⟨rfl, rfl, ?_⟩
    have hunlocked := claimed_unlocked hwf hr (List.contains_iff_mem.mp hclaim)
    exact .leased r.attempt workerID _ (Job.attempt_unlocked hunlocked) rfl

theorem renewed_turn {later : Time} {workerID : String} {seconds : Int} {r : Job}
    (hlocked : r.status = .locked) (howner : r.workerID.getD "" = workerID)
    (hvalid : (now : WithBot Time) < r.expiry) (fresh : Nat) :
    Takes (.renew r.id workerID now) fresh r (renewed later seconds r) := by
  refine ⟨by simp [renewed, hlocked, JobStatus.live], rfl, ?_⟩
  have hlonger : r.expiry ≤ (renewed later seconds r).expiry := by
    unfold Job.expiry renewed
    cases r.lockExpiresAt with
    | none => exact le_refl _
    | some t => exact WithBot.coe_le_coe.mpr (le_max_left ..)
  have hattempt : (renewed later seconds r).attempt =
      { r.attempt with lease := some (workerID, (renewed later seconds r).expiry) } := by
    simp [Job.attempt, renewed, hlocked, howner, Job.expiry]
  rw [hattempt]
  exact .renewed r.attempt workerID r.expiry _ now (howner ▸ Job.attempt_locked hlocked) hvalid
    hlonger rfl

theorem plan_turns (hp : plan svc now db op = .ok p) (hwf : db.WF svc) :
    JobTurns (op.action now) db p.tables := by
  -- an execution closed by its id
  have hclosed : ∀ {jobID : Nat} {job : Job} {se : StepExecution} {inst : WorkflowInstance}
      {db' : Db} {f : StepExecution → StepExecution}, Callback db jobID job se inst →
      db'.stepExecutions = Table.update (fun x => decide (x.id = se.id)) f db.stepExecutions →
      (∀ x, (f x).id = x.id) → (∀ x, (f x).status ≠ .running) → Closed db' se.id :=
    fun hcb hs hid hf => closed_of_update (getStepExecution_mem hcb.se_eq) hs hid hf
  cases plan_opened hp with
  | ignored op hrefused => exact .same rfl
  | started => exact .same rfl
  | chainStarted => exact .same rfl
  | outputsRejected jobID workerID vars job se inst violations hcb hacc =>
    refine .withdrawn se.id rfl (fun _ => rfl) ?_
      (hclosed hcb rfl (fun _ => rfl) fun _ => by simp)
    intro r hr
    simp only [Bool.and_eq_true, decide_eq_true_eq] at hr
    exact hr.1
  | jobCompleted jobID workerID vars job se inst d step g hcb hacc =>
    exact .finished hwf hcb rfl (fun _ => rfl) (hclosed hcb rfl (fun _ => rfl) fun _ => by simp)
  | jobAdvanced jobID workerID vars job se inst d step g json tx next hcb hacc hd hstep hadv =>
    have hclose : Closed (closeJob now db jobID se.id workerID vars) se.id :=
      hclosed hcb rfl (fun _ => rfl) fun _ => by simp
    refine .finished hwf hcb hadv.jobs (fun _ => rfl) (hclose.evolves (hadv.evolves ?_))
    exact (Db.Evolves.refl _).updateInstance rfl rfl rfl rfl fun _ => rfl
  | jobRetried jobID workerID errorMessage job se inst hcb hacc hretries =>
    obtain ⟨hjob, hid⟩ := getJob_mem hcb.job_eq
    refine .replaced job _ (fun r => decide (r.id = jobID)) _ hjob (enqueueReplacement_jobs ..)
      (fun _ => rfl) (fun r hr hr' => hcb.job_unique hwf r hr (of_decide_eq_true hr')) rfl rfl ?_
    subst hid
    exact ⟨rfl, rfl, .handedBack job.attempt _ workerID now (accepts_of_acceptsCallback hacc) hretries
      rfl (Nat.le_refl _) (Job.attempt_unlocked rfl) rfl⟩
  | jobFailed jobID workerID errorMessage retryable job se inst hcb hacc =>
    exact .finished hwf hcb rfl (fun _ => rfl) (hclosed hcb rfl (fun _ => rfl) fun _ => by simp)
  | jobReplaced op jobID job se inst hop hcb halive hlocked =>
    obtain ⟨hjob, hid⟩ := getJob_mem hcb.job_eq
    subst hid
    refine .replaced job _ (fun r => decide (r.id = job.id) && decide (r.status = .locked)) _ hjob
      (enqueueReplacement_jobs ..) (fun _ => rfl) ?_ rfl rfl ⟨rfl, rfl, ?_⟩
    · intro r hr hpick
      simp only [Bool.and_eq_true, decide_eq_true_eq] at hpick
      exact hwf.job_eq hr hjob hpick.1
    · rcases hop with rfl | ⟨rfl, hlost⟩
      · exact .replaced job.attempt _ _ _ (Job.attempt_locked hlocked) rfl (Nat.le_refl _)
          (Job.attempt_unlocked rfl) rfl
      · have hlost' : ¬ (now : WithBot Time) < job.expiry := by
          rw [← valid_iff]
          exact Bool.eq_false_iff.mp hlost
        exact .recovered job.attempt _ _ _ now (Job.attempt_locked hlocked) hlost' rfl (Nat.le_refl _)
          (Job.attempt_unlocked rfl) rfl
  | leaseExtended later jobID workerID seconds lease job se inst hcb halive hlocked howner hvalid =>
    obtain ⟨hjob, hid⟩ := getJob_mem hcb.job_eq
    subst hid
    refine .rows _ _ rfl (fun _ => rfl) fun r hr hpick _ => .inr ?_
    simp only [renewable, Bool.and_eq_true, decide_eq_true_eq] at hpick
    obtain rfl := hwf.job_eq hr hjob hpick.1.1.1
    exact renewed_turn hlocked howner (valid_iff.mp hvalid) db.nextId
  | polled workerID jobTypes max seconds lease rowLocked =>
    simp only [plan, pollWithLease] at hp
    cases hlease : leaseSeconds seconds with
    | error e =>
      rw [hlease] at hp
      cases hp
    | ok granted =>
      rw [hlease] at hp
      have htables : (db.pollJobs now workerID jobTypes max lease rowLocked).2 =
          (db.pollJobs now workerID jobTypes max granted rowLocked).2 :=
        (congrArg Plan.tables (Except.ok.inj hp)).symm
      rw [Op.action, hlease, Plan.tables, htables]
      exact pollJobs_turns hwf
  | userTaskCompleted stepID vars inst d step result merged g tx next hinst hflight hd hstep htype
      hrows hadv => exact .same hadv.jobs
  | waitSignalled stepID vars inst d step merged g tx next hinst hflight hd hstep htype hrows hadv =>
    exact .same hadv.jobs
  | timerConsumed => exact .same rfl
  | timerInterrupts eventID inst event se d hinst hevent hinterrupting hse halive hd =>
    refine .withdrawn se.id rfl (fun _ => rfl) ?_
      (closed_of_update (getStepExecution_mem hse) rfl (fun _ => rfl) fun _ => by simp)
    intro r hr
    simp only [Bool.and_eq_true, decide_eq_true_eq] at hr
    exact hr.1
  | timerForks => exact .same rfl
  | housekept => exact .same rfl
  | cancelled => exact .same rfl
  | stepRetried => exact .same rfl

end Turns

/-! ## Rows that a call adds -/

/-- The rows that are new are numbered as such; a new execution of a service
    task runs, and a new job waits. -/
structure Arrivals (db db' : Db) : Prop where
  next : db.nextId ≤ db'.nextId
  steps : ∀ r' ∈ db'.stepExecutions, (∃ r ∈ db.stepExecutions, r.key = r'.key) ∨
    (db.nextId ≤ r'.id ∧ (r'.stepType = .serviceTask → r'.status = .running))
  jobs : ∀ r' ∈ db'.jobs, (∃ r ∈ db.jobs, r.key = r'.key) ∨
    (db.nextId ≤ r'.id ∧ r'.status = .unlocked)

section Arrivals

variable {svc : Service} {now : Time} {db db' : Db} {op : Op} {p : Plan}

theorem JobTurns.arrivals {act : WorkQueue.Action String (WithBot Time)}
    (h : JobTurns act db db') : ∀ r' ∈ db'.jobs, (∃ r ∈ db.jobs, r.key = r'.key) ∨
      (db.nextId ≤ r'.id ∧ r'.status = .unlocked) := by
  -- an updated row is an old one
  have hold : ∀ {p : Job → Bool} {f : Job → Job} {r' : Job}, (∀ r, (f r).key = r.key) →
      r' ∈ Table.update p f db.jobs → ∃ r ∈ db.jobs, r.key = r'.key := by
    intro p f r' hkey hr'
    obtain ⟨r, hr, rfl⟩ := Table.mem_update.mp hr'
    refine ⟨r, hr, ?_⟩
    split
    · exact (hkey r).symm
    · rfl
  intro r' hr'
  cases h with
  | rows p f hjobs hkey hturn =>
    rw [hjobs] at hr'
    exact .inl (hold hkey hr')
  | replaced job new p f hjob hjobs hkey hp hid hwaits hturn =>
    rw [hjobs] at hr'
    rcases List.mem_append.mp hr' with hr' | hr'
    · exact .inl (hold hkey hr')
    · obtain rfl := List.mem_singleton.mp hr'
      exact .inr ⟨Nat.le_of_eq hid.symm, hwaits⟩

theorem plan_arrivals (hp : plan svc now db op = .ok p) (hwf : db.WF svc) :
    Arrivals db p.tables := by
  refine ⟨(plan_opened hp).statuses.nextId_le, fun r' hr' => .inl ?_, (plan_turns hp hwf).arrivals⟩
  obtain ⟨f, hrows, hkey, -⟩ := (plan_opened hp).rewritten hwf
  rw [hrows] at hr'
  obtain ⟨r, hr, rfl⟩ := List.mem_map.mp hr'
  exact ⟨r, hr, (hkey r).1.symm⟩

theorem Dispatched.nextId_le {d : WorkflowDefinition} {tx tx' : Tx} {step : WorkflowStep}
    {next : List StepId} (h : Dispatched svc now d tx step tx' next) :
    tx.db.nextId ≤ tx'.db.nextId := by
  rcases h.timer_view with ⟨-, -, hn⟩ | ⟨-, rows, start, -, -, -, -, hlt, hn⟩
  · omega
  · omega

/-- Dispatches add rows, and the acknowledgement of a chain adds none. -/
theorem arrivals_invariant (svc : Service) (db₀ : Db) :
    TxInvariant svc (fun db => db.WF svc) (fun d tx _ => TxWF svc d tx) (fun _ _ => False)
      (fun _ => True) (Arrivals db₀) (fun _ tx _ => Arrivals db₀ tx.db) where
  opening := fun _ _ _ hfalse _ => hfalse.elim
  step := by
    intro now d tx step pending tx' next hwf harr _ hfind hdisp
    obtain ⟨row, hrows, hkey, -, hstatus⟩ := hdisp.rows hwf hfind
    refine ⟨Nat.le_trans harr.next hdisp.nextId_le, fun r' hr' => ?_, fun r' hr' => ?_⟩
    · rw [hrows] at hr'
      rcases List.mem_append.mp hr' with hr' | hr'
      · exact harr.steps r' hr'
      · obtain rfl := List.mem_singleton.mp hr'
        have hid : r'.id = tx.db.nextId := congrArg StepKey.id hkey
        refine .inr ⟨hid ▸ harr.next, fun htype => ?_⟩
        rw [hstatus, show step.type = .serviceTask from
          (congrArg StepKey.stepType hkey).symm.trans htype]
        rfl
    · rcases hdisp.job_view with ⟨-, hj⟩ | ⟨-, job, hj, hjkey, hwaits, -⟩
      · exact harr.jobs r' (hj ▸ hr')
      · rw [hj] at hr'
        rcases List.mem_append.mp hr' with hr' | hr'
        · exact harr.jobs r' hr'
        · obtain rfl := List.mem_singleton.mp hr'
          have hid : r'.id = tx.db.nextId + 1 := congrArg ChildKey.id hjkey
          exact .inr ⟨by rw [hid]; exact Nat.le_succ_of_le harr.next, hwaits⟩
  closing := fun _ harr => harr
  acknowledge := fun harr => ⟨harr.next, harr.steps, harr.jobs⟩

theorem settle_arrivals {fuel : Nat} {r : Db × Option EngineError} (hwf : db.WF svc)
    (hp : plan svc now db op = .ok p) (hsettle : p.settle svc now fuel = .ok r) :
    Arrivals db r.1 := by
  have hinv := (wf_invariant svc).and (arrivals_invariant svc db)
  have hest := (wf_invariant svc).opening fuel trivial hwf trivial (plan_opened hp)
  have harr := plan_arrivals hp hwf
  have hboth : p.Establishes (fun db' => db'.WF svc ∧ Arrivals db db')
      (fun d tx _ => TxWF svc d tx ∧ Arrivals db tx.db) := by
    cases p with
    | commit db' reply => exact ⟨hest, harr⟩
    | dispatch d tx steps => exact ⟨hest, harr⟩
    | chain d tx steps source => exact ⟨hest, harr⟩
  exact (hinv.settle hboth (fun _ _ => trivial) hsettle).2

end Arrivals

/-! ## The queue of the engine -/

section Engine

variable {svc : Service} {db db' : Db} {act : WorkQueue.Action String (WithBot Time)}

theorem Db.WF.job_lt (h : db.WF svc) : ∀ r ∈ db.jobs, r.id < db.nextId := by
  intro r hr
  refine h.shape.job_ids.lt r.id ?_
  simp only [Db.shape, List.map_map]
  exact List.mem_map_of_mem hr

/-- The queue the tables are. -/
def Db.queue (db : Db) (hwf : db.WF svc) : WorkQueue.Queue String (WithBot Time) where
  task := db.task
  fresh := db.nextId
  used := by
    intro seID a h
    obtain ⟨-, -, -, -, -, r, hr, -, -, rfl⟩ := offered_rows h
    exact hwf.job_lt r hr
  distinct := by
    intro n m a b ha hb hid
    obtain ⟨-, -, -, -, -, r, hr, hn, -, rfl⟩ := offered_rows ha
    obtain ⟨-, -, -, -, -, r', hr', hm, -, rfl⟩ := offered_rows hb
    rw [← hn, ← hm, hwf.job_eq hr hr' hid]

/-- What becomes of a live job before the dispatches. -/
theorem JobTurns.takes (h : JobTurns act db db') {r : Job} (hr : r ∈ db.jobs)
    (hlive : r.status.live = true) :
    Closed db' r.stepExecutionID ∨ ∃ r' ∈ db'.jobs, Takes act db.nextId r r' := by
  have hsame : Takes act db.nextId r r := ⟨hlive, rfl, .same _⟩
  cases h with
  | rows p f hjobs hkey hturn =>
    by_cases hp : p r = true
    · rcases hturn r hr hp hlive with hclosed | htakes
      · exact .inl hclosed
      · exact .inr ⟨f r, hjobs ▸ Table.mem_update_of hr hp, htakes⟩
    · exact .inr ⟨r, hjobs ▸ Table.mem_update_of_not hr (by simpa using hp), hsame⟩
  | replaced job new p f hjob hjobs hkey hp hid hwaits hturn =>
    rw [hjobs]
    by_cases hpick : p r = true
    · obtain rfl := hp r hr hpick
      exact .inr ⟨new, List.mem_append_right _ (List.mem_singleton_self new), hturn⟩
    · exact .inr ⟨r, List.mem_append_left _ (Table.mem_update_of_not hr (by simpa using hpick)), hsame⟩

theorem task_known (hwf : db.WF svc) {se : StepExecution} (hse : se ∈ db.stepExecutions)
    (htype : se.stepType = .serviceTask) : ∃ t, db.task se.id = some t := by
  unfold Db.task
  rw [hwf.find_service hse htype]
  exact ⟨_, rfl⟩

theorem Delivery.live_job (hdel : Delivery db) {se : StepExecution} (hse : se ∈ db.stepExecutions)
    (hrun : se.status = .running) (htype : se.stepType = .serviceTask) :
    ∃ r ∈ db.jobs, r.stepExecutionID = se.id ∧ r.status.live = true := by
  have hone := hdel.job se hse hrun htype
  obtain ⟨r, hr, hlive⟩ := List.countP_pos_iff.mp (hone ▸ Nat.one_pos)
  simp only [liveFor, Bool.and_eq_true, decide_eq_true_eq] at hlive
  exact ⟨r, hr, hlive⟩

/-- The turn of one task, where what becomes of the old jobs and which rows are
    new is known. -/
theorem turn_of_rows (hwf : db.WF svc) (hdel : Delivery db) (hwf' : db'.WF svc)
    (hdel' : Delivery db') (hev : db.Evolves db')
    (htakes : ∀ r ∈ db.jobs, r.status.live = true →
      Closed db' r.stepExecutionID ∨ ∃ r' ∈ db'.jobs, Takes act db.nextId r r')
    (harr : Arrivals db db') (seID : Nat) :
    WorkQueue.Turn act db.nextId (db.task seID) (db'.task seID) := by
  by_cases hold : ∃ se ∈ db.stepExecutions, se.id = seID ∧ se.stepType = .serviceTask
  · -- a known execution
    obtain ⟨se, hse, rfl, htype⟩ := hold
    obtain ⟨se', hse', hlater⟩ := hev.steps.mem hse
    have hid : se'.id = se.id := congrArg StepKey.id hlater.key
    have htype' : se'.stepType = .serviceTask := (congrArg StepKey.stepType hlater.key).trans htype
    by_cases hrun' : se'.status = .running
    · have hrun : se.status = .running := by
        by_contra hclosed
        rw [hlater.closed hclosed] at hrun'
        exact hclosed hrun'
      obtain ⟨r, hr, hown, hlive⟩ := hdel.live_job hse hrun htype
      rcases htakes r hr hlive with ⟨x, hx, hxid, hclosed⟩ | ⟨r', hr', ht⟩
      · rw [hwf'.step_eq hx hse' (hxid.trans (hown.trans hid.symm))] at hclosed
        exact absurd hrun' hclosed
      · have hafter := task_offered hwf' hdel' hse' htype' hrun' hr'
          (ht.step.trans (hown.trans hid.symm)) ht.live
        rw [task_offered hwf hdel hse htype hrun hr hown hlive, ← hid, hafter]
        exact ht.turn
    · obtain ⟨t, ht⟩ := task_known hwf hse htype
      rw [ht, ← hid, task_closed hwf' hse' htype' hrun']
      exact .left t
  · push Not at hold
    rw [task_unknown hold]
    by_cases hnew : ∃ se' ∈ db'.stepExecutions, se'.id = seID ∧ se'.stepType = .serviceTask
    · -- a new execution: it runs, and its job is new and waits
      obtain ⟨se', hse', rfl, htype'⟩ := hnew
      rcases harr.steps se' hse' with ⟨se, hse, hkey⟩ | ⟨hfresh, hstatus⟩
      · exact absurd ((congrArg StepKey.stepType hkey).trans htype')
          (hold se hse (congrArg StepKey.id hkey))
      · have hrun' := hstatus htype'
        obtain ⟨r', hr', hown, hlive⟩ := hdel'.live_job hse' hrun' htype'
        rcases harr.jobs r' hr' with ⟨r, hr, hkey⟩ | ⟨hid, hwaits⟩
        · have hlt := hwf.job_step_lt r hr
          have hsame : r.stepExecutionID = se'.id :=
            (congrArg ChildKey.stepExecutionID hkey).trans hown
          omega
        · rw [task_offered hwf' hdel' hse' htype' hrun' hr' hown hlive]
          exact .put r'.attempt hid (Job.attempt_unlocked hwaits)
    · push Not at hnew
      rw [task_unknown hnew]
      exact .same none

/-- A call is a move of the queue. -/
theorem move_of_apply (hwf : db.WF svc) (hdel : Delivery db) {call : Call}
    (hwf' : (apply svc db call).WF svc) (hdel' : Delivery (apply svc db call)) :
    WorkQueue.Move (call.op.action call.now) (db.queue hwf) ((apply svc db call).queue hwf') := by
  have hev := evolves_apply hwf call
  cases ht : transact svc db call with
  | error e =>
    have hsame : apply svc db call = db := by
      unfold apply perform
      rw [ht]
    refine ⟨?_, fun seID => ?_⟩
    · show db.nextId ≤ (apply svc db call).nextId
      rw [hsame]
    · show WorkQueue.Turn _ db.nextId (db.task seID) ((apply svc db call).task seID)
      rw [hsame]
      exact .same _
  | ok reply =>
    obtain ⟨p, hp, hsettle⟩ := bind_eq_ok ht
    have happly := apply_of_plan hp hsettle
    have harr : Arrivals db (apply svc db call) := happly ▸ settle_arrivals hwf hp hsettle
    refine ⟨harr.next, turn_of_rows hwf hdel hwf' hdel' hev ?_ harr⟩
    intro r hr hlive
    rw [happly]
    rcases (plan_turns hp hwf).takes hr hlive with hclosed | ⟨r', hr', htakes⟩
    · exact .inl (hclosed.evolves (evolves_settle hwf hp hsettle))
    · exact .inr ⟨r', settle_jobs hsettle hr', htakes⟩

end Engine

/-! ## Runs -/

section Runs

variable (svc : Service)

/-- The queue after the calls. -/
def queueAfter (calls : List Call) : WorkQueue.Queue String (WithBot Time) :=
  (run svc calls).queue (wf_run svc calls)

variable {svc}

theorem queue_move (calls : List Call) (call : Call) :
    WorkQueue.Move (call.op.action call.now) (queueAfter svc calls)
      (queueAfter svc (calls ++ [call])) := by
  have hnext : run svc (calls ++ [call]) = apply svc (run svc calls) call := run_append ..
  have hwf' : (apply svc (run svc calls) call).WF svc := hnext ▸ wf_run svc (calls ++ [call])
  have hmove := move_of_apply (wf_run svc calls) (delivery_run svc calls) hwf'
    (hnext ▸ delivery_run svc (calls ++ [call]))
  simpa only [queueAfter, hnext] using hmove

theorem queue_reaches (calls more : List Call) :
    WorkQueue.Reaches (queueAfter svc calls) (queueAfter svc (calls ++ more)) := by
  induction more using List.reverseRecOn with
  | nil =>
    rw [List.append_nil]
    exact .refl
  | append_singleton more call ih =>
    rw [← List.append_assoc]
    exact ih.tail ⟨_, queue_move (calls ++ more) call⟩

/-- What an accepted report finds in the queue. -/
theorem accepted_offer {calls : List Call} {now : Time} {jobID : Nat} {workerID : String} {job : Job}
    {se : StepExecution} {inst : WorkflowInstance} (hcb : Callback (run svc calls) jobID job se inst)
    (hacc : (jobExecution now job se inst).acceptsCallback workerID = true) :
    (queueAfter svc calls).task se.id = some (.offered job.attempt) ∧ job.id = jobID ∧
      job.attempt.Accepts workerID (now : WithBot Time) := by
  have hwf := wf_run svc calls
  obtain ⟨⟨-, hrun⟩, hlive⟩ := alive_of_acceptsCallback hacc
  obtain ⟨hjob, hid⟩ := getJob_mem hcb.job_eq
  have hown : job.stepExecutionID = se.id := (getStepExecution_id hcb.se_eq).symm
  exact ⟨task_offered hwf (delivery_run svc calls) (getStepExecution_mem hcb.se_eq)
    (hcb.service hwf).1 hrun hjob hown hlive, hid, accepts_of_acceptsCallback hacc⟩

variable (svc)

/-- In every run, every call moves the queue as its operation says, and the
    reports the engine accepts are reports the queue accepts. -/
theorem jobs_refine_queue (calls : List Call) (call : Call) :
    WorkQueue.Move (call.op.action call.now) (queueAfter svc calls)
        (queueAfter svc (calls ++ [call])) ∧
      ∀ (now : Time) (jobID : Nat) (workerID : String) (job : Job) (se : StepExecution)
        (inst : WorkflowInstance), Callback (run svc calls) jobID job se inst →
        (jobExecution now job se inst).acceptsCallback workerID = true →
        ∃ a, (queueAfter svc calls).task se.id = some (.offered a) ∧ a.id = jobID ∧
          a.Accepts workerID (now : WithBot Time) :=
  ⟨queue_move calls call, fun _ _ _ job _ _ hcb hacc =>
    ⟨job.attempt, (accepted_offer hcb hacc).1, (accepted_offer hcb hacc).2.1,
      (accepted_offer hcb hacc).2.2⟩⟩

/-- The worker, and nobody else, has the step execution to work on. -/
structure Holds (db : Db) (workerID : String) (jobID seID : Nat) : Prop where
  runs : ∃ se ∈ db.stepExecutions, se.id = seID ∧ se.status = .running
  leased : ∃ r ∈ db.jobs, r.id = jobID ∧ r.stepExecutionID = seID ∧ r.status = .locked ∧
    r.workerID.getD "" = workerID
  only : ∀ r ∈ db.jobs, r.stepExecutionID = seID → r.status.live = true → r.id = jobID

theorem holds_of_task {calls : List Call} {seID : Nat} {a : WorkQueue.Attempt String (WithBot Time)}
    (h : (queueAfter svc calls).task seID = some (.offered a)) {workerID : String}
    {expiry : WithBot Time} (hlease : a.lease = some (workerID, expiry)) :
    Holds (run svc calls) workerID a.id seID := by
  obtain ⟨se, hse, rfl, htype, hrun, r, hr, hown, hlive, rfl⟩ := offered_rows h
  refine ⟨⟨se, hse, rfl, hrun⟩, ⟨r, hr, rfl, hown, ?_⟩, fun r' hr' hown' hlive' => ?_⟩
  · unfold Job.attempt at hlease
    split at hlease
    · rename_i hlocked
      cases hlease
      exact ⟨hlocked, rfl⟩
    · cases hlease
  · rw [(delivery_run svc calls).live_unique hse hrun htype hr' hr hlive' hlive hown' hown]
    rfl

/-- A worker whose report is accepted has held the execution without a break
    since it was leased to him, whatever happened in the meantime. -/
theorem lease_unbroken (calls₁ calls₂ calls₃ : List Call) (r : Job)
    (hr : r ∈ (run svc calls₁).jobs) (hlocked : r.status = .locked) (now : Time)
    (workerID : String) (job : Job) (se : StepExecution) (inst : WorkflowInstance)
    (hcb : Callback (run svc (calls₁ ++ calls₂ ++ calls₃)) r.id job se inst)
    (hacc : (jobExecution now job se inst).acceptsCallback workerID = true) :
    workerID = r.workerID.getD "" ∧
      Holds (run svc (calls₁ ++ calls₂)) workerID r.id r.stepExecutionID := by
  obtain ⟨hoffer, hid, haccepts⟩ := accepted_offer hcb hacc
  have hold : job.attempt.id < (queueAfter svc calls₁).fresh := by
    show job.id < (run svc calls₁).nextId
    rw [hid]
    exact (wf_run svc calls₁).job_lt r hr
  obtain ⟨a, c, ha, hc, hac, hcb'⟩ := (queue_reaches calls₁ calls₂).unbroken
    (queue_reaches (calls₁ ++ calls₂) calls₃) hoffer hold
  -- the attempt of the first queue is the leased job
  obtain ⟨-, -, -, -, -, r₁, hr₁, hown₁, -, rfl⟩ := offered_rows ha
  have hr₁id : r₁.id = r.id := hac.id.symm.trans (hcb'.id.symm.trans hid)
  obtain rfl := (wf_run svc calls₁).job_eq hr₁ hr hr₁id
  obtain ⟨expiry₂, hlease₂, -⟩ := hac.lease (Job.attempt_locked hlocked)
  obtain ⟨expiry₃, hlease₃, -⟩ := hcb'.lease hlease₂
  have howner : r₁.workerID.getD "" = workerID := (haccepts hlease₃).1
  have hholds := holds_of_task svc hc hlease₂
  rw [howner, show c.id = r₁.id from hac.id, ← hown₁] at hholds
  exact ⟨howner.symm, hholds⟩

end Runs

/-- A charge, done by workers. -/
def leasedCharge : WorkflowDefinition where
  id := "leased-charge"
  version := 1
  name := "leased charge"
  steps := [
    { id := "charge", name := "charge", type := .serviceTask, jobType := "charge",
      nextStep := "end" },
    { id := "end", name := "end", type := .endStep }]

/-- The charge is leased, the lease renewed, and neither a sweep nor another
    worker gets it. -/
theorem lease_unbroken_leasedCharge :
    Holds (run (.ofList [leasedCharge]) ([leasedCharge.start,
      ⟨.poll "ada" ["charge"] 1 30 [], 1, 16⟩] ++ [⟨.heartbeat 3 2 "ada" 60, 2, 16⟩,
      ⟨.sweepLease 2, 4, 16⟩])) "ada" 2 1 := by
  obtain ⟨r, hr, hid, hown, hlocked⟩ :
      ∃ r ∈ (run (.ofList [leasedCharge]) [leasedCharge.start,
        ⟨.poll "ada" ["charge"] 1 30 [], 1, 16⟩]).jobs,
        r.id = 2 ∧ r.stepExecutionID = 1 ∧ r.status = .locked := by
    decide +kernel
  have hlock : lockJobExecution 6 (run (.ofList [leasedCharge]) ([leasedCharge.start,
      ⟨.poll "ada" ["charge"] 1 30 [], 1, 16⟩] ++ [⟨.heartbeat 3 2 "ada" 60, 2, 16⟩,
      ⟨.sweepLease 2, 4, 16⟩] ++ [⟨.poll "bob" ["charge"] 1 30 [], 5, 16⟩])) 2 =
      .ok ⟨.active, .running, .locked, "ada", true⟩ := by
    rfl
  obtain ⟨job, se, inst, hcb, hstate⟩ := lockJobExecution_eq_ok hlock
  have hacc : (jobExecution 6 job se inst).acceptsCallback "ada" = true := by
    rw [← hstate]
    rfl
  have hholds := (lease_unbroken (.ofList [leasedCharge]) _ _ _ r hr hlocked 6 "ada" job se inst
    (hid.symm ▸ hcb) hacc).2
  rw [hid, hown] at hholds
  exact hholds

end Rochallor
