import Rochallor.Safety.Polling
import Rochallor.Safety.Timers
import Rochallor.Worker.Runner

/-! # Leases

    A leased job stays with its worker, and its lease is never shortened, until
    the worker reports on it, its step is closed, an operator replaces it by
    force, or the sweeper finds the lease run out.

    A worker knows the engine's tables only through answers that may be old.
    What it counts on is a lease until some time, and that belief outlives every
    call of the engine's API but a report on the job itself.
-/

namespace Rochallor

/-! ## A leased job in a call -/

/-- What becomes of a leased job in a call of the engine's API. -/
inductive LeaseFate (now : Time) (op : Op) (r : Job) (db' : Db) : Prop
  /-- The worker keeps the lease, and it is not shortened. -/
  | kept (r' : Job) (hr' : r' ∈ db'.jobs) (hkey : r'.key = r.key) (hlocked : r'.status = .locked)
      (howner : r'.workerID = r.workerID)
      (hlease : ∀ t, r.lockExpiresAt = some t → ∃ t', r'.lockExpiresAt = some t' ∧ t ≤ t')
  | closed (h : Closed db' r.stepExecutionID)
  /-- The job has been reported on. -/
  | reported (workerID : String) (hop : op.Reports r.id workerID)
  /-- An operator replaces the job. -/
  | forced (hop : op = .retryJob r.id)
  /-- The sweeper replaces the job, whose lease has run out. -/
  | swept (hop : op = .sweepLease r.id) (hlease : ∀ t, r.lockExpiresAt = some t → t ≤ now)

section Fates

variable {svc : Service} {now : Time} {db db' : Db} {op : Op} {p : Plan} {r : Job}

theorem LeaseFate.unchanged (hr : r ∈ db'.jobs) (hlocked : r.status = .locked) :
    LeaseFate now op r db' :=
  .kept r hr rfl hlocked rfl fun t ht => ⟨t, ht, le_refl t⟩

/-- A step execution closed by its id. -/
theorem closed_of_update {se : StepExecution} (hse : se ∈ db.stepExecutions)
    {f : StepExecution → StepExecution}
    (hs : db'.stepExecutions = Table.update (fun x => decide (x.id = se.id)) f db.stepExecutions)
    (hid : ∀ x, (f x).id = x.id) (hf : ∀ x, (f x).status ≠ .running) : Closed db' se.id := by
  refine ⟨f se, ?_, hid se, hf se⟩
  rw [hs]
  exact Table.mem_update_of hse (by simp)

/-- Before its dispatches. -/
theorem Opened.lease_fate (h : Opened svc now db op p) (hwf : db.WF svc) (hr : r ∈ db.jobs)
    (hlocked : r.status = .locked) : LeaseFate now op r p.tables := by
  -- a report on this job, or on another one
  have hreport : ∀ {jobID : Nat} {workerID : String} {db' : Db}, op.Reports jobID workerID →
      (r.id ≠ jobID → r ∈ db'.jobs) → LeaseFate now op r db' := by
    intro jobID workerID db' hop hother
    by_cases hid : r.id = jobID
    · subst hid
      exact .reported workerID hop
    · exact .unchanged (hother hid) hlocked
  cases h with
  | ignored op hrefused => exact .unchanged hr hlocked
  | started => exact .unchanged hr hlocked
  | chainStarted => exact .unchanged hr hlocked
  | outputsRejected jobID workerID vars job se inst violations hcb hacc =>
    by_cases hse : r.stepExecutionID = se.id
    · refine .closed ?_
      rw [hse]
      exact closed_of_update (getStepExecution_mem hcb.se_eq) rfl (fun _ => rfl)
        fun _ => by simp
    · exact .unchanged (Table.mem_update_of_not hr (by simp [hse])) hlocked
  | jobCompleted jobID workerID vars job se inst d step g hcb hacc =>
    exact hreport ⟨rfl, rfl⟩ fun hid => Table.mem_update_of_not hr (by simp [hid])
  | jobAdvanced jobID workerID vars job se inst d step g json tx next hcb hacc hd hstep hadv =>
    refine hreport ⟨rfl, rfl⟩ fun hid => ?_
    rw [Plan.tables, hadv.jobs]
    exact Table.mem_update_of_not hr (by simp [hid])
  | jobRetried jobID workerID errorMessage job se inst hcb hacc hretries =>
    refine hreport ⟨rfl, rfl⟩ fun hid => ?_
    rw [Plan.tables, enqueueReplacement_jobs]
    exact List.mem_append_left _ (Table.mem_update_of_not hr (by simp [hid]))
  | jobFailed jobID workerID errorMessage retryable job se inst hcb hacc =>
    exact hreport ⟨rfl, rfl⟩ fun hid => Table.mem_update_of_not hr (by simp [hid])
  | jobReplaced op jobID job se inst hop hcb halive hjob =>
    by_cases hid : r.id = jobID
    · obtain rfl := hcb.job_unique hwf r hr hid
      subst hid
      rcases hop with rfl | ⟨rfl, hinvalid⟩
      · exact .forced rfl
      · refine .swept rfl fun t ht => ?_
        simp only [jobExecution, ht, Option.any_some, decide_eq_false_iff_not] at hinvalid
        exact not_lt.mp hinvalid
    · refine .unchanged ?_ hlocked
      rw [Plan.tables, enqueueReplacement_jobs]
      exact List.mem_append_left _ (Table.mem_update_of_not hr (by simp [hid]))
  | leaseExtended later jobID workerID seconds lease job se inst =>
    by_cases hq : renewable later jobID workerID r = true
    · refine .kept _ (Table.mem_update_of hr hq) rfl hlocked rfl ?_
      intro t ht
      exact ⟨_, by simp [renewed, ht]; rfl, le_max_left ..⟩
    · exact .unchanged (Table.mem_update_of_not hr (by simpa using hq)) hlocked
  | polled workerID jobTypes max seconds lease rowLocked =>
    refine .unchanged ?_ hlocked
    show r ∈ (db.pollJobs now workerID jobTypes max lease rowLocked).2.jobs
    unfold Db.pollJobs
    split
    · exact hr
    · -- a poll claims unlocked rows only
      refine Table.mem_update_of_not hr (Bool.eq_false_iff.mpr fun hclaim => ?_)
      have hunlocked := claimed_unlocked hwf hr (by simpa using hclaim)
      rw [hunlocked] at hlocked
      cases hlocked
  | userTaskCompleted stepID vars inst d step result merged g tx next hinst hflight hd hstep htype
      hrows hadv =>
    refine .unchanged ?_ hlocked
    rw [Plan.tables, hadv.jobs]
    exact hr
  | waitSignalled stepID vars inst d step merged g tx next hinst hflight hd hstep htype hrows hadv =>
    refine .unchanged ?_ hlocked
    rw [Plan.tables, hadv.jobs]
    exact hr
  | timerConsumed => exact .unchanged hr hlocked
  | timerInterrupts eventID inst event se d hinst hevent hinterrupting hse halive hd =>
    by_cases hid : r.stepExecutionID = se.id
    · refine .closed ?_
      rw [hid]
      exact closed_of_update (getStepExecution_mem hse) rfl (fun _ => rfl) fun _ => by simp
    · exact .unchanged (Table.mem_update_of_not hr (by simp [hid])) hlocked
  | timerForks => exact .unchanged hr hlocked
  | housekept => exact .unchanged hr hlocked
  | cancelled => exact .unchanged hr hlocked
  | stepRetried => exact .unchanged hr hlocked

/-- Dispatches and the acknowledgement of a chain only add jobs. -/
theorem jobs_added (svc : Service) (jobs : List Job) :
    TxInvariant svc (fun _ => True) (fun _ _ _ => True) (fun _ _ => False) (fun _ => True)
      (fun db => jobs ⊆ db.jobs) (fun _ tx _ => jobs ⊆ tx.db.jobs) where
  opening := fun _ _ _ hfalse _ => hfalse.elim
  step := by
    intro now d tx step pending tx' next _ hsub _ _ hdisp
    rcases hdisp.job_view with ⟨-, hj⟩ | ⟨-, job, hj, -⟩
    · rw [hj]
      exact hsub
    · rw [hj]
      exact fun r hr => List.mem_append_left _ (hsub hr)
  closing := fun _ hsub => hsub
  acknowledge := fun hsub => hsub

/-- The jobs of a plan are there after the call. -/
theorem settle_jobs {fuel : Nat} {reply : Db × Option EngineError}
    (hsettle : p.settle svc now fuel = .ok reply) : p.tables.jobs ⊆ reply.1.jobs := by
  have hest : p.Establishes (fun db => p.tables.jobs ⊆ db.jobs)
      (fun _ tx _ => p.tables.jobs ⊆ tx.db.jobs) := by
    cases p <;> exact List.Subset.refl _
  exact (jobs_added svc p.tables.jobs).settle hest (fun _ _ => trivial) hsettle

theorem lease_fate {call : Call} (hwf : db.WF svc) (hr : r ∈ db.jobs)
    (hlocked : r.status = .locked) : LeaseFate call.now call.op r (apply svc db call) := by
  cases ht : transact svc db call with
  | error e =>
    refine .unchanged ?_ hlocked
    unfold apply perform
    rw [ht]
    exact hr
  | ok reply =>
    obtain ⟨p, hp, hsettle⟩ := bind_eq_ok ht
    rw [apply_of_plan hp hsettle]
    cases (plan_opened hp).lease_fate hwf hr hlocked with
    | kept r' hr' hkey hlocked' howner hlease =>
      exact .kept r' (settle_jobs hsettle hr') hkey hlocked' howner hlease
    | closed h => exact .closed (h.evolves (evolves_settle hwf hp hsettle))
    | reported workerID hop => exact .reported workerID hop
    | forced hop => exact .forced hop
    | swept hop hlease => exact .swept hop hlease

end Fates

/-! ## What a runner counts on -/

/-- The tables grant the job to the worker until `expiry` at least, or nothing
    depends on it any more. -/
inductive Backed (db : Db) (clock : Time) (forced : List Nat) (workerID : String) (expiry : Time)
    (r : Job) : Prop
  | leased (t : Time) (hlocked : r.status = .locked) (howner : r.workerID = some workerID)
      (ht : r.lockExpiresAt = some t) (hle : expiry ≤ t)
  | closed (h : Closed db r.stepExecutionID)
  | expired (h : expiry ≤ clock)
  | forced (h : r.stepExecutionID ∈ forced)

/-- A worker counts on its lease of a job until `expiry`, with reason. -/
def CountsOn (db : Db) (clock : Time) (forced : List Nat) (workerID : String) (jobID : Nat)
    (expiry : Time) : Prop :=
  ∃ r ∈ db.jobs, r.id = jobID ∧ Backed db clock forced workerID expiry r

/-- The row has been handed out. -/
def Taken (db : Db) (jobID : Nat) : Prop :=
  ∃ r ∈ db.jobs, r.id = jobID ∧ r.status ≠ .unlocked

section Belief

variable {svc : Service} {db : Db} {call : Call} {clock : Time} {forced : List Nat}
  {workerID : String} {jobID : Nat} {expiry : Time}

theorem getJob_of_mem (hwf : db.WF svc) {r : Job} (hr : r ∈ db.jobs) :
    db.getJob r.id = some r := by
  have hnd := hwf.shape.job_ids.nodup
  simp only [Db.shape, List.map_map] at hnd
  exact Table.find_eq_some hnd hr rfl

theorem CountsOn.later (h : CountsOn db clock forced workerID jobID expiry) {clock' : Time}
    {forced' : List Nat} (hclock : clock ≤ clock') (hforced : forced ⊆ forced') :
    CountsOn db clock' forced' workerID jobID expiry := by
  obtain ⟨r, hr, hid, hbacked⟩ := h
  refine ⟨r, hr, hid, ?_⟩
  cases hbacked with
  | leased t hlocked howner ht hle => exact .leased t hlocked howner ht hle
  | closed h => exact .closed h
  | expired h => exact .expired (h.trans hclock)
  | forced h => exact .forced (hforced h)

/-- A call that does not report on the job. -/
theorem CountsOn.apply (hwf : db.WF svc)
    (h : CountsOn db call.now forced workerID jobID expiry)
    (hother : ∀ w, ¬ call.op.Reports jobID w) :
    CountsOn (Rochallor.apply svc db call) call.now (forced ++ Fleet.forcedBy db call.op) workerID jobID
      expiry := by
  obtain ⟨r, hr, rfl, hbacked⟩ := h
  have hev := evolves_apply hwf call
  obtain ⟨r', hr', hlater⟩ := hev.jobs.mem hr
  have hid : r'.id = r.id := congrArg ChildKey.id hlater.key
  have hse : r'.stepExecutionID = r.stepExecutionID := congrArg ChildKey.stepExecutionID hlater.key
  cases hbacked with
  | leased t hlocked howner ht hle =>
    have hfate : LeaseFate call.now call.op r (Rochallor.apply svc db call) :=
      lease_fate hwf hr hlocked
    cases hfate with
    | kept r' hr' hkey hlocked' howner' hlease =>
      obtain ⟨t', ht', hle'⟩ := hlease t ht
      exact ⟨r', hr', congrArg ChildKey.id hkey,
        .leased t' hlocked' (howner'.trans howner) ht' (hle.trans hle')⟩
    | closed h => exact ⟨r', hr', hid, .closed (hse ▸ h)⟩
    | reported w hop => exact absurd hop (hother w)
    | forced hop =>
      refine ⟨r', hr', hid, .forced (List.mem_append_right _ ?_)⟩
      simp [Fleet.forcedBy, hop, getJob_of_mem hwf hr, hse]
    | swept hop hlease => exact ⟨r', hr', hid, .expired (hle.trans (hlease t ht))⟩
  | closed h => exact ⟨r', hr', hid, .closed (hse ▸ h.evolves hev)⟩
  | expired h => exact ⟨r', hr', hid, .expired h⟩
  | forced h => exact ⟨r', hr', hid, .forced (List.mem_append_left _ (hse ▸ h))⟩

theorem Taken.apply (hwf : db.WF svc) (h : Taken db jobID) : Taken (Rochallor.apply svc db call) jobID := by
  obtain ⟨r, hr, rfl, htaken⟩ := h
  obtain ⟨r', hr', hlater⟩ := (evolves_apply hwf call).jobs.mem hr
  refine ⟨r', hr', congrArg ChildKey.id hlater.key, fun hunlocked => ?_⟩
  cases hs : r.status with
  | unlocked => exact htaken hs
  | locked =>
    rcases hlater.leased hs with hdead | ⟨hlocked, -⟩
    · simp [hunlocked, JobStatus.live] at hdead
    · simp [hunlocked] at hlocked
  | completed | failed | cancelled =>
    rw [hlater.terminal (by simp [hs, JobStatus.live]), hs] at hunlocked
    cases hunlocked

end Belief

/-! ## The calls of a runner -/

section Calls

variable {svc : Service} {db db' : Db} {now : Time} {workerID : String}

/-- A poll, as a call of the engine's API. -/
theorem poll_call {jobTypes : List String} {max : Nat} {seconds : Int} {rowLocked : List Nat}
    {jobs : List Job} (hwf : db.WF svc)
    (h : pollWithLease now db workerID jobTypes max seconds rowLocked = .ok (jobs, db')) :
    db' = apply svc db ⟨.poll workerID jobTypes max seconds rowLocked, now, 0⟩ ∧
      (jobs.map (·.id)).Nodup ∧
      ∀ job ∈ jobs, Leased db db' workerID job ∧ ∃ t, job.lockExpiresAt = some t := by
  have hcall : db' = apply svc db ⟨.poll workerID jobTypes max seconds rowLocked, now, 0⟩ := by
    simp [apply, perform, transact, plan, h, Except.map, Plan.settle, bind, Except.bind]
  have hwf' : db'.WF svc := hcall ▸ wf_apply hwf _
  unfold pollWithLease at h
  obtain ⟨lease, -, h⟩ := bind_eq_ok h
  have hclaim : db.pollJobs now workerID jobTypes max lease rowLocked = (jobs, db') :=
    Except.ok.inj h
  obtain rfl := congrArg Prod.fst hclaim
  obtain rfl := congrArg Prod.snd hclaim
  refine ⟨hcall, ?_, fun job hjob => ⟨pollJobs_leased hwf hjob, ?_⟩⟩
  · have hnd := hwf'.shape.job_ids.nodup
    simp only [Db.shape, List.map_map] at hnd
    unfold Db.pollJobs at hnd ⊢
    split at hnd
    · rw [if_pos (by assumption)]
      exact List.nodup_nil
    · rw [if_neg (by assumption)]
      exact hnd.sublist ((List.filter_sublist ..).map _)
  · unfold Db.pollJobs at hjob
    split at hjob
    · cases hjob
    · obtain ⟨hmem, hclaimed⟩ := List.mem_filter.mp hjob
      obtain ⟨r, -, hrow⟩ := Table.mem_update.mp hmem
      split at hrow
      · exact ⟨_, congrArg Job.lockExpiresAt hrow⟩
      · rename_i hno
        rw [hrow] at hclaimed
        exact absurd hclaimed hno

/-- An accepted heartbeat finds the job leased to the worker. -/
theorem heartbeat_call {jobID : Nat} {seconds : Int} {fuel : Nat}
    (h : perform svc db ⟨.heartbeat now jobID workerID seconds, now, fuel⟩ = (db', none)) :
    ∃ r ∈ db'.jobs, r.id = jobID ∧ r.status = .locked ∧ r.workerID = some workerID ∧
      ∃ t, r.lockExpiresAt = some t := by
  have hext : ∃ seconds', extendJobLease now now db jobID workerID seconds' = some db' := by
    unfold perform at h
    split at h
    · rename_i reply ht
      subst h
      obtain ⟨p, hp, hsettle⟩ := bind_eq_ok ht
      unfold plan extendLease at hp
      simp only at hp
      split at hp
      · cases hp
      · obtain ⟨seconds', -, hp⟩ := bind_eq_ok hp
        split at hp
        · cases hp
        · rename_i db₁ hext
          cases hp
          cases hsettle
          exact ⟨seconds', hext⟩
    · cases h
  obtain ⟨seconds', hext⟩ := hext
  unfold extendJobLease at hext
  split at hext
  · cases hext
  · split at hext
    · cases hext
    · split at hext
      · rename_i hany
        cases hext
        obtain ⟨r, hr, hq⟩ := List.any_eq_true.mp hany
        refine ⟨renewed now seconds' r, Table.mem_update_of hr hq, ?_⟩
        simp only [renewable, Bool.and_eq_true, decide_eq_true_eq, beq_iff_eq] at hq
        obtain ⟨⟨⟨hid, howner⟩, hlocked⟩, hlease⟩ := hq
        obtain ⟨t, ht, -⟩ := (Option.any_eq_true ..).mp hlease
        exact ⟨hid, hlocked, howner, _, by simp [renewed, ht]; rfl⟩
      · cases hext

end Calls

end Rochallor
