import Rochallor.Safety.Timers

/-! # Jobs and their outbox rows

    In `kafka_outbox` mode the transaction that inserts a job row inserts one
    outbox row for it, and nothing else writes `dispatch_outbox`.  The engine
    never reads the table, so `Db.outbox` is the log of everything it has
    committed there; what the relays delete is their business.
-/

namespace Rochallor

/-- The outbox as the engine writes it: one row for each job, in the order the
    jobs were inserted. -/
structure Db.Posted (svc : Service) (db : Db) : Prop where
  jobs : db.outbox.map (·.jobID) =
    match svc.dispatcher with
    | .polling => []
    | .kafkaOutbox => db.jobs.map (·.id)
  ids : Table.Keyed db.nextId (db.outbox.map (·.id))
  event : ∀ o ∈ db.outbox, o.event.id = o.jobID

theorem posted_empty (svc : Service) : Db.Posted svc {} where
  jobs := by cases svc.dispatcher <;> rfl
  ids := ⟨List.nodup_nil, fun _ hk => by cases hk⟩
  event := fun _ ho => by cases ho

/-- What a piece of a transaction does to the job ids and to the outbox. -/
inductive Posts (svc : Service) (db db' : Db) : Prop
  /-- No job is inserted. -/
  | same (hjobs : db'.jobs.map (·.id) = db.jobs.map (·.id)) (hout : db'.outbox = db.outbox)
      (hnext : db.nextId ≤ db'.nextId)
  /-- A job is inserted and enqueued. -/
  | posted (db₁ : Db) (job : DispatchJob)
      (hjobs : db₁.jobs.map (·.id) = db.jobs.map (·.id) ++ [job.id])
      (hout : db₁.outbox = db.outbox) (hnext : db.nextId ≤ db₁.nextId)
      (hjobs' : db'.jobs = db₁.jobs)
      (hout' : db'.outbox = (enqueue svc.dispatcher db₁ job).outbox)
      (hnext' : (enqueue svc.dispatcher db₁ job).nextId ≤ db'.nextId)

section Posts

variable {svc : Service} {db db' : Db}

theorem Db.Posted.posts (h : db.Posted svc) (hp : Posts svc db db') : db'.Posted svc := by
  cases hp with
  | same hjobs hout hnext =>
    refine ⟨?_, ?_, ?_⟩
    · rw [hout, hjobs]
      exact h.jobs
    · rw [hout]
      exact h.ids.mono hnext
    · rw [hout]
      exact h.event
  | posted db₁ job hjobs hout hnext hjobs' hout' hnext' =>
    have hold := h.jobs
    cases hd : svc.dispatcher with
    | polling =>
      simp only [hd, enqueue] at hold hout' hnext'
      refine ⟨?_, ?_, ?_⟩
      · simp only [hd]
        rw [hout', hout]
        exact hold
      · rw [hout', hout]
        exact h.ids.mono (Nat.le_trans hnext hnext')
      · rw [hout', hout]
        exact h.event
    | kafkaOutbox =>
      simp only [hd, enqueue, Db.insertOutbox_outbox, Db.insertOutbox_nextId] at hold hout' hnext'
      refine ⟨?_, ?_, ?_⟩
      · simp only [hd]
        rw [hout', hout, List.map_append, hold, hjobs', hjobs]
        rfl
      · rw [hout', hout, List.map_append]
        exact (h.ids.mono hnext).insert hnext'
      · intro o ho
        rw [hout', hout] at ho
        rcases List.mem_append.mp ho with ho | ho
        · exact h.event o ho
        · obtain rfl := List.mem_singleton.mp ho
          rfl

/-- Rewriting jobs posts nothing. -/
theorem Posts.update {p : Job → Bool} {f : Job → Job} (hjobs : db'.jobs = Table.update p f db.jobs)
    (hf : ∀ r, (f r).id = r.id) (hout : db'.outbox = db.outbox) (hnext : db.nextId ≤ db'.nextId) :
    Posts svc db db' := by
  refine .same ?_ hout hnext
  rw [hjobs]
  exact Table.map_update _ fun r _ => hf r

/-- A replaced job is posted under its new id. -/
theorem Posts.replace {now : Time} {db₀ : Db} {p : Job → Bool} {f : Job → Job} (j : DispatchJob)
    (hjobs : db₀.jobs = Table.update p f db.jobs) (hf : ∀ r, (f r).id = r.id)
    (hout : db₀.outbox = db.outbox) (hnext : db.nextId = db₀.nextId) :
    Posts svc db (enqueueReplacement svc now db₀ j) := by
  refine .posted (db₀.insertJob now j.instanceID j.stepExecutionID j.jobType j.retriesRemaining
    j.payload) { j with id := db₀.nextId, createdAt := now } ?_ hout ?_ (enqueue_jobs ..) rfl
    (Nat.le_refl _)
  · rw [Db.insertJob_jobs, hjobs, List.map_append, Table.map_update _ fun r _ => hf r]
    rfl
  · rw [hnext]
    exact Nat.le_succ _

end Posts

section Calls

variable {svc : Service} {now : Time} {db : Db} {op : Op} {p : Plan}

theorem Advanced.outbox {d : WorkflowDefinition} {tx tx' : Tx} {step : WorkflowStep}
    {next : List StepId} (h : Advanced now d tx step tx' next) :
    tx'.db.outbox = tx.db.outbox := by
  cases h <;> rfl

theorem Opened.posts (h : Opened svc now db op p) : Posts svc db p.tables := by
  have hnext := h.statuses.nextId_le
  cases h with
  | outputsRejected jobID workerID vars job se inst violations hcb hacc =>
    exact .update rfl (fun _ => rfl) rfl hnext
  | jobCompleted jobID workerID vars job se inst d step g hcb hacc hd hfind hnext' =>
    exact .update rfl (fun _ => rfl) rfl hnext
  | jobAdvanced jobID workerID vars job se inst d step g json tx next hcb hacc hd hfind hadv =>
    exact .update hadv.jobs (fun _ => rfl) hadv.outbox hnext
  | jobRetried jobID workerID errorMessage job se inst hcb hacc hretries =>
    exact .replace _ rfl (fun _ => rfl) rfl rfl
  | jobFailed jobID workerID errorMessage retryable job se inst hcb hacc =>
    exact .update rfl (fun _ => rfl) rfl hnext
  | jobReplaced op jobID job se inst hop hcb halive hlocked =>
    exact .replace _ rfl (fun _ => rfl) rfl rfl
  | leaseExtended later jobID workerID seconds lease job se inst hcb halive hlocked howner hvalid =>
    exact .update rfl (fun _ => rfl) rfl hnext
  | polled workerID jobTypes max seconds lease rowLocked =>
    obtain ⟨jobs, hpoll⟩ := db.pollJobs_tables now workerID jobTypes max lease rowLocked
    have hshape := db.shape_pollJobs now workerID jobTypes max lease rowLocked
    refine .same ?_ (by rw [Plan.tables, hpoll]) hnext
    have hkeys : (db.pollJobs now workerID jobTypes max lease rowLocked).2.jobs.map Job.key =
        db.jobs.map Job.key := congrArg Shape.jobs hshape
    have hids := congrArg (List.map (·.id)) hkeys
    rw [List.map_map, List.map_map] at hids
    exact hids
  | userTaskCompleted stepID vars inst d step result merged g tx next hinst hflight hd hfind
      htype hrows hadv =>
    exact .same (by rw [Plan.tables, hadv.jobs]; rfl) hadv.outbox hnext
  | waitSignalled stepID vars inst d step merged g tx next hinst hflight hd hfind htype hrows
      hadv =>
    exact .same (by rw [Plan.tables, hadv.jobs]; rfl) hadv.outbox hnext
  | timerInterrupts eventID inst event se d hinst hevent hinterrupting hse halive hd =>
    exact .update rfl (fun _ => rfl) rfl hnext
  | _ => exact .same rfl rfl hnext

theorem Dispatched.posts {d : WorkflowDefinition} {tx tx' : Tx} {step : WorkflowStep}
    {next : List StepId} (h : Dispatched svc now d tx step tx' next) : Posts svc tx.db tx'.db := by
  have hnext : tx.db.nextId ≤ tx'.db.nextId := by
    rcases h.timer_view with ⟨-, -, hn⟩ | ⟨-, _, _, -, -, -, -, hstart, hn⟩ <;> omega
  cases h with
  | service job rows htype hrows hids hjob =>
    subst hjob
    refine .posted ((enterStep tx step step.id).db.insertJob now tx.inst.id tx.db.nextId
      (jobTypeOf step) step.retryCount tx.inst.vars) _ (by simp) rfl ?_ (by simp) rfl ?_
    · simp only [Db.insertJob_nextId, enterStep_db_nextId]
      omega
    · exact Nat.le_add_right _ _
  | _ => exact .same rfl rfl hnext

/-- Every call keeps the outbox in step with the jobs. -/
theorem posted_invariant (svc : Service) :
    TxInvariant svc (fun _ => True) (fun _ _ _ => True) (fun _ _ => True) (fun _ => True)
      (Db.Posted svc) (fun _ tx _ => Db.Posted svc tx.db) where
  opening := by
    intro db op now p fuel _ hI _ hop
    have h := hI.posts hop.posts
    cases p with
    | commit db reply => exact h
    | dispatch d tx steps => exact h
    | chain d tx steps source => exact h
  step := fun _ hJ _ _ hdisp => hJ.posts hdisp.posts
  closing := fun _ hJ => hJ
  acknowledge := fun hI => ⟨hI.jobs, hI.ids, hI.event⟩

theorem posted_apply (h : db.Posted svc) (call : Call) : (apply svc db call).Posted svc :=
  (posted_invariant svc).apply h trivial fun _ _ => trivial

/-- The outbox only grows. -/
theorem outbox_apply (svc : Service) (db : Db) (call : Call) :
    db.outbox <+: (apply svc db call).outbox := by
  have hinv : TxInvariant svc (fun _ => True) (fun _ _ _ => True)
      (fun db' _ => db.outbox <+: db'.outbox) (fun _ => True)
      (fun db' => db.outbox <+: db'.outbox) (fun _ tx _ => db.outbox <+: tx.db.outbox) := by
    have hposts : ∀ {db₁ db₂ : Db}, Posts svc db₁ db₂ → db₁.outbox <+: db₂.outbox := by
      intro db₁ db₂ h
      cases h with
      | same hjobs hout hnext => exact hout ▸ List.prefix_refl _
      | posted db₁ job hjobs hout hnext hjobs' hout' hnext' =>
        rw [hout', ← hout]
        cases svc.dispatcher with
        | polling => exact List.prefix_refl _
        | kafkaOutbox => exact List.prefix_append ..
    refine ⟨?_, ?_, fun _ hJ => hJ, fun hI => hI⟩
    · intro db' op now p fuel _ hI _ hop
      have h := hI.trans (hposts hop.posts)
      cases p with
      | commit db reply => exact h
      | dispatch d tx steps => exact h
      | chain d tx steps source => exact h
    · exact fun _ hJ _ _ hdisp => hJ.trans (hposts hdisp.posts)
  exact hinv.apply (List.prefix_refl _) (List.prefix_refl _) fun _ _ => trivial

/-- No two rows of the outbox are for the same job. -/
theorem Db.Posted.job_unique (h : db.Posted svc) (hwf : db.WF svc) {o o' : OutboxRow}
    (ho : o ∈ db.outbox) (ho' : o' ∈ db.outbox) (hjob : o.jobID = o'.jobID) : o = o' := by
  have hnodup : (db.outbox.map (·.jobID)).Nodup := by
    rw [h.jobs]
    cases svc.dispatcher with
    | polling => exact List.nodup_nil
    | kafkaOutbox =>
      have hids := hwf.shape.job_ids.nodup
      rw [Db.shape, List.map_map] at hids
      exact hids
  exact Table.eq_of_key hnodup ho ho' hjob

end Calls

end Rochallor
