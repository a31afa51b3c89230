import Rochallor.Safety.Recovery
import Rochallor.Safety.Tokens

/-! # The retry budget

    A service task may be retried as often as its step says.  What is left of
    the budget travels in the live job from one delivery attempt to the next;
    only an accepted failure spends it, and the attempts it has cost are the
    jobs that have failed.
-/

namespace Rochallor

/-! ## Jobs -/

/-- A failed job of the step execution. -/
def failedFor (seID : Nat) (r : Job) : Bool :=
  decide (r.stepExecutionID = seID) && decide (r.status = .failed)

/-- The failures of a step execution so far. -/
def Db.spent (db : Db) (seID : Nat) : Nat :=
  db.jobs.countP (failedFor seID)

/-- What the budget depends on. -/
def Job.worth (r : Job) : Nat × Bool × Bool × Int :=
  (r.stepExecutionID, r.status.live, decide (r.status = .failed), r.retriesRemaining)

theorem JobStatus.live_ne_failed {s : JobStatus} (h : s.live = true) : s ≠ .failed := by
  rintro rfl
  cases h

/-- What an operation does to the jobs. -/
inductive JobView (db db' : Db) : Prop
  | kept (p : Job → Bool) (f : Job → Job) (hjobs : db'.jobs = Table.update p f db.jobs)
      (hworth : ∀ r ∈ db.jobs, p r = true → (f r).worth = r.worth)
  /-- An execution is closed and its jobs are retired. -/
  | closed (se : StepExecution) (hse : se ∈ db.stepExecutions) (hrun : se.status = .running)
      (p : Job → Bool) (f : Job → Job) (hjobs : db'.jobs = Table.update p f db.jobs)
      (hp : ∀ r ∈ db.jobs, p r = true → r.stepExecutionID = se.id)
      (hf : ∀ r, (f r).stepExecutionID = r.stepExecutionID)
      (hspent : db'.spent se.id ≤ db.spent se.id + 1)
      (hclosed : ∀ r ∈ db'.stepExecutions, r.id = se.id → r.status ≠ .running)
  /-- A live job is retired and another takes its place. -/
  | replaced (se : StepExecution) (job new : Job) (hse : se ∈ db.stepExecutions)
      (hrun : se.status = .running) (hservice : se.stepType = .serviceTask) (hjob : job ∈ db.jobs)
      (hown : job.stepExecutionID = se.id) (hlive : job.status.live = true) (f : Job → Job)
      (hjobs : db'.jobs = Table.update (fun r => decide (r.id = job.id)) f db.jobs ++ [new])
      (hf : ∀ r, (f r).stepExecutionID = r.stepExecutionID ∧ (f r).status.live = false)
      (hnew : new.stepExecutionID = se.id ∧ new.status.live = true)
      (hbudget : ((f job).status = .failed ∧ new.retriesRemaining = job.retriesRemaining - 1 ∧
          0 < job.retriesRemaining) ∨
        ((f job).status ≠ .failed ∧ new.retriesRemaining = job.retriesRemaining))

section Views

variable {svc : Service} {now : Time} {db : Db} {op : Op} {p : Plan}

theorem JobView.refl {db' : Db} (h : db'.jobs = db.jobs) : JobView db db' :=
  .kept (fun _ => false) id (by rw [Table.update_id, h]) fun _ _ h => by cases h

/-- One job more has failed at most. -/
private theorem spent_retire (hwf : db.WF svc) {job : Job} (hjob : job ∈ db.jobs) {seID : Nat}
    {db' : Db} {f : Job → Job}
    (hjobs : db'.jobs = Table.update (fun r => decide (r.id = job.id)) f db.jobs) :
    db'.spent seID ≤ db.spent seID + 1 := by
  have hone := hwf.countP_job hjob rfl f (failedFor seID)
  unfold Db.spent
  rw [hjobs]
  split at hone <;> split at hone <;> omega

/-- A live job that is retired to another status than `FAILED` costs nothing. -/
private theorem spent_cancel {p : Job → Bool} {f : Job → Job} {seID : Nat} {db' : Db}
    (hjobs : db'.jobs = Table.update p f db.jobs) (hf : ∀ r, (f r).status ≠ .failed)
    (hp : ∀ r ∈ db.jobs, p r = true → r.status.live = true) : db'.spent seID = db.spent seID := by
  unfold Db.spent
  rw [hjobs]
  apply Table.countP_update_eq
  intro r hr hpr
  simp [failedFor, hf r, JobStatus.live_ne_failed (hp r hr hpr)]

/-- An execution closed by its id does not run. -/
private theorem closed_by_id {seID : Nat} {f : StepExecution → StepExecution}
    (hf : ∀ r, (f r).status ≠ .running) {rows : List StepExecution} :
    ∀ r ∈ Table.update (fun r => decide (r.id = seID)) f rows, r.id = seID →
      r.status ≠ .running := by
  intro r hr hid hrun
  obtain ⟨-, hne⟩ := running_kept hf hr hrun
  simp [hid] at hne

theorem Opened.job_view (h : Opened svc now db op p) (hwf : db.WF svc) : JobView db p.tables := by
  -- the rows of a callback
  have hrows : ∀ {jobID : Nat} {job : Job} {se : StepExecution} {inst : WorkflowInstance},
      Callback db jobID job se inst → se ∈ db.stepExecutions ∧ se.stepType = .serviceTask ∧
        job ∈ db.jobs ∧ job.id = jobID ∧ job.stepExecutionID = se.id := by
    intro jobID job se inst hcb
    exact ⟨getStepExecution_mem hcb.se_eq, (hcb.service hwf).1, (getJob_mem hcb.job_eq).1,
      (getJob_mem hcb.job_eq).2, (getStepExecution_id hcb.se_eq).symm⟩
  cases h with
  | outputsRejected jobID workerID vars job se inst violations hcb hacc =>
    refine .closed se (getStepExecution_mem hcb.se_eq) (alive_of_acceptsCallback hacc).1.2 _ _ rfl
      ?_ (fun _ => rfl) ?_ (closed_by_id fun _ => by simp)
    · intro r _ hr
      simp only [Bool.and_eq_true, decide_eq_true_eq] at hr
      exact hr.1
    · refine Nat.le_succ_of_le (Nat.le_of_eq (spent_cancel rfl (fun _ => by simp) ?_))
      intro r _ hr
      simp only [Bool.and_eq_true] at hr
      exact hr.2
  | jobCompleted jobID workerID vars job se inst d step g hcb hacc hd hfind hnext =>
    obtain ⟨hse, -, hjob, rfl, -⟩ := hrows hcb
    exact .closed se hse (alive_of_acceptsCallback hacc).1.2 _ _ rfl (hcb.job_step_id hwf)
      (fun _ => rfl) (spent_retire hwf hjob rfl) (closed_by_id fun _ => by simp)
  | jobAdvanced jobID workerID vars job se inst d step g json tx next hcb hacc hd hfind hadv =>
    obtain ⟨hse, -, hjob, rfl, -⟩ := hrows hcb
    have hjobs : tx.db.jobs = (closeJob now db job.id se.id workerID vars).jobs := by
      cases hadv <;> rfl
    refine .closed se hse (alive_of_acceptsCallback hacc).1.2 _ _ hjobs (hcb.job_step_id hwf)
      (fun _ => rfl) (spent_retire hwf hjob hjobs) ?_
    intro r hr hid hrun
    exact closed_by_id (fun _ => by simp) r (hadv.running hr hrun) hid hrun
  | jobRetried jobID workerID errorMessage job se inst hcb hacc hretries =>
    obtain ⟨hse, hservice, hjob, rfl, hown⟩ := hrows hcb
    obtain ⟨⟨-, hrun⟩, hlive⟩ := alive_of_acceptsCallback hacc
    exact .replaced se job _ hse hrun hservice hjob hown hlive _ (enqueueReplacement_jobs ..)
      (fun _ => ⟨rfl, rfl⟩) ⟨hown, rfl⟩ (.inl ⟨rfl, rfl, hretries⟩)
  | jobFailed jobID workerID errorMessage retryable job se inst hcb hacc =>
    obtain ⟨hse, -, hjob, rfl, -⟩ := hrows hcb
    exact .closed se hse (alive_of_acceptsCallback hacc).1.2 _ _ rfl (hcb.job_step_id hwf)
      (fun _ => rfl) (spent_retire hwf hjob rfl) (closed_by_id fun _ => by simp)
  | jobReplaced op jobID job se inst hop hcb halive hlocked =>
    obtain ⟨hse, hservice, hjob, rfl, hown⟩ := hrows hcb
    have hlive : job.status.live = true := by simp [hlocked, JobStatus.live]
    refine .replaced se job (replacement now (db.cancelLockedJob job.id) job.toDispatchJob) hse
      halive.2 hservice hjob hown hlive (fun r => { r with status := .cancelled }) ?_ (fun _ => ⟨rfl, rfl⟩) ⟨hown, rfl⟩
      (.inr ⟨by simp, rfl⟩)
    -- the row with this id is the leased job itself
    rw [Plan.tables, enqueueReplacement_jobs]
    congr 1
    refine List.map_congr_left fun r hr => ?_
    by_cases hid : r.id = job.id
    · obtain rfl := hwf.job_eq hr hjob hid
      simp [hlocked]
    · simp [hid]
  | leaseExtended later jobID workerID seconds lease job se inst hcb halive hlocked howner hvalid =>
    exact .kept _ _ rfl fun _ _ _ => rfl
  | polled workerID jobTypes max seconds lease rowLocked =>
    simp only [Plan.tables]
    unfold Db.pollJobs
    split
    · exact .refl rfl
    · refine .kept _ _ rfl fun r hr hclaim => ?_
      have hunlocked := claimed_unlocked hwf hr (by simpa using hclaim)
      simp [Job.worth, hunlocked, JobStatus.live]
  | userTaskCompleted stepID vars inst d step result merged g tx next hinst hflight hd hfind
      htype hfound hadv =>
    refine .refl ?_
    cases hadv <;> rfl
  | waitSignalled stepID vars inst d step merged g tx next hinst hflight hd hfind htype hfound
      hadv =>
    refine .refl ?_
    cases hadv <;> rfl
  | timerInterrupts eventID inst event se d hinst hevent hinterrupting hse halive hd =>
    refine .closed se (getStepExecution_mem hse) halive.2 _ _ rfl ?_ (fun _ => rfl) ?_ ?_
    · intro r _ hr
      simp only [Bool.and_eq_true, decide_eq_true_eq] at hr
      exact hr.1
    · refine Nat.le_succ_of_le (Nat.le_of_eq (spent_cancel rfl (fun _ => by simp) ?_))
      intro r _ hr
      simp only [Bool.and_eq_true] at hr
      exact hr.2
    · exact closed_by_id fun _ => by simp
  | _ => exact .refl rfl

end Views

/-! ## Within the budget -/

/-- The retry count of the step an execution is of. -/
def HasBudget (svc : Service) (db : Db) (se : StepExecution) (r : Int) : Prop :=
  ∃ inst ∈ db.instances, inst.id = se.instanceID ∧ ∃ d, Runs svc inst d ∧
    ∃ step, findStep d se.stepID = some step ∧ step.retryCount = r

/-- What an execution with `r` retries has spent, and what its live job has
    left. -/
structure Within (db : Db) (se : StepExecution) (r : Int) : Prop where
  total : (db.spent se.id : Int) ≤ r + 1
  left : se.status = .running → (db.spent se.id : Int) ≤ r ∧
    ∀ job ∈ db.jobs, job.stepExecutionID = se.id → job.status.live = true →
      job.retriesRemaining = r - db.spent se.id

/-- Every execution of a service task is within its budget. -/
def Budget (svc : Service) (db : Db) : Prop :=
  ∀ se ∈ db.stepExecutions, se.stepType = .serviceTask → ∀ r, HasBudget svc db se r → 0 ≤ r →
    Within db se r

section Budget

variable {svc : Service} {db db' : Db} {se se' : StepExecution} {r : Int}

/-- The budget of an execution does not change. -/
theorem HasBudget.back (h : HasBudget svc db' se' r) (hwf : db.WF svc) (hwf' : db'.WF svc)
    (hev : db.Evolves db') (hse : se ∈ db.stepExecutions) (hkey : se'.key = se.key) :
    HasBudget svc db se r := by
  have hi : se'.instanceID = se.instanceID := congrArg StepKey.instanceID hkey
  have hs : se'.stepID = se.stepID := congrArg StepKey.stepID hkey
  obtain ⟨k, hk, hid, d, hd, step, hfind, -⟩ :=
    hwf.shape.step_instance se.key (List.mem_map_of_mem hse)
  obtain ⟨inst, hinst, rfl⟩ := List.mem_map.mp hk
  obtain ⟨inst', hinst', hid', hd'⟩ := hev.runs hinst hd
  obtain ⟨inst₁, hinst₁, hid₁, d₁, hd₁, step₁, hfind₁, hr⟩ := h
  have hsame : inst.id = se.instanceID := hid
  obtain rfl := hwf'.instance_eq hinst₁ hinst'
    (hid₁.trans (hi.trans (hsame.symm.trans hid'.symm)))
  obtain rfl : d = d₁ := by
    unfold Runs at hd' hd₁
    rw [hd'] at hd₁
    exact Except.ok.inj hd₁
  obtain rfl : step = step₁ := by
    rw [hs] at hfind₁
    exact Option.some.inj (hfind.symm.trans hfind₁)
  exact ⟨inst, hinst, hid, d, hd, step, hfind, hr⟩

theorem HasBudget.unique {r' : Int} (h : HasBudget svc db se r) (hwf : db.WF svc)
    (h' : HasBudget svc db se r') : r = r' := by
  obtain ⟨inst, hinst, hid, d, hd, step, hfind, rfl⟩ := h
  obtain ⟨inst', hinst', hid', d', hd', step', hfind', rfl⟩ := h'
  obtain rfl := hwf.instance_eq hinst hinst' (hid.trans hid'.symm)
  obtain rfl : d = d' := Except.ok.inj (hd.symm.trans hd')
  rw [Option.some.inj (hfind.symm.trans hfind')]

/-- Rewriting jobs of another execution. -/
private theorem Within.other {seID : Nat} {p : Job → Bool} {f : Job → Job} {new : List Job}
    (hjobs : db'.jobs = Table.update p f db.jobs ++ new)
    (hp : ∀ j ∈ db.jobs, p j = true → j.stepExecutionID = seID)
    (hf : ∀ j, (f j).stepExecutionID = j.stepExecutionID)
    (hnew : ∀ j ∈ new, j.stepExecutionID = seID) (hid : se'.id = se.id) (hne : se.id ≠ seID)
    (hrun : se'.status = .running → se.status = .running) (h : Within db se r) :
    Within db' se' r := by
  have hspent : db'.spent se'.id = db.spent se.id := by
    have hnone : new.countP (failedFor se.id) = 0 := by
      rw [List.countP_eq_zero]
      intro j hj
      simp [failedFor, hnew j hj, hne.symm]
    unfold Db.spent
    rw [hjobs, hid, List.countP_append, hnone, Nat.add_zero]
    apply Table.countP_update_eq
    intro j hj hpj
    simp [failedFor, hf j, hp j hj hpj, hne.symm]
  refine ⟨by rw [hspent]; exact h.total, fun hrun' => ?_⟩
  obtain ⟨hle, hleft⟩ := h.left (hrun hrun')
  rw [hspent]
  refine ⟨hle, fun job hjob hown hlive => ?_⟩
  rw [hid] at hown
  rw [hjobs] at hjob
  rcases List.mem_append.mp hjob with hjob | hjob
  · obtain ⟨j, hj, rfl⟩ := Table.mem_update.mp hjob
    by_cases hpj : p j = true
    · rw [if_pos hpj, hf j, hp j hj hpj] at hown
      exact absurd hown.symm hne
    · rw [if_neg hpj] at hown hlive ⊢
      exact hleft j hj hown hlive
  · exact absurd ((hnew job hjob).symm.trans hown).symm hne

/-- An operation leaves every execution within its budget. -/
theorem JobView.within (hv : JobView db db') (hwf : db.WF svc) (hdel : Delivery db)
    (hse : se ∈ db.stepExecutions) (hse' : se' ∈ db'.stepExecutions) (hkey : se'.key = se.key)
    (hrun : se'.status = .running → se.status = .running) (h : Within db se r) :
    Within db' se' r := by
  have hid : se'.id = se.id := congrArg StepKey.id hkey
  cases hv with
  | kept p f hjobs hworth =>
    have hspent : db'.spent se'.id = db.spent se.id := by
      unfold Db.spent
      rw [hjobs, hid]
      apply Table.countP_update_eq
      intro j hj hpj
      have hw := hworth j hj hpj
      simp only [Job.worth, Prod.mk.injEq] at hw
      simp only [failedFor, hw.1, hw.2.2.1]
    refine ⟨by rw [hspent]; exact h.total, fun hrun' => ?_⟩
    obtain ⟨hle, hleft⟩ := h.left (hrun hrun')
    rw [hspent]
    refine ⟨hle, fun job hjob hown hlive => ?_⟩
    rw [hid] at hown
    rw [hjobs] at hjob
    obtain ⟨j, hj, rfl⟩ := Table.mem_update.mp hjob
    by_cases hpj : p j = true
    · have hw := hworth j hj hpj
      simp only [Job.worth, Prod.mk.injEq] at hw
      rw [if_pos hpj] at hown hlive ⊢
      rw [hw.2.2.2]
      exact hleft j hj (hw.1 ▸ hown) (hw.2.1 ▸ hlive)
    · rw [if_neg hpj] at hown hlive ⊢
      exact hleft j hj hown hlive
  | closed se₀ hse₀ hrun₀ p f hjobs hp hf hspent hclosed =>
    by_cases hsame : se.id = se₀.id
    · obtain rfl := hwf.step_eq hse hse₀ hsame
      obtain ⟨hle, -⟩ := h.left hrun₀
      refine ⟨?_, fun hrun' => absurd hrun' (hclosed se' hse' hid)⟩
      rw [hid]
      omega
    · exact h.other (hjobs.trans (List.append_nil _).symm) hp hf (fun _ h => by cases h) hid hsame
        hrun
  | replaced se₀ job new hse₀ hrun₀ hservice hjob hown hlive f hjobs hf hnew hbudget =>
    by_cases hsame : se.id = se₀.id
    · obtain rfl := hwf.step_eq hse hse₀ hsame
      obtain ⟨hle, hleft⟩ := h.left hrun₀
      have hjobleft := hleft job hjob hown hlive
      -- the failures grow by the retired job, if it failed
      have hspent : db'.spent se.id = db.spent se.id + if (f job).status = .failed then 1 else 0 := by
        have hone := hwf.countP_job hjob rfl f (failedFor se.id)
        have hnew0 : failedFor se.id new = false := by
          simp [failedFor, JobStatus.live_ne_failed hnew.2]
        have hjob0 : failedFor se.id job = false := by
          simp [failedFor, JobStatus.live_ne_failed hlive]
        have hfjob : failedFor se.id (f job) = decide ((f job).status = .failed) := by
          simp [failedFor, (hf job).1, hown]
        unfold Db.spent
        rw [hjobs, List.countP_append]
        simpa [hnew0, hjob0, hfjob] using hone
      -- and the new job is the only live one
      have honly : ∀ j ∈ db'.jobs, j.stepExecutionID = se.id → j.status.live = true → j = new := by
        intro j hj hjown hjlive
        rw [hjobs] at hj
        rcases List.mem_append.mp hj with hj | hj
        · obtain ⟨j₀, hj₀, rfl⟩ := Table.mem_update.mp hj
          by_cases hidj : j₀.id = job.id
          · simp only [hidj, decide_true, if_true] at hjlive
            rw [(hf j₀).2] at hjlive
            cases hjlive
          · simp only [hidj, decide_false, Bool.false_eq_true, if_false] at hjown hjlive
            obtain rfl := hdel.live_unique hse hrun₀ hservice hj₀ hjob hjlive hlive hjown hown
            exact absurd rfl hidj
        · exact List.mem_singleton.mp hj
      rw [← hid] at hspent
      rcases hbudget with ⟨hfailed, hretries, hpos⟩ | ⟨hnot, hretries⟩
      · rw [hid, if_pos hfailed] at hspent
        refine ⟨by rw [hid]; omega, fun _ => ⟨by rw [hid]; omega, ?_⟩⟩
        intro j hj hjown hjlive
        rw [hid] at hjown ⊢
        rw [honly j hj hjown hjlive]
        omega
      · rw [hid, if_neg hnot] at hspent
        refine ⟨by rw [hid]; omega, fun _ => ⟨by rw [hid]; omega, ?_⟩⟩
        intro j hj hjown hjlive
        rw [hid] at hjown ⊢
        rw [honly j hj hjown hjlive]
        omega
    · refine h.other hjobs ?_ (fun j => (hf j).1) ?_ hid hsame hrun
      · intro j hj hpj
        rw [hwf.job_eq hj hjob (of_decide_eq_true hpj), hown]
      · intro j hj
        rw [List.mem_singleton.mp hj]
        exact hnew.1

/-- A dispatch of a service task starts with the full budget. -/
theorem Dispatched.fresh_budget {now : Time} {d : WorkflowDefinition} {tx tx' : Tx}
    {step : WorkflowStep} {next : List StepId} (hdisp : Dispatched svc now d tx step tx' next)
    (hwf : TxWF svc d tx) (hfind : findStep d step.id = some step)
    (htype : step.type = .serviceTask) :
    ∃ row ∈ tx'.db.stepExecutions, row.key = ⟨tx.db.nextId, tx.inst.id, step.id, .serviceTask⟩ ∧
      row.status = .running ∧ HasBudget svc tx'.db row step.retryCount ∧
      tx'.db.spent row.id = 0 ∧ (∃ job ∈ tx'.db.jobs, job.stepExecutionID = row.id ∧
        job.status.live = true) ∧
      ∀ job ∈ tx'.db.jobs, job.stepExecutionID = row.id →
        job.retriesRemaining = step.retryCount := by
  obtain ⟨row, hrows, hkey, -, hstatus⟩ := hdisp.rows hwf hfind
  rw [htype] at hkey
  have hid : row.id = tx.db.nextId := congrArg StepKey.id hkey
  have hi : row.instanceID = tx.inst.id := congrArg StepKey.instanceID hkey
  have hs : row.stepID = step.id := congrArg StepKey.stepID hkey
  have hwf' := hdisp.wf hwf hfind
  rcases hdisp.job_view with ⟨hnot, -⟩ | ⟨-, job, hj, hjkey, hjstatus, hretries⟩
  · exact absurd htype hnot
  have hjse : job.stepExecutionID = tx.db.nextId := congrArg ChildKey.stepExecutionID hjkey
  -- no older job refers to the new execution
  have hold : ∀ j ∈ tx.db.jobs, j.stepExecutionID ≠ tx.db.nextId := fun j hj' =>
    Nat.ne_of_lt (hwf.wf.job_step_lt j hj')
  refine ⟨row, ?_, hkey, ?_, ?_, ?_, ⟨job, ?_, ?_, ?_⟩, ?_⟩
  · rw [hrows]
    exact List.mem_append_right _ (List.mem_singleton_self row)
  · rw [hstatus, htype]
    rfl
  · obtain ⟨inst, hinst, hinstkey, -⟩ := hwf'.mirror.row
    obtain ⟨f, hv⟩ := hdisp.instance_view
    rw [hv.inst_key] at hinstkey
    exact ⟨inst, hinst, (congrArg InstanceKey.id hinstkey).trans hi.symm, d,
      hwf.mirror.runs.of_key hinstkey, step, hs ▸ hfind, rfl⟩
  · rw [hid]
    refine List.countP_eq_zero.mpr fun j hj' => ?_
    rw [hj] at hj'
    rcases List.mem_append.mp hj' with hj' | hj'
    · simp [failedFor, hold j hj']
    · simp [List.mem_singleton.mp hj', failedFor, hjstatus]
  · rw [hj]
    exact List.mem_append_right _ (List.mem_singleton_self job)
  · exact hjse.trans hid.symm
  · rw [hjstatus]
    rfl
  · intro j hj' hown
    rw [hj] at hj'
    rcases List.mem_append.mp hj' with hj' | hj'
    · exact absurd (hown.trans hid) (hold j hj')
    · rw [List.mem_singleton.mp hj', hretries]

theorem Dispatched.budget {now : Time} {d : WorkflowDefinition} {tx tx' : Tx} {step : WorkflowStep}
    {next : List StepId} (hdisp : Dispatched svc now d tx step tx' next) (hwf : TxWF svc d tx)
    (hfind : findStep d step.id = some step) (h : Budget svc tx.db) : Budget svc tx'.db := by
  have hwf' := hdisp.wf hwf hfind
  have hev := hdisp.evolves hwf hfind
  obtain ⟨row, hrows, hkey, -, -⟩ := hdisp.rows hwf hfind
  intro se' hse' htype r hr hpos
  rw [hrows] at hse'
  rcases List.mem_append.mp hse' with hold | hnew
  · -- the new job, if there is one, is of the new execution
    have hw := h se' hold htype r (hr.back hwf.wf hwf'.wf hev hold rfl) hpos
    have hne : se'.id ≠ tx.db.nextId := Nat.ne_of_lt (hwf.wf.step_lt se' hold)
    have hjobs : ∃ new : List Job, tx'.db.jobs = Table.update (fun _ => false) id tx.db.jobs ++ new ∧
        ∀ j ∈ new, j.stepExecutionID = tx.db.nextId := by
      rw [Table.update_id]
      rcases hdisp.job_view with ⟨-, hj⟩ | ⟨-, job, hj, hjkey, -⟩
      · exact ⟨[], by simp [hj], by simp⟩
      · refine ⟨[job], hj, fun j hj' => ?_⟩
        rw [List.mem_singleton.mp hj']
        exact congrArg ChildKey.stepExecutionID hjkey
    obtain ⟨new, hjobs, hnew⟩ := hjobs
    exact hw.other hjobs (fun _ _ h => by cases h) (fun _ => rfl) hnew rfl hne fun h => h
  · obtain rfl := List.mem_singleton.mp hnew
    have hst : se'.stepType = step.type := congrArg StepKey.stepType hkey
    rw [htype] at hst
    obtain ⟨row, hrow, hrowkey, -, hbudget, hspent, -, hretries⟩ :=
      hdisp.fresh_budget hwf hfind hst.symm
    obtain rfl : row = se' := hwf'.wf.step_eq hrow (by rw [hrows]; exact hse')
      ((congrArg StepKey.id hrowkey).trans (congrArg StepKey.id hkey).symm)
    obtain rfl : step.retryCount = r := hbudget.unique hwf'.wf hr
    refine ⟨by rw [hspent]; omega, fun _ => ⟨by rw [hspent]; omega, ?_⟩⟩
    intro job hjob hown _
    rw [hspent, hretries job hjob hown]
    simp

theorem budget_invariant (svc : Service) :
    TxInvariant svc (fun db => db.WF svc ∧ Delivery db)
      (fun d tx _ => TxWF svc d tx ∧ Delivery tx.db) (fun _ _ => True) (fun _ => True)
      (Budget svc) (fun _ tx _ => Budget svc tx.db) where
  opening := by
    intro db op now p fuel hwf h _ hop
    have hev := (evolves_invariant svc db).opening fuel hwf.1 (.refl db) trivial hop
    have hwf' := (wf_invariant svc).opening fuel trivial hwf.1 trivial hop
    have hview := hop.job_view hwf.1
    have hrewritten := hop.rewritten hwf.1
    have hafter : p.tables.WF svc → db.Evolves p.tables → Budget svc p.tables := by
      intro hwf' hev se' hse' htype r hr hpos
      obtain ⟨f, hrows, hf, hclosed⟩ := hrewritten
      obtain ⟨se, hse, rfl⟩ := List.mem_map.mp (hrows ▸ hse')
      have hkey := (hf se).1
      have hst : se.stepType = .serviceTask := (congrArg StepKey.stepType hkey).symm.trans htype
      have hw := h se hse hst r (hr.back hwf.1 hwf' hev hse hkey) hpos
      refine hview.within hwf.1 hwf.2 hse hse' hkey ?_ hw
      intro hrun
      by_contra hnot
      rw [hclosed se hse hnot] at hrun
      exact hnot hrun
    cases p with
    | commit db' reply => exact hafter hwf' hev
    | dispatch d tx steps => exact hafter hwf'.wf hev
    | chain d tx steps source => exact hafter hwf'.wf hev
  step := fun hwf h _ hfind hdisp => hdisp.budget hwf.1 hfind h
  closing := fun _ h => h
  acknowledge := by
    intro db source child h se hse htype r hr hpos
    have hw := h se hse htype r hr hpos
    exact ⟨hw.total, hw.left⟩

theorem budget_run (svc : Service) (calls : List Call) : Budget svc (run svc calls) :=
  ((((wf_invariant svc).and (delivery_invariant svc)).and (budget_invariant svc)).run
    ⟨⟨wf_empty svc, delivery_empty⟩, fun _ h => by simp at h⟩
    ((Run.guarded_true _ calls).mono fun _ _ _ => ⟨trivial, fun _ _ => trivial⟩)).2

end Budget

/-! ## What spends the budget -/

/-- Failures, heartbeats, lease recoveries, forced retries, and completions
    that are ignored. -/
def Op.jobEvent (now : Time) (db : Db) : Op → Bool
  | .failJob _ _ _ _ | .heartbeat _ _ _ _ | .retryJob _ | .sweepLease _ => true
  | .completeJob jobID workerID _ => !callbackAccepted now db jobID workerID
  | _ => false

/-- Those of them that are no accepted failures. -/
def Op.costless (now : Time) (db : Db) : Op → Bool
  | .heartbeat _ _ _ _ | .retryJob _ | .sweepLease _ => true
  | .failJob jobID workerID _ _ | .completeJob jobID workerID _ =>
    !callbackAccepted now db jobID workerID
  | _ => false

/-- An accepted failure of the execution that is not to be retried, or that
    comes after `r` others. -/
def Op.exhausts (now : Time) (db : Db) (seID : Nat) (r : Int) : Op → Bool
  | .failJob jobID workerID _ retryable =>
    callbackAccepted now db jobID workerID &&
      (db.getJob jobID).any (fun job => decide (job.stepExecutionID = seID)) &&
      (!retryable || decide ((db.spent seID : Int) = r))
  | _ => false

section Events

variable {svc : Service} {now : Time} {db : Db} {op : Op}

/-- An event that is no accepted failure closes no execution and leaves the
    failures alone. -/
theorem Opened.costless {p : Plan} (h : Opened svc now db op p)
    (hop : op.costless now db = true) : ∃ db', p = .commit db' none ∧
      db'.stepExecutions = db.stepExecutions ∧ ∀ seID, db'.spent seID = db.spent seID := by
  cases h with
  | ignored op hrefused => exact ⟨db, rfl, rfl, fun _ => rfl⟩
  | outputsRejected jobID workerID vars job se inst violations hcb hacc =>
    simp [Op.costless, callbackAccepted_of hcb, hacc] at hop
  | jobCompleted jobID workerID vars job se inst d step g hcb hacc =>
    simp [Op.costless, callbackAccepted_of hcb, hacc] at hop
  | jobAdvanced jobID workerID vars job se inst d step g json tx next hcb hacc =>
    simp [Op.costless, callbackAccepted_of hcb, hacc] at hop
  | jobRetried jobID workerID errorMessage job se inst hcb hacc =>
    simp [Op.costless, callbackAccepted_of hcb, hacc] at hop
  | jobFailed jobID workerID errorMessage retryable job se inst hcb hacc =>
    simp [Op.costless, callbackAccepted_of hcb, hacc] at hop
  | jobReplaced op jobID job se inst hop' hcb halive hlocked =>
    refine ⟨_, rfl, enqueueReplacement_stepExecutions .., fun seID => ?_⟩
    unfold Db.spent
    rw [enqueueReplacement_jobs, List.countP_append]
    have hnew : [replacement now (db.cancelLockedJob jobID) job.toDispatchJob].countP
        (failedFor seID) = 0 := by
      simp [failedFor, replacement]
    rw [hnew, Nat.add_zero]
    apply Table.countP_update_eq
    intro r _ hr
    simp only [Bool.and_eq_true, decide_eq_true_eq] at hr
    simp [failedFor, hr.2]
  | leaseExtended later jobID workerID seconds lease job se inst hcb halive hlocked =>
    exact ⟨_, rfl, rfl, fun seID => Table.countP_update_eq fun _ _ _ => rfl⟩
  | _ => cases hop

/-- The tables after such an event. -/
theorem costless_apply (svc : Service) {call : Call}
    (hop : call.op.costless call.now db = true) :
    (apply svc db call).stepExecutions = db.stepExecutions ∧
      ∀ seID, (apply svc db call).spent seID = db.spent seID := by
  unfold apply perform
  cases ht : transact svc db call with
  | error e => exact ⟨rfl, fun _ => rfl⟩
  | ok r =>
    obtain ⟨p, hp, hsettle⟩ := bind_eq_ok ht
    obtain ⟨db', rfl, hsteps, hspent⟩ := (plan_opened hp).costless hop
    cases hsettle
    exact ⟨hsteps, hspent⟩

/-- The tables after an accepted failure. -/
theorem failJob_apply {jobID : Nat} {workerID errorMessage : String} {retryable : Bool} {fuel : Nat}
    {job : Job} {se : StepExecution} {inst : WorkflowInstance}
    (hcb : Callback db jobID job se inst)
    (hacc : (jobExecution now job se inst).acceptsCallback workerID = true) :
    apply svc db ⟨.failJob jobID workerID errorMessage retryable, now, fuel⟩ =
      if retryable && decide (0 < job.retriesRemaining) then
        enqueueReplacement svc now (db.markJobFailed jobID workerID)
          { job.toDispatchJob with retriesRemaining := job.retriesRemaining - 1 }
      else ((db.markJobFailed jobID workerID).failStepExecutionByID now job.stepExecutionID
        errorMessage).markInstanceFailed now job.instanceID errorMessage := by
  have hplan : failJob svc now db jobID workerID errorMessage retryable =
      .ok (.commit (if retryable && decide (0 < job.retriesRemaining) then
        enqueueReplacement svc now (db.markJobFailed jobID workerID)
          { job.toDispatchJob with retriesRemaining := job.retriesRemaining - 1 }
      else ((db.markJobFailed jobID workerID).failStepExecutionByID now job.stepExecutionID
        errorMessage).markInstanceFailed now job.instanceID errorMessage) none) := by
    unfold failJob
    rw [lockJobExecution_of hcb]
    simp only [bind, Except.bind, hacc, Bool.not_true, Bool.false_eq_true, if_false, hcb.job_eq,
      orError]
    split <;> rfl
  unfold apply perform transact
  simp only [plan, hplan, bind, Except.bind, Plan.settle]

/-- The execution has failed in these tables. -/
def Db.failedStep (db : Db) (seID : Nat) : Prop :=
  ∃ se ∈ db.stepExecutions, se.id = seID ∧ se.status = .failed

private theorem not_failedStep (hwf : db.WF svc) {db' : Db} {se : StepExecution}
    (hse : se ∈ db.stepExecutions) (hrun : se.status = .running)
    (hrows : ∀ r ∈ db'.stepExecutions, r.id = se.id → r ∈ db.stepExecutions) :
    ¬ db'.failedStep se.id := by
  rintro ⟨r, hr, hid, hfailed⟩
  obtain rfl := hwf.step_eq (hrows r hr hid) hse hid
  rw [hrun] at hfailed
  cases hfailed

section Failure

variable {jobID : Nat} {workerID : String} (errorMessage : String) {retryable : Bool} (fuel : Nat)
  {job : Job} {se se₀ : StepExecution} {inst : WorkflowInstance}

/-- The failure of another execution. -/
private theorem failJob_other (hwf : db.WF svc) (hcb : Callback db jobID job se₀ inst)
    (hacc : (jobExecution now job se₀ inst).acceptsCallback workerID = true)
    (hse : se ∈ db.stepExecutions) (hrun : se.status = .running)
    (hown : job.stepExecutionID ≠ se.id) :
    ¬ (apply svc db ⟨.failJob jobID workerID errorMessage retryable, now, fuel⟩).failedStep
      se.id := by
  rw [failJob_apply hcb hacc]
  refine not_failedStep hwf hse hrun fun r hr hid => ?_
  split at hr
  · simpa using hr
  · obtain ⟨r₀, hr₀, rfl⟩ := Table.mem_update.mp hr
    by_cases hid' : r₀.id = job.stepExecutionID
    · simp only [hid', decide_true, if_true] at hid
      exact absurd hid hown
    · simpa [hid'] using hr₀

/-- A failure that is to be retried. -/
private theorem failJob_retried (hwf : db.WF svc) (hcb : Callback db jobID job se₀ inst)
    (hacc : (jobExecution now job se₀ inst).acceptsCallback workerID = true)
    (hse : se ∈ db.stepExecutions) (hrun : se.status = .running)
    (hretry : (retryable && decide (0 < job.retriesRemaining)) = true) :
    ¬ (apply svc db ⟨.failJob jobID workerID errorMessage retryable, now, fuel⟩).failedStep
      se.id := by
  rw [failJob_apply hcb hacc, if_pos hretry]
  exact not_failedStep hwf hse hrun fun r hr _ => by simpa using hr

/-- A failure that is final. -/
private theorem failJob_final (hwf : db.WF svc) (hcb : Callback db jobID job se inst)
    (hacc : (jobExecution now job se inst).acceptsCallback workerID = true)
    (hfinal : (retryable && decide (0 < job.retriesRemaining)) = false) :
    (apply svc db ⟨.failJob jobID workerID errorMessage retryable, now, fuel⟩).failedStep se.id ∧
      ∃ r ∈ (apply svc db ⟨.failJob jobID workerID errorMessage retryable, now, fuel⟩).instances,
        r.id = se.instanceID ∧ r.status = .failed := by
  rw [failJob_apply hcb hacc, if_neg (by simp [hfinal])]
  refine ⟨?_, ?_⟩
  · refine ⟨_, Table.mem_update_of (getStepExecution_mem hcb.se_eq) ?_, rfl, rfl⟩
    simp [getStepExecution_id hcb.se_eq]
  · refine ⟨_, Table.mem_update_of (getInstance_mem hcb.inst_eq) ?_, (hcb.service hwf).2.symm, rfl⟩
    simp [getInstance_id hcb.inst_eq]

end Failure

/-- An event fails the execution if and only if it exhausts its budget. -/
theorem failedStep_iff (hwf : db.WF svc) {se : StepExecution} {r : Int}
    (hse : se ∈ db.stepExecutions) (hrun : se.status = .running) (hw : Within db se r) (call : Call)
    (hevent : call.op.jobEvent call.now db = true) :
    ((apply svc db call).failedStep se.id ↔ call.op.exhausts call.now db se.id r = true) ∧
      (call.op.exhausts call.now db se.id r = true →
        ∃ inst ∈ (apply svc db call).instances, inst.id = se.instanceID ∧ inst.status = .failed) := by
  by_cases hcost : call.op.costless call.now db = true
  · have hsteps : (apply svc db call).stepExecutions = db.stepExecutions :=
      (costless_apply svc hcost).1
    have hnot : ¬ (apply svc db call).failedStep se.id :=
      not_failedStep hwf hse hrun fun r hr _ => hsteps ▸ hr
    have hno : call.op.exhausts call.now db se.id r = false := by
      cases hop : call.op <;> rw [hop] at hcost <;> simp_all [Op.exhausts, Op.costless]
    simp [hnot, hno]
  · -- what is left is an accepted failure
    obtain ⟨op, now, fuel⟩ := call
    cases op with
    | failJob jobID workerID errorMessage retryable =>
      simp only [Op.costless, Bool.not_eq_true', Bool.not_eq_false] at hcost
      obtain ⟨job, se₀, inst, hcb, hacc⟩ := callback_of_accepted hcost
      have hex : Op.exhausts now db se.id r (.failJob jobID workerID errorMessage retryable) =
          (decide (job.stepExecutionID = se.id) &&
            (!retryable || decide ((db.spent se.id : Int) = r))) := by
        simp [Op.exhausts, hcost, hcb.job_eq]
      simp only at hex ⊢
      rw [hex]
      by_cases hown : job.stepExecutionID = se.id
      · -- the job has no retries left when all of them are spent
        obtain ⟨hle, hleft⟩ := hw.left hrun
        have hretries := hleft job (getJob_mem hcb.job_eq).1 hown (alive_of_acceptsCallback hacc).2
        have hlast : (retryable && decide (0 < job.retriesRemaining)) =
            !(!retryable || decide ((db.spent se.id : Int) = r)) := by
          have : (0 < job.retriesRemaining) ↔ ¬ (db.spent se.id : Int) = r := by omega
          cases retryable <;> simp [this]
        obtain rfl : se = se₀ := hwf.step_eq hse (getStepExecution_mem hcb.se_eq)
          (hown.symm.trans (getStepExecution_id hcb.se_eq).symm)
        cases hfinal : (!retryable || decide ((db.spent se.id : Int) = r)) with
        | false =>
          have hnot := failJob_retried errorMessage fuel hwf hcb hacc hse hrun
            (by rw [hlast, hfinal]; rfl)
          simp [hnot]
        | true =>
          obtain ⟨hfailed, hinst⟩ := failJob_final errorMessage fuel hwf hcb hacc
            (by rw [hlast, hfinal]; rfl)
          simp only [hown, decide_true, Bool.and_self, iff_true, forall_const]
          exact ⟨hfailed, hinst⟩
      · have hnot : ¬ (apply svc db ⟨.failJob jobID workerID errorMessage retryable, now,
            fuel⟩).failedStep se.id :=
          failJob_other errorMessage fuel hwf hcb hacc hse hrun hown
        simp [hnot, hown]
    | completeJob jobID workerID vars => exact absurd hevent hcost
    | heartbeat later jobID workerID seconds => exact absurd rfl hcost
    | retryJob jobID => exact absurd rfl hcost
    | sweepLease jobID => exact absurd rfl hcost
    | _ => cases hevent

/-- A manual retry of a service task starts an execution with the full
    budget. -/
theorem retryFailedStep_budget (hwf : db.WF svc) {call : Call} {instanceID : Nat} {stepID : StepId}
    {patch : GoMap Value} (hop : call.op = .retryFailedStep instanceID stepID patch)
    (hok : (perform svc db call).2 = none) {inst : WorkflowInstance} (hinst : inst ∈ db.instances)
    (hid : inst.id = instanceID) {d : WorkflowDefinition} (hd : Runs svc inst d)
    {step : WorkflowStep} (hfind : findStep d stepID = some step)
    (htype : step.type = .serviceTask) :
    ∃ se ∈ (apply svc db call).stepExecutions,
      se.key = ⟨db.nextId, instanceID, stepID, .serviceTask⟩ ∧ se.status = .running ∧
      HasBudget svc (apply svc db call) se step.retryCount ∧
      (apply svc db call).spent se.id = 0 ∧
      (∃ job ∈ (apply svc db call).jobs, job.stepExecutionID = se.id ∧ job.status.live = true) ∧
      ∀ job ∈ (apply svc db call).jobs, job.stepExecutionID = se.id →
        job.retriesRemaining = step.retryCount := by
  obtain ⟨p, r, hp, hsettle, happly⟩ := perform_plan hok
  have hopened := plan_opened hp
  have hwf' := (wf_invariant svc).opening call.fuel trivial hwf trivial hopened
  rw [hop] at hopened
  cases hopened with
  | ignored _ hrefused => cases hrefused
  | jobReplaced _ _ _ _ _ hop' _ _ _ => rcases hop' with h | ⟨h, -⟩ <;> cases h
  | stepRetried inst' _ _ d' g json hinst' hfailed hlatest hd' step' hfind' =>
    obtain rfl := hwf.instance_eq hinst (getInstance_mem hinst') hid
    obtain rfl : d = d' := Except.ok.inj (hd.symm.trans hd')
    obtain rfl : step = step' := Option.some.inj (hfind.symm.trans hfind')
    obtain ⟨tx', hrun, hr⟩ := bind_eq_ok hsettle
    cases hr
    -- the step parks, so its dispatch is the only one
    obtain ⟨n, tx₁, next, -, hs, hrest⟩ := Agenda.run_cons hrun
    obtain ⟨step₁, hfind₁, hdisp⟩ := dispatchStep_dispatched hs
    obtain rfl : step = step₁ := Option.some.inj (hfind.symm.trans hfind₁)
    obtain rfl := findStep_id hfind
    obtain rfl : next = [] := by
      cases hdisp <;> simp_all
    have hsame : tx₁ = tx' := by
      cases n <;> exact Except.ok.inj hrest
    subst hsame
    rw [happly]
    exact hdisp.fresh_budget hwf' hfind htype

end Events

/-- The retry budget of an execution with `r` retries. -/
structure OnBudget (svc : Service) (db : Db) (se : StepExecution) (r : Int) : Prop where
  total : (db.spent se.id : Int) ≤ r + 1
  /-- While it runs, its one live job has what is left. -/
  left : se.status = .running → ∃ job ∈ db.jobs, job.stepExecutionID = se.id ∧
    job.status.live = true ∧ job.retriesRemaining = r - db.spent se.id ∧
    ∀ other ∈ db.jobs, other.stepExecutionID = se.id → other.status.live = true → other = job
  /-- Whatever is no accepted failure leaves that as it is. -/
  kept : se.status = .running → ∀ call : Call, call.op.costless call.now db = true →
    (apply svc db call).spent se.id = db.spent se.id ∧
    ∀ job ∈ (apply svc db call).jobs, job.stepExecutionID = se.id → job.status.live = true →
      job.retriesRemaining = r - db.spent se.id
  /-- Step and instance fail with the budget. -/
  failed : se.status = .running → ∀ call : Call, call.op.jobEvent call.now db = true →
    ((apply svc db call).failedStep se.id ↔ call.op.exhausts call.now db se.id r = true) ∧
    (call.op.exhausts call.now db se.id r = true →
      ∃ inst ∈ (apply svc db call).instances, inst.id = se.instanceID ∧ inst.status = .failed)

/-- A charge that is tried again once. -/
def chargeTwice : WorkflowDefinition where
  id := "charge-twice"
  version := 1
  name := "charge twice"
  steps := [
    { id := "charge", name := "charge", type := .serviceTask, jobType := "charge",
      retryCount := 1, nextStep := "end" },
    { id := "end", name := "end", type := .endStep }]

/-- The first charge is declined, and reported twice. -/
def declinedOnceRun : List Call :=
  [chargeTwice.start, ⟨.failJob 2 "worker" "declined" true, 1, 16⟩,
    ⟨.failJob 2 "worker" "declined" true, 2, 16⟩]

end Rochallor
