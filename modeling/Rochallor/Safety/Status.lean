import Rochallor.Definition.Validator
import Rochallor.Framework.Log
import Rochallor.Safety.Lifecycle
import Mathlib.Logic.Relation

/-! # Instance statuses

    Every statement that writes `workflow_instance.status` is in the log
    `Db.statusWrites`, so the history of an instance's status can be read off
    the tables.  `StatusStep` lists what the engine does to the status and to
    `completed_at`; the status a row has is always the one written last.

    Whether a terminal status is stable depends on the dispatches alone: no
    entry point writes the status of an ended instance, except `RetryFailedStep`
    on a failed one.
-/

namespace Rochallor

/-! ## One status change -/

/-- What the engine does to the instance rows and the log, one statement at a
    time.  `A` is what is known of a write: the status it finds and the entry. -/
inductive StatusStep (A : InstanceStatus → StatusWrite → Prop) (db db' : Db) : Prop
  /-- Statuses are left alone. -/
  | keep (p : WorkflowInstance → Bool) (f : WorkflowInstance → WorkflowInstance)
      (hrows : db'.instances = Table.update p f db.instances)
      (hkey : ∀ r, (f r).key = r.key) (hstatus : ∀ r, (f r).status = r.status)
      (hdone : ∀ r, (f r).completedAt = r.completedAt)
      (hwrites : db'.statusWrites = db.statusWrites) (hnext : db.nextId ≤ db'.nextId)
  /-- An instance is inserted. -/
  | insert (inst : WorkflowInstance) (hid : inst.id = db.nextId)
      (hflight : inst.status.inFlight = true) (hdone : inst.completedAt = none)
      (hrows : db'.instances = db.instances ++ [inst])
      (hwrites : db'.statusWrites =
        db.statusWrites ++ [⟨inst.id, inst.status, .insertInstance⟩])
      (hnext : db.nextId < db'.nextId) (hbusiness : inst.businessKey ≠ some "")
  /-- The status of an instance is written. -/
  | write (w : StatusWrite) (f : WorkflowInstance → WorkflowInstance) (row : WorkflowInstance)
      (hrow : row ∈ db.instances) (hid : row.id = w.instanceID) (hallowed : A row.status w)
      (hrows : db'.instances =
        Table.update (fun r => decide (r.id = w.instanceID)) f db.instances)
      (hkey : ∀ r, (f r).key = r.key) (hstatus : ∀ r, (f r).status = w.status)
      (hset : w.status.terminal = true → ∀ r, (f r).completedAt.isSome = true)
      (hclear : w.statement = .reactivateInstance → ∀ r, (f r).completedAt = none)
      (hkeep : w.statement ≠ .reactivateInstance → w.status.terminal = false →
        ∀ r, (f r).completedAt = r.completedAt)
      (hwrites : db'.statusWrites = db.statusWrites ++ [w]) (hnext : db.nextId ≤ db'.nextId)

/-- The tables of instances are not touched. -/
theorem StatusStep.frame {A : InstanceStatus → StatusWrite → Prop} {db db' : Db}
    (hi : db'.instances = db.instances) (hw : db'.statusWrites = db.statusWrites)
    (hn : db.nextId ≤ db'.nextId) : StatusStep A db db' :=
  .keep (fun _ => false) id (by rw [hi, Table.update_id]) (fun _ => rfl) (fun _ => rfl)
    (fun _ => rfl) hw hn

/-- A write the entry points make: to an instance in flight, or the
    reactivation of a failed one. -/
def EntryWrite (found : InstanceStatus) (w : StatusWrite) : Prop :=
  (found.inFlight = true ∧ w.statement ≠ .reactivateInstance) ∨
    (found = .failed ∧ w.status = .active ∧ w.statement = .reactivateInstance)

/-- Status changes in a row. -/
abbrev Statuses := Relation.ReflTransGen (StatusStep EntryWrite)

section Openings

variable {svc : Service} {now : Time} {db db' : Db} {d : WorkflowDefinition}

/-- A write that is not a reactivation, to an instance in flight. -/
theorem StatusStep.ofFlight {inst : WorkflowInstance} {instanceID : Nat}
    {status : InstanceStatus} {statement : StatusStatement}
    {f : WorkflowInstance → WorkflowInstance} (hinst : inst ∈ db.instances)
    (hid : inst.id = instanceID) (hflight : inst.status.inFlight = true)
    (hrows : db'.instances = Table.update (fun r => decide (r.id = instanceID)) f db.instances)
    (hwrites : db'.statusWrites = db.statusWrites ++ [⟨instanceID, status, statement⟩])
    (hnext : db.nextId ≤ db'.nextId) (hstatement : statement ≠ .reactivateInstance)
    (hkey : ∀ r, (f r).key = r.key) (hstatus : ∀ r, (f r).status = status)
    (hset : status.terminal = true → ∀ r, (f r).completedAt.isSome = true)
    (hkeep : status.terminal = false → ∀ r, (f r).completedAt = r.completedAt) :
    StatusStep EntryWrite db db' :=
  .write ⟨instanceID, status, statement⟩ f inst hinst hid (.inl ⟨hflight, hstatement⟩) hrows hkey
    hstatus hset (fun h => absurd h hstatement) (fun _ => hkeep) hwrites hnext

theorem recomputeInstanceStatus_inFlight (d : WorkflowDefinition) (ids : List StepId) :
    (recomputeInstanceStatus d ids).inFlight = true := by
  simp only [recomputeInstanceStatus]
  split <;> rfl

/-- Advancing writes the recomputed status, and then `FAILED` if no branch can
    be chosen. -/
theorem Advanced.statuses {tx tx' : Tx} {step : WorkflowStep} {next : List StepId}
    (h : Advanced now d tx step tx' next) {row : WorkflowInstance}
    (hrow : row ∈ tx.db.instances) (hid : row.id = tx.inst.id)
    (hflight : row.status.inFlight = true) (hstatuses : Statuses db tx.db) :
    Statuses db tx'.db := by
  have hflight' := recomputeInstanceStatus_inFlight d (withoutStep tx.inst.currentStepIDs step.id)
  have hadv : StatusStep EntryWrite tx.db (advanced d tx step).db := by
    refine .ofFlight hrow hid hflight rfl rfl (Nat.le_refl _) (by simp) (fun _ => rfl)
      (fun _ => rfl) ?_ fun _ _ => rfl
    intro hterm
    simp [InstanceStatus.terminal, hflight'] at hterm
  cases h with
  | on target htarget => exact hstatuses.tail hadv
  | stop hnext hlen => exact hstatuses.tail hadv
  | fail reason =>
    have hrow' : { row with
        currentStepIDs := withoutStep tx.inst.currentStepIDs step.id,
        status := recomputeInstanceStatus d (withoutStep tx.inst.currentStepIDs step.id) } ∈
        (advanced d tx step).db.instances :=
      Table.mem_update_of hrow (by simp [hid])
    exact (hstatuses.tail hadv).tail (.ofFlight hrow' hid hflight' rfl rfl (Nat.le_refl _) (by simp)
      (fun _ => rfl) (fun _ => rfl) (fun _ _ => rfl) fun hterm => by cases hterm)

/-- Merging variables leaves statuses alone. -/
theorem StatusStep.patchVars (A : InstanceStatus → StatusWrite → Prop) (db : Db)
    (instanceID : Nat) (g : Json → Json) : StatusStep A db (db.patchVars instanceID g) :=
  .keep _ (fun r => { r with vars := g r.vars }) rfl (fun _ => rfl) (fun _ => rfl) (fun _ => rfl)
    rfl (Nat.le_refl _)

/-- Advancing after variables have been merged. -/
theorem Advanced.statuses_merged {db' : Db} {inst : WorkflowInstance} {g : Json → Json}
    {json : Json} {tx' : Tx} {step : WorkflowStep} {next : List StepId}
    (h : Advanced now d ⟨db'.patchVars inst.id g, { inst with vars := json }⟩ step tx' next)
    (hinst : inst ∈ db.instances) (hflight : inst.status.inFlight = true)
    (hrows : db'.instances = db.instances) (hwrites : db'.statusWrites = db.statusWrites)
    (hnext : db'.nextId = db.nextId) : Statuses db tx'.db := by
  have hrow : { inst with vars := g inst.vars } ∈ (db'.patchVars inst.id g).instances :=
    Table.mem_update_of (hrows ▸ hinst) (by simp)
  refine h.statuses hrow rfl hflight (.single (.keep (fun r => decide (r.id = inst.id))
    (fun r => { r with vars := g r.vars }) ?_ (fun _ => rfl) (fun _ => rfl) (fun _ => rfl) hwrites
    (Nat.le_of_eq hnext.symm)))
  rw [← hrows]
  rfl

/-- An empty business key is stored as `NULL`. -/
private theorem nonempty_key {businessKey : String} {key : Option String}
    (h : key = if businessKey.isEmpty then none else some businessKey) : key ≠ some "" := by
  rintro rfl
  split at h
  · cases h
  · rename_i hne
    obtain rfl := Option.some.inj h
    exact hne rfl

/-- What an operation does to the statuses before its dispatches. -/
theorem Opened.statuses {op : Op} {p : Plan} (h : Opened svc now db op p) :
    Statuses db p.tables := by
  cases h with
  | ignored op hrefused => exact .refl
  | started definitionID version vars businessKey d json key hd hsteps hkey =>
    refine .single (.insert _ rfl rfl rfl rfl rfl (Nat.lt_succ_self _) ?_)
    exact nonempty_key hkey
  | chainStarted source d json key hd hsteps hclaim request hrequest hjson hkey =>
    refine .single (.insert _ rfl rfl rfl rfl rfl (Nat.lt_succ_self _) ?_)
    exact nonempty_key hkey
  | outputsRejected jobID workerID vars job se inst violations hcb hacc =>
    obtain ⟨⟨hflight, -⟩, -⟩ := alive_of_acceptsCallback hacc
    exact .single (.ofFlight (getInstance_mem hcb.inst_eq) rfl hflight rfl rfl (Nat.le_refl _) (by simp)
      (fun _ => rfl) (fun _ => rfl) (fun _ _ => rfl) fun hterm => by cases hterm)
  | jobCompleted jobID workerID vars job se inst d step g hcb hacc hd hstep hnext =>
    exact .single (.keep _ (fun r => { r with vars := g r.vars }) rfl (fun _ => rfl) (fun _ => rfl)
      (fun _ => rfl) rfl (Nat.le_refl _))
  | jobAdvanced jobID workerID vars job se inst d step g json tx next hcb hacc hd hstep hadv =>
    obtain ⟨⟨hflight, -⟩, -⟩ := alive_of_acceptsCallback hacc
    exact hadv.statuses_merged (getInstance_mem hcb.inst_eq) hflight rfl rfl rfl
  | jobRetried jobID workerID errorMessage job se inst hcb hacc hretries =>
    refine .single (.frame (by simp [Plan.tables]) (by simp [Plan.tables]) ?_)
    exact Nat.le_of_lt (nextId_lt_enqueueReplacement svc now (db.markJobFailed jobID workerID) _)
  | jobFailed jobID workerID errorMessage retryable job se inst hcb hacc =>
    obtain ⟨⟨hflight, -⟩, -⟩ := alive_of_acceptsCallback hacc
    exact .single (.ofFlight (getInstance_mem hcb.inst_eq) rfl hflight rfl rfl (Nat.le_refl _) (by simp)
      (fun _ => rfl) (fun _ => rfl) (fun _ _ => rfl) fun hterm => by cases hterm)
  | jobReplaced op jobID job se inst hop hcb halive hlocked =>
    refine .single (.frame (by simp [Plan.tables]) (by simp [Plan.tables]) ?_)
    exact Nat.le_of_lt (nextId_lt_enqueueReplacement svc now (db.cancelLockedJob jobID) _)
  | leaseExtended later jobID workerID seconds lease job se inst hcb halive hlocked howner hvalid =>
    exact .single (.frame rfl rfl (Nat.le_refl _))
  | polled workerID jobTypes max seconds lease rowLocked =>
    obtain ⟨jobs, hpoll⟩ := db.pollJobs_tables now workerID jobTypes max lease rowLocked
    rw [Plan.tables, hpoll]
    exact .single (.frame rfl rfl (Nat.le_refl _))
  | userTaskCompleted stepID vars inst d step result merged g tx next hinst hflight hd hstep
      htype hrows hadv =>
    exact hadv.statuses_merged (getInstance_mem hinst) hflight rfl rfl rfl
  | waitSignalled stepID vars inst d step merged g tx next hinst hflight hd hstep htype hrows
      hadv =>
    exact hadv.statuses_merged (getInstance_mem hinst) hflight rfl rfl rfl
  | timerConsumed eventID inst event hinst hevent hdead =>
    exact .single (.frame rfl rfl (Nat.le_refl _))
  | timerInterrupts eventID inst event se d hinst hevent hinterrupting hse halive hd =>
    exact .single (.frame rfl rfl (Nat.le_refl _))
  | timerForks eventID inst event se d hinst hevent hinterrupting hse halive hd =>
    exact .single (.frame rfl rfl (Nat.le_refl _))
  | housekept retention => exact .single (.frame rfl rfl (Nat.le_refl _))
  | cancelled inst reason hinst hflight =>
    exact .single (.ofFlight (getInstance_mem hinst) rfl hflight rfl rfl (Nat.le_refl _) (by simp)
      (fun _ => rfl) (fun _ => rfl) (fun _ _ => rfl) fun hterm => by cases hterm)
  | stepRetried inst stepID patch d g json hinst hfailed hlatest hd =>
    refine Relation.ReflTransGen.tail (.single ?_) (.patchVars _ _ inst.id g)
    exact .write ⟨inst.id, .active, .reactivateInstance⟩
      (fun r => { r with status := .active, failureReason := none, completedAt := none }) inst
      (getInstance_mem hinst) rfl (.inr ⟨hfailed, rfl, rfl⟩) rfl (fun _ => rfl) (fun _ => rfl)
      (fun hterm => by cases hterm) (fun _ _ => rfl) (fun h => absurd rfl h) rfl (Nat.le_refl _)

end Openings

/-- What a dispatch writes, on the status the transaction holds. -/
def DispatchWrite (svc : Service) (now : Time) (tx : Tx) (step : WorkflowStep)
    (found : InstanceStatus) (w : StatusWrite) : Prop :=
  found = tx.inst.status ∧ writtenStatus svc now tx.inst.vars step = some w.status ∧
    w.statement ≠ .reactivateInstance

theorem Dispatched.statuses {svc : Service} {now : Time} {d : WorkflowDefinition} {tx tx' : Tx}
    {step : WorkflowStep} {next : List StepId} (h : Dispatched svc now d tx step tx' next)
    (hwf : TxWF svc d tx) : StatusStep (DispatchWrite svc now tx step) tx.db tx'.db := by
  obtain ⟨f, hv⟩ := h.instance_view
  obtain ⟨statement, -, hstatement, hwrites⟩ := hv.writes
  have hnext : tx.db.nextId ≤ tx'.db.nextId := by
    rcases h.timer_view with ⟨-, -, hn⟩ | ⟨-, rows, start, -, -, -, -, hlt, hn⟩ <;> omega
  cases hwritten : writtenStatus svc now tx.inst.vars step with
  | none =>
    rw [hwritten] at hv hwrites
    exact .keep _ f hv.rows hv.key hv.status (hv.completedAt_keep rfl) (by simpa using hwrites) hnext
  | some status =>
    rw [hwritten] at hv hwrites
    obtain ⟨row, hrow, hkey, hstatus⟩ := hwf.mirror.row
    exact .write ⟨tx.inst.id, status, statement⟩ f row hrow (congrArg InstanceKey.id hkey)
      ⟨hstatus, hwritten, hstatement⟩ hv.rows hv.key hv.status hv.completedAt_set
      (fun h => absurd h hstatement) (fun _ hterm => hv.completedAt_keep hterm)
      (by simpa using hwrites) hnext

/-! ## The log -/

/-- The log mentions known instances only, and a row has the status written
    last. -/
structure Logged (db : Db) : Prop where
  known : ∀ w ∈ db.statusWrites, w.instanceID < db.nextId
  ids : ∀ r ∈ db.instances, r.id < db.nextId
  last : ∀ r ∈ db.instances,
    (Log.last (·.instanceID) r.id db.statusWrites).map (·.status) = some r.status

namespace Logged

variable {A : InstanceStatus → StatusWrite → Prop} {db db' : Db}

/-- An instance in the log under an id nobody else has. -/
theorem step (h : Logged db) (hstep : StatusStep A db db') : Logged db' := by
  cases hstep with
  | keep p f hrows hkey hstatus hdone hwrites hnext =>
    have hold : ∀ r' ∈ db'.instances, ∃ r ∈ db.instances, r'.id = r.id ∧ r'.status = r.status := by
      intro r' hr'
      rw [hrows] at hr'
      obtain ⟨r, hr, rfl⟩ := Table.mem_update.mp hr'
      refine ⟨r, hr, ?_⟩
      split
      · exact ⟨congrArg InstanceKey.id (hkey r), hstatus r⟩
      · exact ⟨rfl, rfl⟩
    refine ⟨?_, ?_, ?_⟩
    · intro w hw
      rw [hwrites] at hw
      exact Nat.lt_of_lt_of_le (h.known w hw) hnext
    · intro r' hr'
      obtain ⟨r, hr, hid, -⟩ := hold r' hr'
      rw [hid]
      exact Nat.lt_of_lt_of_le (h.ids r hr) hnext
    · intro r' hr'
      obtain ⟨r, hr, hid, hst⟩ := hold r' hr'
      rw [hid, hst, hwrites]
      exact h.last r hr
  | insert inst hid hflight hdone hrows hwrites hnext =>
    refine ⟨?_, ?_, ?_⟩
    · intro w hw
      rw [hwrites] at hw
      rcases List.mem_append.mp hw with hw | hw
      · exact Nat.lt_trans (h.known w hw) hnext
      · obtain rfl := List.mem_singleton.mp hw
        rw [hid]
        exact hnext
    · intro r hr
      rw [hrows] at hr
      rcases List.mem_append.mp hr with hr | hr
      · exact Nat.lt_trans (h.ids r hr) hnext
      · obtain rfl := List.mem_singleton.mp hr
        rw [hid]
        exact hnext
    · intro r hr
      rw [hrows] at hr
      rw [hwrites]
      rcases List.mem_append.mp hr with hr | hr
      · have hlt := h.ids r hr
        rw [Log.last_append_other (by simp only; omega)]
        exact h.last r hr
      · obtain rfl := List.mem_singleton.mp hr
        simp [Log.last_append_same]
  | write w f row hrow hid hallowed hrows hkey hstatus hset hclear hkeep hwrites hnext =>
    refine ⟨?_, ?_, ?_⟩
    · intro w' hw'
      rw [hwrites] at hw'
      rcases List.mem_append.mp hw' with hw' | hw'
      · exact Nat.lt_of_lt_of_le (h.known w' hw') hnext
      · obtain rfl := List.mem_singleton.mp hw'
        rw [← hid]
        exact Nat.lt_of_lt_of_le (h.ids row hrow) hnext
    · intro r' hr'
      rw [hrows] at hr'
      obtain ⟨r, hr, rfl⟩ := Table.mem_update.mp hr'
      have hlt := Nat.lt_of_lt_of_le (h.ids r hr) hnext
      have hrid : (f r).id = r.id := congrArg InstanceKey.id (hkey r)
      split
      · rw [hrid]
        exact hlt
      · exact hlt
    · intro r' hr'
      rw [hrows] at hr'
      rw [hwrites]
      obtain ⟨r, hr, rfl⟩ := Table.mem_update.mp hr'
      by_cases hr' : r.id = w.instanceID
      · have hrid : (f r).id = r.id := congrArg InstanceKey.id (hkey r)
        simp only [hr', decide_true, if_true, hrid]
        rw [Log.last_append_same rfl, hstatus]
        rfl
      · simp only [hr', decide_false, Bool.false_eq_true, if_false]
        rw [Log.last_append_other (fun heq => hr' heq.symm)]
        exact h.last r hr

theorem statuses (h : Logged db) (hsteps : Relation.ReflTransGen (StatusStep A) db db') :
    Logged db' := by
  induction hsteps with
  | refl => exact h
  | tail _ hstep ih => exact ih.step hstep

end Logged

theorem logged_invariant (svc : Service) :
    TxInvariant svc (fun db => db.WF svc) (fun d tx _ => TxWF svc d tx) (fun _ _ => True)
      (fun _ => True) Logged (fun _ tx _ => Logged tx.db) where
  opening := by
    intro db op now p _ _ h _ hop
    have := h.statuses hop.statuses
    cases p with
    | commit db reply => exact this
    | dispatch d tx steps => exact this
    | chain d tx steps source => exact this
  step := fun hwf h _ _ hdisp => h.step (hdisp.statuses hwf)
  closing := fun _ h => h
  acknowledge := fun h => ⟨h.known, h.ids, h.last⟩

/-! ## Stable statuses -/

/-- The write leaves a terminal status as it finds it, or is `RetryFailedStep`
    taking `FAILED` to `ACTIVE`. -/
def Respects (found : InstanceStatus) (w : StatusWrite) : Prop :=
  found.terminal = true → w.status = found ∨
    (found = .failed ∧ w.status = .active ∧ w.statement = .reactivateInstance)

/-- Two writes to one instance in a row. -/
def Follows (w w' : StatusWrite) : Prop :=
  Respects w.status w'

/-- Terminal statuses have been stable so far, and `completed_at` is set
    exactly on the rows that have one. -/
structure TerminalStable (db : Db) : Prop where
  chain : ∀ instanceID, (Log.of (·.instanceID) instanceID db.statusWrites).IsChain Follows
  completedAt : ∀ r ∈ db.instances, r.completedAt.isSome = r.status.terminal

/-- The dispatch writes a status over another, terminal one: a `USER_TASK`,
    `WAIT` or `END` step, or a routing step whose routing fails, is dispatched
    although the instance has ended in the same transaction. -/
def Dispatch.overwrites (svc : Service) (x : Dispatch) : Bool :=
  x.tx.inst.status.terminal &&
    (findStep x.definition x.stepID).any fun step =>
      (writtenStatus svc x.now x.tx.inst.vars step).any fun status =>
        decide (status ≠ x.tx.inst.status)

namespace TerminalStable

variable {A : InstanceStatus → StatusWrite → Prop} {db db' : Db}

/-- A change keeps statuses stable if its write respects the one it finds. -/
theorem step (h : TerminalStable db) (hlog : Logged db) (hstep : StatusStep A db db')
    (hA : ∀ found w, A found w → Respects found w) : TerminalStable db' := by
  cases hstep with
  | keep p f hrows hkey hstatus hdone hwrites hnext =>
    refine ⟨by rw [hwrites]; exact h.chain, ?_⟩
    intro r' hr'
    rw [hrows] at hr'
    obtain ⟨r, hr, rfl⟩ := Table.mem_update.mp hr'
    split
    · rw [hdone, hstatus]
      exact h.completedAt r hr
    · exact h.completedAt r hr
  | insert inst hid hflight hdone hrows hwrites hnext =>
    refine ⟨?_, ?_⟩
    · -- the log of a new instance is empty
      rw [hwrites]
      refine Log.isChain_append h.chain ?_
      intro w hw
      obtain ⟨hmem, hkey⟩ := Log.last_mem hw
      have := hlog.known w hmem
      simp only [hid] at hkey
      omega
    · intro r hr
      rw [hrows] at hr
      rcases List.mem_append.mp hr with hr | hr
      · exact h.completedAt r hr
      · obtain rfl := List.mem_singleton.mp hr
        simp [hdone, InstanceStatus.terminal, hflight]
  | write w f row hrow hid hallowed hrows hkey hstatus hset hclear hkeep hwrites hnext =>
    have hfound : ∀ r ∈ db.instances, r.id = w.instanceID → r.status = row.status := by
      intro r hr hrid
      have hlast := hlog.last r hr
      rw [hrid, ← hid, hlog.last row hrow] at hlast
      exact (Option.some.inj hlast).symm
    refine ⟨?_, ?_⟩
    · rw [hwrites]
      refine Log.isChain_append h.chain ?_
      intro w₀ hw₀
      have hlast := hlog.last row hrow
      rw [hid, Option.mem_def.mp hw₀] at hlast
      have hst : w₀.status = row.status := Option.some.inj hlast
      rw [Follows, hst]
      exact hA _ w hallowed
    · intro r' hr'
      rw [hrows] at hr'
      obtain ⟨r, hr, rfl⟩ := Table.mem_update.mp hr'
      by_cases hrid : r.id = w.instanceID
      · simp only [hrid, decide_true, if_true, hstatus]
        cases hterm : w.status.terminal with
        | true => exact hset hterm r
        | false =>
          -- only a reactivation takes a terminal status to another one
          by_cases hre : w.statement = .reactivateInstance
          · simp [hclear hre r]
          · rw [hkeep hre hterm r, h.completedAt r hr, hfound r hr hrid]
            by_contra hne
            rcases hA _ w hallowed (by simpa using hne) with heq | ⟨-, -, heq⟩
            · rw [heq] at hterm
              exact hne hterm
            · exact hre heq
      · simp only [hrid, decide_false, Bool.false_eq_true, if_false]
        exact h.completedAt r hr

end TerminalStable

/-- The entry points respect terminal statuses. -/
theorem entryWrite_respects {found : InstanceStatus} {w : StatusWrite} (h : EntryWrite found w) :
    Respects found w := by
  intro hterm
  rcases h with ⟨hflight, -⟩ | hre
  · simp [InstanceStatus.terminal, hflight] at hterm
  · exact .inr hre

theorem terminalStable_statuses {db db' : Db} (h : TerminalStable db) (hlog : Logged db)
    (hsteps : Statuses db db') : TerminalStable db' := by
  have : Logged db' ∧ TerminalStable db' := by
    induction hsteps with
    | refl => exact ⟨hlog, h⟩
    | tail _ hstep ih =>
      exact ⟨ih.1.step hstep, ih.2.step ih.1 hstep fun _ _ => entryWrite_respects⟩
  exact this.2

/-- Statuses are stable along every run without overwriting dispatches. -/
theorem terminalStable_invariant (svc : Service) :
    TxInvariant svc (fun db => db.WF svc ∧ Logged db)
      (fun d tx _ => TxWF svc d tx ∧ Logged tx.db) (fun _ _ => True)
      (fun x => x.overwrites svc = false) TerminalStable (fun _ tx _ => TerminalStable tx.db) where
  opening := by
    intro db op now p _ hlog h _ hop
    have := terminalStable_statuses h hlog.2 hop.statuses
    cases p with
    | commit db reply => exact this
    | dispatch d tx steps => exact this
    | chain d tx steps source => exact this
  step := by
    intro now d tx step pending tx' next hJ h hG hfind hdisp
    refine h.step hJ.2 (hdisp.statuses hJ.1) ?_
    rintro found w ⟨rfl, hwritten, -⟩ hterm
    refine .inl ?_
    simpa [Dispatch.overwrites, hterm, hfind, hwritten] using hG
  closing := fun _ h => h
  acknowledge := fun h => ⟨h.chain, h.completedAt⟩

theorem logged_empty : Logged {} where
  known := by simp
  ids := by simp
  last := by simp

/-- In every run in which no transaction goes on to write another status after
    it has ended the instance, a terminal status never changes except by
    `RetryFailedStep` taking `FAILED` to `ACTIVE`, and `completed_at` is set
    exactly on the instances with a terminal status. -/
theorem terminal_status_stable (svc : Service) (calls : List Call)
    (hguard : Run.Guarded (apply svc)
      (fun db call => ∀ x ∈ dispatches svc db call, x.overwrites svc = false) {} calls) :
    TerminalStable (run svc calls) := by
  have hbase := (wf_invariant svc).and (logged_invariant svc)
  have hinv := hbase.and (terminalStable_invariant svc)
  have h₀ : (({} : Db).WF svc ∧ Logged {}) ∧ TerminalStable {} :=
    ⟨⟨wf_empty svc, logged_empty⟩, fun _ => by simp [Log.of], by simp⟩
  exact (hinv.run h₀ (hguard.mono fun _ _ h => ⟨trivial, h⟩)).2

/-- A gateway with a branch straight to `END` and a branch to a user task. -/
def endBesideReview : WorkflowDefinition where
  id := "end-beside-review"
  version := 1
  name := "end beside review"
  steps := [
    { id := "fork", name := "fork", type := .parallelGateway,
      parallelNextSteps := ["end", "review"], joinStep := "join" },
    { id := "review", name := "review", type := .userTask, nextStep := "join" },
    { id := "join", name := "join", type := .joinGateway, nextStep := "end" },
    { id := "end", name := "end", type := .endStep }]

/-- The dispatch of the second branch takes a completed instance to
    `WAITING`. -/
theorem completed_overwritten :
    ¬ ∀ svc : Service, svc.Uploaded Accepted → ∀ calls, TerminalStable (run svc calls) := by
  intro h
  have hup : (Service.ofList [endBesideReview]).Uploaded Accepted :=
    Service.uploaded_ofList (by decide +kernel)
  have hchain := (h _ hup [endBesideReview.start]).chain 0
  have hlog : Log.of (·.instanceID) 0
      (run (Service.ofList [endBesideReview]) [endBesideReview.start]).statusWrites =
      [⟨0, .active, .insertInstance⟩, ⟨0, .completed, .completeInstance⟩,
        ⟨0, .waiting, .updateInstanceStatus⟩] := by
    decide +kernel
  rw [hlog] at hchain
  simp [Follows, Respects, InstanceStatus.terminal, InstanceStatus.inFlight] at hchain

/-- A review, then `END`. -/
def reviewOnly : WorkflowDefinition where
  id := "review-only"
  version := 1
  name := "review only"
  steps := [
    { id := "review", name := "review", type := .userTask, nextStep := "end" },
    { id := "end", name := "end", type := .endStep }]

theorem terminal_status_stable_reviewOnly :
    TerminalStable (run (Service.ofList [reviewOnly])
      [reviewOnly.start, ⟨.completeUserTask 0 "review" [], 1, 16⟩, ⟨.cancel 0 "late", 2, 16⟩]) :=
  terminal_status_stable _ _ (by decide +kernel)

end Rochallor
