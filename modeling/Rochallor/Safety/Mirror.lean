import Rochallor.Definition.Validator
import Rochallor.Safety.CurrentSteps

/-! # The instance in memory

    A transaction keeps its instance in memory beside the row and updates the
    two by different code.  The status and the variables are written together
    with the copy.  The current steps need not be: striking a step off is left
    to the dispatch that follows, which writes the whole list as it enters its
    own step.  So the lists may differ when a dispatch begins, and agree as
    soon as it has entered its step and when the transaction ends.
-/

namespace Rochallor

/-! ## Agreement -/

/-- The status and the variables of the row are those of the copy. -/
structure AgreesOnVars (inst row : WorkflowInstance) : Prop where
  status : row.status = inst.status
  vars : SameValue inst.vars row.vars

/-- And so are the current steps. -/
structure Agrees (inst row : WorkflowInstance) : Prop extends AgreesOnVars inst row where
  currentStepIDs : row.currentStepIDs = inst.currentStepIDs

/-- The list, or the list with one step struck off. -/
def Strikes (ids written : List StepId) : Prop :=
  ids = written ∨ ∃ stepID, ids = withoutStep written stepID

/-- The row may still list the one step the copy has left. -/
structure Trails (inst row : WorkflowInstance) : Prop extends AgreesOnVars inst row where
  currentStepIDs : Strikes inst.currentStepIDs row.currentStepIDs

/-- The variables that rows of other tables have taken on from `db` to `db'`
    satisfy `R`: input snapshots, payloads of jobs, of their events and of user
    tasks, and what a chain request hands on. -/
structure Snapshots (R : Json → Prop) (db db' : Db) : Prop where
  steps : ∀ r ∈ db'.stepExecutions,
    (∃ old ∈ db.stepExecutions, old.id = r.id ∧ old.inputSnapshot = r.inputSnapshot) ∨
      R r.inputSnapshot
  jobs : ∀ r ∈ db'.jobs, r ∈ db.jobs ∨ R r.payload
  events : ∀ r ∈ db'.outbox, r ∈ db.outbox ∨ R r.event.payload
  tasks : ∀ r ∈ db'.userTasks, r ∈ db.userTasks ∨ R r.payload
  chains : ∀ r ∈ db'.chains, r ∈ db.chains ∨ R r.vars

/-- The row has the variables of the copy. -/
def VarsMirror (tx : Tx) : Prop :=
  ∀ r ∈ tx.db.instances, r.id = tx.inst.id → SameObject tx.inst.vars r.vars

/-- In a transaction with these dispatches pending, the row has the variables
    of the copy, and its list too unless a dispatch follows. -/
structure InMemory (tx : Tx) (pending : List StepId) : Prop where
  vars : VarsMirror tx
  trails : ∃ written, RowSteps tx written ∧ Strikes tx.inst.currentStepIDs written
  steps : pending = [] → RowSteps tx tx.inst.currentStepIDs

section Dispatches

variable {svc : Service} {now : Time} {d : WorkflowDefinition} {tx tx' : Tx} {step : WorkflowStep}
  {next pending : List StepId}

/-- Row and copy are rewritten alike. -/
theorem VarsMirror.update (h : VarsMirror tx) {f : WorkflowInstance → WorkflowInstance}
    {g : Json → Json}
    (hrows : tx'.db.instances =
      Table.update (fun r => decide (r.id = tx.inst.id)) f tx.db.instances)
    (hid : tx'.inst.id = tx.inst.id) (hf : ∀ r, (f r).id = r.id ∧ (f r).vars = g r.vars)
    (hm : Merged tx.inst.vars tx'.inst.vars g) : VarsMirror tx' := by
  intro r' hr' hrid
  rw [hrows] at hr'
  obtain ⟨r, hr, rfl⟩ := Table.mem_update.mp hr'
  by_cases hown : r.id = tx.inst.id
  · simp only [hown, decide_true, if_true, (hf r).2]
    exact (h r hr hown).merged hm
  · simp only [hown, decide_false, Bool.false_eq_true, if_false] at hrid
    exact absurd (hrid.trans hid) hown

/-- Neither is rewritten. -/
theorem VarsMirror.kept (h : VarsMirror tx) (hrows : tx'.db.instances = tx.db.instances)
    (hid : tx'.inst.id = tx.inst.id) (hvars : tx'.inst.vars = tx.inst.vars) : VarsMirror tx' := by
  intro r hr hrid
  rw [hrows] at hr
  rw [hvars]
  exact h r hr (hrid.trans hid)

theorem VarsMirror.enter (h : VarsMirror tx) (step : WorkflowStep) (stepID : StepId) :
    VarsMirror (enterStep tx step stepID) :=
  h.update rfl rfl (fun _ => ⟨rfl, rfl⟩) (.keep fun _ => rfl)

theorem Dispatched.vars_mirror (hdisp : Dispatched svc now d tx step tx' next)
    (h : VarsMirror tx) : VarsMirror tx' := by
  have hentered := h.enter step step.id
  cases hdisp with
  | service job rows htype hrows hids => exact hentered.kept (by simp) rfl rfl
  | user rows htype hrows hids =>
    exact hentered.update (f := fun r => { r with status := .waiting }) rfl rfl
      (fun _ => ⟨rfl, rfl⟩) (.keep fun _ => rfl)
  | wait rows htype hrows hids =>
    exact hentered.update (f := fun r => { r with status := .waiting }) rfl rfl
      (fun _ => ⟨rfl, rfl⟩) (.keep fun _ => rfl)
  | route g vars next htype hpass hnext hmerged =>
    exact hentered.update (f := fun r => { r with vars := g r.vars }) rfl rfl
      (fun _ => ⟨rfl, rfl⟩) hmerged
  | fork htype => exact hentered.kept rfl rfl rfl
  | transform g vars htype hpass hmerged =>
    exact hentered.update (f := fun r => { r with vars := g r.vars }) rfl rfl
      (fun _ => ⟨rfl, rfl⟩) hmerged
  | hold gateway htype hgateway hcount => exact hentered.kept rfl rfl rfl
  | join gateway htype hgateway hcount => exact hentered.kept rfl rfl rfl
  | finish chains htype ids hids hchains =>
    exact hentered.update (f := fun r =>
      { r with status := .completed, completedAt := some now, currentStepIDs := ids }) rfl rfl
      (fun _ => ⟨rfl, rfl⟩) (.keep fun _ => rfl)
  | fail reason htype hfails hreason =>
    exact hentered.update (f := fun r =>
      { r with status := .failed, failureReason := some reason, completedAt := some now }) rfl rfl
      (fun _ => ⟨rfl, rfl⟩) (.keep fun _ => rfl)

/-- A dispatch that goes on to nothing leaves the lists equal. -/
theorem Dispatched.rowSteps (hdisp : Dispatched svc now d tx step tx' [])
    (hfork : step.type = .parallelGateway → step.parallelNextSteps ≠ []) :
    RowSteps tx' tx'.inst.currentStepIDs := by
  generalize hnext : ([] : List StepId) = next at hdisp
  cases hdisp with
  | service job rows htype hrows hids => exact rowSteps_of_keep (by simp) rfl
  | user rows htype hrows hids =>
    exact rowSteps_of_enter (g := fun r => { r with status := .waiting }) rfl rfl fun _ => rfl
  | wait rows htype hrows hids =>
    exact rowSteps_of_enter (g := fun r => { r with status := .waiting }) rfl rfl fun _ => rfl
  | route g vars next htype hpass hnext' hmerged => cases hnext
  | fork htype => exact absurd hnext.symm (hfork htype)
  | transform g vars htype hpass hmerged => cases hnext
  | hold gateway htype hgateway hcount => exact rowSteps_of_keep rfl rfl
  | join gateway htype hgateway hcount => cases hnext
  | finish chains htype ids hids hchains =>
    exact rowSteps_of_finish (g := fun r =>
      { r with status := .completed, completedAt := some now, currentStepIDs := ids }) rfl rfl
      fun _ => rfl
  | fail reason htype hfails hreason =>
    exact rowSteps_of_enter (g := fun r => { r with
      status := .failed, failureReason := some reason, completedAt := some now }) rfl rfl
      fun _ => rfl

theorem Dispatched.trails (hdisp : Dispatched svc now d tx step tx' next) :
    ∃ written, RowSteps tx' written ∧ Strikes tx'.inst.currentStepIDs written := by
  cases hdisp.list_view with
  | listed hmem hrows => exact ⟨_, hrows, .inl hmem⟩
  | passed hext hmem written hrows hwritten =>
    refine ⟨written, hrows, ?_⟩
    rcases hwritten with rfl | rfl
    · exact .inr ⟨step.id, hmem⟩
    · exact .inl hmem

theorem Dispatched.in_memory (h : InMemory tx (step.id :: pending))
    (hdisp : Dispatched svc now d tx step tx' next)
    (hfork : step.type = .parallelGateway → step.parallelNextSteps ≠ []) :
    InMemory tx' (next ++ pending) where
  vars := hdisp.vars_mirror h.vars
  trails := hdisp.trails
  steps := by
    intro hnil
    obtain ⟨rfl, -⟩ := List.append_eq_nil_iff.mp hnil
    exact hdisp.rowSteps hfork

/-- Rows are kept, and one row is inserted. -/
private theorem kept_or_new {α : Type} {R : Json → Prop} {vars : α → Json} {old rows : List α}
    {new : α} (hrows : rows = old ++ [new]) (hnew : R (vars new)) :
    ∀ r ∈ rows, r ∈ old ∨ R (vars r) := by
  intro r hr
  rw [hrows] at hr
  rcases List.mem_append.mp hr with hr | hr
  · exact .inl hr
  · obtain rfl := List.mem_singleton.mp hr
    exact .inr hnew

/-- Every snapshot a dispatch takes is of the variables in memory. -/
theorem Dispatched.snapshots (hdisp : Dispatched svc now d tx step tx' next) {R : Json → Prop}
    (hR : R tx.inst.vars) : Snapshots R tx.db tx'.db := by
  have hsteps : ∀ {p : StepExecution → Bool} {f : StepExecution → StepExecution},
      tx'.db.stepExecutions = Table.update p f (tx.db.stepExecutions ++ [entryRow tx step]) →
      (∀ r, (f r).id = r.id ∧ (f r).inputSnapshot = r.inputSnapshot) →
      ∀ r ∈ tx'.db.stepExecutions,
        (∃ old ∈ tx.db.stepExecutions, old.id = r.id ∧ old.inputSnapshot = r.inputSnapshot) ∨
          R r.inputSnapshot := by
    intro p f hrows hf r' hr'
    rw [hrows] at hr'
    obtain ⟨r, hr, rfl⟩ := Table.mem_update.mp hr'
    have hkept : (if p r then f r else r).id = r.id ∧
        (if p r then f r else r).inputSnapshot = r.inputSnapshot := by
      split
      · exact hf r
      · exact ⟨rfl, rfl⟩
    rw [hkept.1, hkept.2]
    rcases List.mem_append.mp hr with hr | hr
    · exact .inl ⟨r, hr, rfl, rfl⟩
    · obtain rfl := List.mem_singleton.mp hr
      exact .inr hR
  have hentered : tx'.db.stepExecutions = tx.db.stepExecutions ++ [entryRow tx step] →
      tx'.db.stepExecutions =
        Table.update (fun _ => false) id (tx.db.stepExecutions ++ [entryRow tx step]) := by
    intro hrows
    rw [hrows, Table.update_id]
  have hsame : ∀ {α : Type} {vars : α → Json} {old : List α}, ∀ r ∈ old, r ∈ old ∨ R (vars r) :=
    fun r hr => .inl hr
  cases hdisp with
  | service job rows htype hrows hids hjob =>
    refine ⟨hsteps (hentered (by simp [entryRow])) fun _ => ⟨rfl, rfl⟩, ?_, ?_, ?_, ?_⟩
    · exact kept_or_new (by simp; rfl) hR
    · cases hd : svc.dispatcher with
      | polling => exact hsame
      | kafkaOutbox =>
        refine kept_or_new rfl ?_
        show R job.payload
        rwa [hjob]
    · simpa using hsame
    · simpa using hsame
  | user rows htype hrows hids =>
    refine ⟨hsteps (hentered (by simp [entryRow])) fun _ => ⟨rfl, rfl⟩, hsame, hsame, ?_, hsame⟩
    exact kept_or_new (by simp; rfl) hR
  | wait rows htype hrows hids =>
    exact ⟨hsteps (hentered (by simp [entryRow])) fun _ => ⟨rfl, rfl⟩, hsame, hsame, hsame, hsame⟩
  | route g vars next htype hpass hnext hmerged =>
    exact ⟨hsteps rfl fun _ => ⟨rfl, rfl⟩, hsame, hsame, hsame, hsame⟩
  | fork htype => exact ⟨hsteps rfl fun _ => ⟨rfl, rfl⟩, hsame, hsame, hsame, hsame⟩
  | transform g vars htype hpass hmerged =>
    exact ⟨hsteps rfl fun _ => ⟨rfl, rfl⟩, hsame, hsame, hsame, hsame⟩
  | hold gateway htype hgateway hcount =>
    exact ⟨hsteps rfl fun _ => ⟨rfl, rfl⟩, hsame, hsame, hsame, hsame⟩
  | join gateway htype hgateway hcount =>
    exact ⟨hsteps rfl fun _ => ⟨rfl, rfl⟩, hsame, hsame, hsame, hsame⟩
  | finish chains htype ids hids hchains =>
    refine ⟨hsteps rfl fun _ => ⟨rfl, rfl⟩, hsame, hsame, hsame, ?_⟩
    show ∀ r ∈ chains, r ∈ tx.db.chains ∨ R r.vars
    rw [hchains]
    split
    · rw [Db.insertWorkflowChain_chains]
      split
      · exact hsame
      · exact kept_or_new rfl hR
    · exact hsame
  | fail reason htype hfails hreason =>
    exact ⟨hsteps rfl fun _ => ⟨rfl, rfl⟩, hsame, hsame, hsame, hsame⟩

end Dispatches

/-! ## Openings -/

section Openings

variable {svc : Service} {now : Time} {db : Db} {d : WorkflowDefinition} {op : Op} {tx : Tx}
  {steps : List StepId}

/-- The rows of the instance have objects for variables. -/
def ObjectVars (db : Db) (i : Nat) : Prop :=
  ∀ r ∈ db.instances, r.id = i → ∃ ms, r.vars = .obj ms

theorem ObjectVars.untouched {i : Nat} {db' : Db} (hu : Untouched i db db')
    (h : ObjectVars db i) : ObjectVars db' i :=
  fun r hr hid => h r ((hu.mem_instance hid).mp hr) hid

theorem SameObject.row_obj {a b : Json} (h : SameObject a b) : ∃ ms, b = .obj ms := by
  cases h with
  | intro ms ms' h => exact ⟨ms', rfl⟩

/-- An instance that has just been read. -/
theorem VarsMirror.read (hwf : db.WF svc) {inst : WorkflowInstance}
    (hinst : inst ∈ db.instances) (hobj : ObjectVars db inst.id) : VarsMirror ⟨db, inst⟩ := by
  intro r hr hid
  obtain rfl := hwf.instance_eq hr hinst hid
  obtain ⟨ms, hms⟩ := hobj r hr rfl
  rw [hms]
  exact .refl ms

/-- An instance that has just been inserted. -/
theorem VarsMirror.insert (hwf : db.WF svc) {json : Json} {key : Option String}
    {vars : GoMap Value} (hjson : (Value.obj vars).marshal = .ok json) :
    VarsMirror (startTx db d json key) := by
  intro r hr hid
  obtain ⟨p, -, rfl⟩ := marshal_obj_ok.mp hjson
  rcases List.mem_append.mp hr with hr | hr
  · have hlt := hwf.shape.instance_ids.lt r.id (by
      simp only [Db.shape, List.map_map]
      exact List.mem_map_of_mem hr)
    have hid' : r.id = db.nextId := hid
    have hn : db.shape.nextId = db.nextId := rfl
    omega
  · obtain rfl := List.mem_singleton.mp hr
    exact .refl _

theorem Advanced.vars_mirror {tx' : Tx} {step : WorkflowStep} {next : List StepId}
    (hadv : Advanced now d tx step tx' next) (h : VarsMirror tx) : VarsMirror tx' := by
  have hlisted : VarsMirror (advanced d tx step) :=
    h.update (f := fun r => { r with
        status := recomputeInstanceStatus d (withoutStep tx.inst.currentStepIDs step.id),
        currentStepIDs := withoutStep tx.inst.currentStepIDs step.id }) rfl rfl
      (fun _ => ⟨rfl, rfl⟩) (.keep fun _ => rfl)
  cases hadv with
  | on target htarget hnext => exact hlisted
  | stop hnext hlen => exact hlisted
  | fail reason =>
    exact hlisted.update (f := fun r =>
      { r with status := .failed, failureReason := some reason, completedAt := some now }) rfl rfl
      (fun _ => ⟨rfl, rfl⟩) (.keep fun _ => rfl)

theorem Opened.vars_mirror {p : Plan} (hop : Opened svc now db op p) (hwf : db.WF svc)
    (hobj : ∀ i, ObjectVars db i) (hp : p.agenda = some (d, tx, steps)) : VarsMirror tx := by
  cases hop with
  | started definitionID version vars businessKey d json key hd hsteps hkey hjson =>
    cases hp
    exact .insert hwf hjson
  | chainStarted source d json key hd hsteps hclaim request hrequest hjson hkey =>
    cases hp
    obtain ⟨m, -, hjson⟩ := hjson
    exact .insert hwf hjson
  | jobAdvanced jobID workerID vars job se inst d step g json tx next hcb hacc hd hstep hadv
      hleaves hjson hfails hvars =>
    cases hp
    exact hadv.vars_mirror ((VarsMirror.read hwf (getInstance_mem hcb.inst_eq) (hobj _)).update
      (f := fun r => { r with vars := g r.vars }) rfl rfl (fun _ => ⟨rfl, rfl⟩) hvars)
  | userTaskCompleted stepID vars inst d step result merged g tx next hinst hflight hd hstep htype
      hrows hadv hmerged hfails hvars =>
    cases hp
    exact hadv.vars_mirror ((VarsMirror.read hwf (getInstance_mem hinst) (hobj _)).update
      (f := fun r => { r with vars := g r.vars }) rfl rfl (fun _ => ⟨rfl, rfl⟩) hvars)
  | waitSignalled stepID vars inst d step merged g tx next hinst hflight hd hstep htype hrows hadv
      hmerged hfails hparked hvars =>
    cases hp
    exact hadv.vars_mirror ((VarsMirror.read hwf (getInstance_mem hinst) (hobj _)).update
      (f := fun r => { r with vars := g r.vars }) rfl rfl (fun _ => ⟨rfl, rfl⟩) hvars)
  | timerInterrupts eventID inst event se d hinst hevent hinterrupting hse halive hd =>
    cases hp
    exact (VarsMirror.read hwf (getInstance_mem hinst) (hobj _)).kept rfl rfl rfl
  | timerForks eventID inst event se d hinst hevent hinterrupting hse halive hd =>
    cases hp
    exact (VarsMirror.read hwf (getInstance_mem hinst) (hobj _)).kept rfl rfl rfl
  | stepRetried inst stepID patch d g json hinst hfailed hlatest hd step hstep hvars =>
    cases hp
    refine (VarsMirror.read hwf (getInstance_mem hinst) (hobj _)).update (f := fun r => { r with
      status := .active, failureReason := none, completedAt := none, vars := g r.vars }) ?_ rfl
      (fun _ => ⟨rfl, rfl⟩) hvars
    exact Table.update_update _ fun r hr => hr
  | _ => cases hp

theorem ListOpened.trails (h : ListOpened svc now db op d tx steps) :
    ∃ written, RowSteps tx written ∧ Strikes tx.inst.currentStepIDs written := by
  cases h with
  | fresh first hmem hrows => exact ⟨_, hrows, .inl hmem⟩
  | advanced steps row step hrow hid hmem hrows => exact ⟨_, hrows, .inl rfl⟩
  | interrupted target row se event eventID hop hevent hinterrupting hse htarget hrow hid hruns
      halive hmem hrows => exact ⟨_, hrows, .inr ⟨se.stepID, hmem⟩⟩
  | forked target row hrow hid hruns hmem hrows => exact ⟨_, hrows, .inl hmem⟩
  | retried stepID patch row step hop hrow hid hruns hstep hmem hrows =>
    exact ⟨_, hrows, .inl hmem⟩

/-- An operation with no dispatch to make has written the list. -/
theorem ListOpened.rowSteps (h : ListOpened svc now db op d tx []) :
    RowSteps tx tx.inst.currentStepIDs := by
  cases h with
  | advanced steps row step hrow hid hmem hrows => exact hrows

theorem Opened.in_memory {p : Plan} (hop : Opened svc now db op p) (hwf : db.WF svc)
    (hobj : ∀ i, ObjectVars db i) (hp : p.agenda = some (d, tx, steps)) : InMemory tx steps where
  vars := hop.vars_mirror hwf hobj hp
  trails := (hop.list_opened hwf hp).trails
  steps := by
    rintro rfl
    exact (hop.list_opened hwf hp).rowSteps

/-- A call that dispatches nothing leaves objects. -/
theorem Opened.commit_objects {db' : Db} {reply : Option EngineError}
    (hop : Opened svc now db op (.commit db' reply)) {i : Nat} (hobj : ObjectVars db i) :
    ObjectVars db' i := by
  have hupdate : ∀ {p : WorkflowInstance → Bool} {f : WorkflowInstance → WorkflowInstance},
      db'.instances = Table.update p f db.instances →
      (∀ r, (f r).id = r.id ∧ ∀ ms, r.vars = .obj ms → ∃ ms', (f r).vars = .obj ms') →
      ObjectVars db' i := by
    intro p f hrows hf r' hr' hid
    rw [hrows] at hr'
    obtain ⟨r, hr, rfl⟩ := Table.mem_update.mp hr'
    by_cases hp : p r = true
    · simp only [hp, if_true] at hid ⊢
      obtain ⟨ms, hms⟩ := hobj r hr ((hf r).1.symm.trans hid)
      exact (hf r).2 ms hms
    · simp only [hp, Bool.false_eq_true, if_false] at hid ⊢
      exact hobj r hr hid
  have hsame : db'.instances = db.instances → ObjectVars db' i := by
    intro hrows r hr hid
    rw [hrows] at hr
    exact hobj r hr hid
  cases hop with
  | outputsRejected jobID workerID vars job se inst violations hcb hacc =>
    exact hupdate (f := fun r => { r with
      status := .failed, failureReason := some _, completedAt := some now }) rfl
      fun r => ⟨rfl, fun ms hms => ⟨ms, hms⟩⟩
  | jobCompleted jobID workerID vars job se inst d step g hcb hacc hd hfind hnext json hvars =>
    refine hupdate (f := fun r => { r with vars := g r.vars }) rfl fun r => ⟨rfl, ?_⟩
    intro ms hms
    simpa only [hms] using hvars.obj ms
  | jobFailed jobID workerID errorMessage retryable job se inst hcb hacc =>
    exact hupdate (f := fun r => { r with
      status := .failed, failureReason := some _, completedAt := some now }) rfl
      fun r => ⟨rfl, fun ms hms => ⟨ms, hms⟩⟩
  | jobRetried jobID workerID errorMessage job se inst hcb hacc hretries => exact hsame (by simp)
  | jobReplaced op jobID job se inst hop hcb halive hlocked => exact hsame (by simp)
  | polled workerID jobTypes max seconds lease rowLocked =>
    obtain ⟨jobs, hpoll⟩ := db.pollJobs_tables now workerID jobTypes max lease rowLocked
    exact hsame (by rw [hpoll])
  | cancelled inst reason hinst hflight =>
    exact hupdate (f := fun r => { r with
      status := .cancelled, failureReason := some reason, completedAt := some now }) rfl
      fun r => ⟨rfl, fun ms hms => ⟨ms, hms⟩⟩
  | _ => exact hsame rfl

end Openings

/-! ## Runs -/

section Runs

variable {svc : Service}

theorem in_memory_invariant (hup : svc.Uploaded Accepted) :
    TxInvariant svc (fun db => db.WF svc) (fun d tx _ => TxWF svc d tx) (fun _ _ => True)
      (fun _ => True) (fun db => ∀ i, ObjectVars db i)
      (fun _ tx pending => (∀ i, i ≠ tx.inst.id → ObjectVars tx.db i) ∧ InMemory tx pending) := by
  refine TxInvariant.ofLocal (fun hu h => h.untouched hu) ?_ ?_ ?_
  · intro db op now p i fuel hwf hP hC hop hi
    cases p with
    | commit db' reply => exact hop.commit_objects (hP i)
    | dispatch d tx steps => exact hop.in_memory hwf hP rfl
    | chain d tx steps source => exact hop.in_memory hwf hP rfl
  · intro now d tx step pending tx' next hwf h _ hfind hdisp
    refine hdisp.in_memory h fun htype => ?_
    have hacc : Accepted d := hup _ _ _ hwf.mirror.runs
    exact hacc.branches (findStep_mem hfind) htype
  · intro d tx hwf h r hr hid
    exact (h.vars r hr hid).row_obj

/-- The row of the transaction's instance. -/
theorem TxWF.row {d : WorkflowDefinition} {tx : Tx} (h : TxWF svc d tx) :
    ∃ row ∈ tx.db.instances, row.id = tx.inst.id ∧
      tx.db.getInstance tx.inst.id = some row ∧ row.status = tx.inst.status := by
  obtain ⟨row, hrow, hkey, hstatus⟩ := h.mirror.row
  have hid : row.id = tx.inst.id := congrArg InstanceKey.id hkey
  have hnd := h.wf.shape.instance_ids.nodup
  simp only [Db.shape, List.map_map] at hnd
  exact ⟨row, hrow, hid, Table.find_eq_some hnd hrow hid, hstatus⟩

/-- With nothing pending the row agrees with the copy. -/
theorem InMemory.agrees {d : WorkflowDefinition} {tx : Tx} (h : InMemory tx [])
    (hwf : TxWF svc d tx) :
    ∃ row, tx.db.getInstance tx.inst.id = some row ∧ Agrees tx.inst row := by
  obtain ⟨row, hrow, hid, hget, hstatus⟩ := hwf.row
  exact ⟨row, hget, ⟨hstatus, (h.vars row hrow hid).sameValue⟩, h.steps rfl row hrow hid⟩

/-- At any time it trails by one step at most. -/
theorem InMemory.trails_row {d : WorkflowDefinition} {tx : Tx} {pending : List StepId}
    (h : InMemory tx pending) (hwf : TxWF svc d tx) :
    ∃ row, tx.db.getInstance tx.inst.id = some row ∧ Trails tx.inst row := by
  obtain ⟨row, hrow, hid, hget, hstatus⟩ := hwf.row
  obtain ⟨written, hwritten, hstrikes⟩ := h.trails
  rw [← hwritten row hrow hid] at hstrikes
  exact ⟨row, hget, ⟨hstatus, (h.vars row hrow hid).sameValue⟩, hstrikes⟩

/-- Entering a step writes the whole list. -/
theorem Trails.enter {tx : Tx} {row : WorkflowInstance} (h : Trails tx.inst row)
    (hget : tx.db.getInstance tx.inst.id = some row) (step : WorkflowStep) (stepID : StepId) :
    ∃ row', (enterStep tx step stepID).db.getInstance tx.inst.id = some row' ∧
      Agrees (enterStep tx step stepID).inst row' := by
  refine ⟨{ row with currentStepIDs := withStep tx.inst.currentStepIDs stepID }, ?_,
    ⟨h.status, h.vars⟩, rfl⟩
  have hid := getInstance_id hget
  unfold Db.getInstance at hget ⊢
  rw [enterStep_db_instances, Table.find_update, hget]
  · simp [hid]
  · exact fun _ => rfl

end Runs

/-- In every call of every run, the row of the transaction's instance and the
    copy in memory have the same status, the same variables and the same
    current steps when the last dispatch has returned, and again as soon as a
    dispatch has entered its step.  Between a step and the dispatch that
    follows it, the row may still list that step.  Every snapshot taken by a
    dispatch is of the variables the row has. -/
theorem memory_mirrors_tables (svc : Service) (hup : svc.Uploaded Accepted) (calls : List Call)
    (call : Call) :
    (∀ tx, finalTx svc (run svc calls) call = some tx →
      ∃ row, tx.db.getInstance tx.inst.id = some row ∧ Agrees tx.inst row) ∧
    ∀ x ∈ attempts svc (run svc calls) call,
      ∃ row, x.tx.db.getInstance x.tx.inst.id = some row ∧ Trails x.tx.inst row ∧
        (∀ step, findStep x.definition x.stepID = some step →
          ∃ row', (enterStep x.tx step x.stepID).db.getInstance x.tx.inst.id = some row' ∧
            Agrees (enterStep x.tx step x.stepID).inst row') ∧
        ∀ tx' next, dispatchStep svc x.now x.definition x.tx x.stepID = .ok (tx', next) →
          Snapshots (fun vars => SameValue vars row.vars) x.tx.db tx'.db := by
  have hinv := (wf_invariant svc).and (in_memory_invariant hup)
  have hempty : ∀ i, ObjectVars {} i := fun i r hr => by simp at hr
  have hdb := hinv.run ⟨wf_empty svc, hempty⟩
    ((Run.guarded_true _ calls).mono fun _ _ _ => ⟨trivial, fun _ _ => trivial⟩)
  refine ⟨?_, ?_⟩
  · intro tx htx
    obtain ⟨d, hwf, -, hmem⟩ := hinv.at_end hdb trivial (fun _ _ => trivial) htx
    exact hmem.agrees hwf
  · intro x hx
    obtain ⟨hwf, -, hmem⟩ := hinv.at_attempt hdb trivial (fun _ _ => trivial) x hx
    obtain ⟨row, hget, htrails⟩ := hmem.trails_row hwf
    refine ⟨row, hget, htrails, fun step _ => htrails.enter hget step x.stepID, ?_⟩
    intro tx' next hs
    obtain ⟨step, hfind, hdisp⟩ := dispatchStep_dispatched hs
    exact hdisp.snapshots htrails.vars

/-- A decision that ends the workflow. -/
def checkOnly : WorkflowDefinition where
  id := "check-only"
  version := 1
  name := "check only"
  steps := [
    { id := "check", name := "check", type := .decision,
      conditionalNextSteps := some ⟨["true"], [("true", "end")]⟩ },
    { id := "end", name := "end", type := .endStep }]

theorem checkOnly_uploaded : (Service.ofList [checkOnly]).Uploaded Accepted :=
  Service.uploaded_ofList (by decide +kernel)

theorem memory_mirrors_tables_checkOnly :
    ∃ tx, finalTx (.ofList [checkOnly]) {} checkOnly.start = some tx ∧
      ∃ row, tx.db.getInstance tx.inst.id = some row ∧ Agrees tx.inst row := by
  have hsome : (finalTx (.ofList [checkOnly]) {} checkOnly.start).isSome := by
    decide +kernel
  obtain ⟨tx, htx⟩ := Option.isSome_iff_exists.mp hsome
  exact ⟨tx, htx, (memory_mirrors_tables _ checkOnly_uploaded [] checkOnly.start).1 tx htx⟩

/-- When `END` is dispatched, the row still lists the decision. -/
theorem decision_listed_when_left :
    ¬ ∀ svc : Service, svc.Uploaded Accepted → ∀ calls call,
      ∀ x ∈ attempts svc (run svc calls) call,
        ∃ row, x.tx.db.getInstance x.tx.inst.id = some row ∧ Agrees x.tx.inst row := by
  intro h
  have hleft : (attempts (.ofList [checkOnly]) (run (.ofList [checkOnly]) []) checkOnly.start).any
      fun x => (x.tx.db.getInstance x.tx.inst.id).all
        fun row => decide (row.currentStepIDs ≠ x.tx.inst.currentStepIDs) := by
    decide +kernel
  obtain ⟨x, hx, hne⟩ := List.any_eq_true.mp hleft
  obtain ⟨row, hget, hagrees⟩ := h _ checkOnly_uploaded [] checkOnly.start x hx
  rw [hget] at hne
  exact of_decide_eq_true hne hagrees.currentStepIDs

end Rochallor
