import Rochallor.Data.Carried
import Rochallor.Rest.Instances
import Rochallor.Safety.Isolation

/-! # Variables carried through an instance

    The variables of a start request are decoded when it is read.  What is
    written for them goes into the instance row, and is copied from there into
    the input snapshot of every step and the payload of every job.  Each merge
    decodes and writes back the whole copy in memory, and so does each
    transformation.

    A value that nothing writes is rounded by the first decoding and stays as
    it is from then on.  So its copies are the submitted value exactly when
    that decoding has changed no number in it.
-/

namespace Rochallor

/-! ## Copies -/

/-- Every copy of the instance's variables satisfies `Q`: its row, the input
    snapshots of its step executions, and the payloads of its jobs. -/
structure EveryCopy (i : Nat) (Q : Json → Prop) (db : Db) : Prop where
  present : ∃ r ∈ db.instances, r.id = i
  row : ∀ r ∈ db.instances, r.id = i → Q r.vars
  snapshot : ∀ r ∈ db.stepExecutions, r.instanceID = i → Q r.inputSnapshot
  payload : ∀ r ∈ db.jobs, r.instanceID = i → Q r.payload

/-- And so does the copy in memory, where the transaction is the instance's. -/
structure TxCopies (i : Nat) (Q : Json → Prop) (tx : Tx) : Prop where
  tables : EveryCopy i Q tx.db
  memory : tx.inst.id = i → Q tx.inst.vars

/-- The document has the member. -/
def HasMember (k : String) (w raw : Json) : Prop :=
  memberOf raw k = some w

namespace EveryCopy

variable {i : Nat} {Q : Json → Prop} {db db' : Db}

/-- The three tables are as they were. -/
theorem frame (h : EveryCopy i Q db) (hi : db'.instances = db.instances)
    (hs : db'.stepExecutions = db.stepExecutions) (hj : db'.jobs = db.jobs) :
    EveryCopy i Q db' where
  present := by
    rw [hi]
    exact h.present
  row := by
    rw [hi]
    exact h.row
  snapshot := by
    rw [hs]
    exact h.snapshot
  payload := by
    rw [hj]
    exact h.payload

theorem mono (h : EveryCopy i Q db) {Q' : Json → Prop} (hQ : ∀ raw, Q raw → Q' raw) :
    EveryCopy i Q' db where
  present := h.present
  row := fun r hr hi => hQ _ (h.row r hr hi)
  snapshot := fun r hr hi => hQ _ (h.snapshot r hr hi)
  payload := fun r hr hi => hQ _ (h.payload r hr hi)

/-- Rewriting instance rows. -/
theorem updateInstance (h : EveryCopy i Q db) {p : WorkflowInstance → Bool}
    {f : WorkflowInstance → WorkflowInstance}
    (hi : db'.instances = Table.update p f db.instances)
    (hs : db'.stepExecutions = db.stepExecutions) (hj : db'.jobs = db.jobs)
    (hid : ∀ r, (f r).id = r.id) (hQ : ∀ r, p r = true → r.id = i → Q r.vars → Q (f r).vars) :
    EveryCopy i Q db' := by
  have hids : ∀ r : WorkflowInstance, (if p r = true then f r else r).id = r.id := by
    intro r
    split
    · exact hid r
    · rfl
  refine ⟨?_, ?_, by rw [hs]; exact h.snapshot, by rw [hj]; exact h.payload⟩
  · obtain ⟨r, hr, hri⟩ := h.present
    refine ⟨_, hi ▸ Table.mem_update.mpr ⟨r, hr, rfl⟩, ?_⟩
    rw [hids, hri]
  · intro r' hr' hri
    rw [hi] at hr'
    obtain ⟨r, hr, rfl⟩ := Table.mem_update.mp hr'
    rw [hids] at hri
    have hold := h.row r hr hri
    by_cases hp : p r = true
    · rw [if_pos hp]
      exact hQ r hp hri hold
    · rw [if_neg hp]
      exact hold

/-- Rewriting step executions, but not their snapshots. -/
theorem updateSteps (h : EveryCopy i Q db) {p : StepExecution → Bool}
    {f : StepExecution → StepExecution} (hi : db'.instances = db.instances)
    (hs : db'.stepExecutions = Table.update p f db.stepExecutions) (hj : db'.jobs = db.jobs)
    (hf : ∀ r, (f r).instanceID = r.instanceID ∧ (f r).inputSnapshot = r.inputSnapshot) :
    EveryCopy i Q db' := by
  refine ⟨by rw [hi]; exact h.present, by rw [hi]; exact h.row, ?_, by rw [hj]; exact h.payload⟩
  intro r' hr' hri
  rw [hs] at hr'
  obtain ⟨r, hr, rfl⟩ := Table.mem_update.mp hr'
  by_cases hp : p r = true
  · rw [if_pos hp, (hf r).1] at hri
    rw [if_pos hp, (hf r).2]
    exact h.snapshot r hr hri
  · rw [if_neg hp] at hri ⊢
    exact h.snapshot r hr hri

/-- Rewriting jobs, but not their payloads. -/
theorem updateJobs (h : EveryCopy i Q db) {p : Job → Bool} {f : Job → Job}
    (hi : db'.instances = db.instances) (hs : db'.stepExecutions = db.stepExecutions)
    (hj : db'.jobs = Table.update p f db.jobs)
    (hf : ∀ r, (f r).instanceID = r.instanceID ∧ (f r).payload = r.payload) :
    EveryCopy i Q db' := by
  refine ⟨by rw [hi]; exact h.present, by rw [hi]; exact h.row, by rw [hs]; exact h.snapshot, ?_⟩
  intro r' hr' hri
  rw [hj] at hr'
  obtain ⟨r, hr, rfl⟩ := Table.mem_update.mp hr'
  by_cases hp : p r = true
  · rw [if_pos hp, (hf r).1] at hri
    rw [if_pos hp, (hf r).2]
    exact h.payload r hr hri
  · rw [if_neg hp] at hri ⊢
    exact h.payload r hr hri

/-- Inserting another instance. -/
theorem insertInstance (h : EveryCopy i Q db) {r : WorkflowInstance}
    (hi : db'.instances = db.instances ++ [r]) (hs : db'.stepExecutions = db.stepExecutions)
    (hj : db'.jobs = db.jobs) (hne : r.id ≠ i) : EveryCopy i Q db' := by
  refine ⟨?_, ?_, by rw [hs]; exact h.snapshot, by rw [hj]; exact h.payload⟩
  · obtain ⟨r', hr', hri⟩ := h.present
    exact ⟨r', hi ▸ List.mem_append_left _ hr', hri⟩
  · intro r' hr' hri
    rw [hi] at hr'
    rcases List.mem_append.mp hr' with hr' | hr'
    · exact h.row r' hr' hri
    · obtain rfl := List.mem_singleton.mp hr'
      exact absurd hri hne

/-- Inserting a step execution with a snapshot of the variables. -/
theorem insertStep (h : EveryCopy i Q db) {r : StepExecution} (hi : db'.instances = db.instances)
    (hs : db'.stepExecutions = db.stepExecutions ++ [r]) (hj : db'.jobs = db.jobs)
    (hr : r.instanceID = i → Q r.inputSnapshot) : EveryCopy i Q db' := by
  refine ⟨by rw [hi]; exact h.present, by rw [hi]; exact h.row, ?_, by rw [hj]; exact h.payload⟩
  intro r' hr' hri
  rw [hs] at hr'
  rcases List.mem_append.mp hr' with hr' | hr'
  · exact h.snapshot r' hr' hri
  · obtain rfl := List.mem_singleton.mp hr'
    exact hr hri

/-- Inserting a job with the variables for its payload. -/
theorem insertJob (h : EveryCopy i Q db) {r : Job} (hi : db'.instances = db.instances)
    (hs : db'.stepExecutions = db.stepExecutions) (hj : db'.jobs = db.jobs ++ [r])
    (hr : r.instanceID = i → Q r.payload) : EveryCopy i Q db' := by
  refine ⟨by rw [hi]; exact h.present, by rw [hi]; exact h.row, by rw [hs]; exact h.snapshot, ?_⟩
  intro r' hr' hri
  rw [hj] at hr'
  rcases List.mem_append.mp hr' with hr' | hr'
  · exact h.payload r' hr' hri
  · obtain rfl := List.mem_singleton.mp hr'
    exact hr hri

/-- An instance with copies is no new one. -/
theorem lt_nextId {svc : Service} (h : EveryCopy i Q db) (hwf : db.WF svc) : i < db.nextId := by
  obtain ⟨r, hr, rfl⟩ := h.present
  refine hwf.shape.instance_ids.lt r.id ?_
  simp only [Db.shape, List.map_map]
  exact List.mem_map_of_mem hr

/-- A merge that does not write the key. -/
theorem patchVars {k : String} {w : Json} (h : EveryCopy i (HasMember k w) db) {instanceID : Nat}
    {keys : List String} {old new : Json} {g : Json → Json} (hwrites : WritesOnly keys old new g)
    (hk : instanceID = i → k ∉ keys) : EveryCopy i (HasMember k w) (db.patchVars instanceID g) := by
  refine h.updateInstance rfl rfl rfl (fun _ => rfl) ?_
  intro r hp hri hold
  exact hwrites.row k (hk ((of_decide_eq_true hp).symm.trans hri)) r.vars w hold

end EveryCopy

/-! ## Dispatches -/

section Dispatches

variable {svc : Service} {now : Time} {d : WorkflowDefinition} {tx tx' : Tx} {step : WorkflowStep}
  {next : List StepId} {i : Nat} {k : String} {w : Json}

/-- Entering a step takes a snapshot of the variables. -/
theorem TxCopies.enter {Q : Json → Prop} (h : TxCopies i Q tx) (step : WorkflowStep) :
    TxCopies i Q (enterStep tx step step.id) where
  tables := by
    have hinserted : EveryCopy i Q (tx.db.insertStepExecution tx.inst.id step.id step.type
        (tx.db.countStepAttempts tx.inst.id step.id + 1) tx.inst.vars) :=
      h.tables.insertStep rfl rfl rfl h.memory
    exact hinserted.updateInstance rfl rfl rfl (fun _ => rfl) fun _ _ _ hold => hold
  memory := h.memory

/-- A merge of the dispatched step. -/
theorem TxCopies.merge (h : TxCopies i (HasMember k w) tx) (hw : w.decoded = some w)
    {keys : List String} {new : Json} {g : Json → Json}
    (hwrites : WritesOnly keys tx.inst.vars new g) (hk : tx.inst.id = i → k ∉ keys) :
    TxCopies i (HasMember k w) ⟨tx.db.patchVars tx.inst.id g, { tx.inst with vars := new }⟩ where
  tables := h.tables.patchVars hwrites hk
  memory := fun hi => hwrites.memory k (hk hi) w (h.memory hi) hw

theorem Dispatched.copies (hdisp : Dispatched svc now d tx step tx' next)
    (h : TxCopies i (HasMember k w) tx) (hw : w.decoded = some w)
    (hk : tx.inst.id = i → k ∉ step.writtenKeys) : TxCopies i (HasMember k w) tx' := by
  have hentered := h.enter step
  cases hdisp with
  | service job rows htype hrows hids hjob =>
    exact ⟨hentered.tables.insertJob (by simp) (by simp) (by simp; rfl) h.memory, h.memory⟩
  | user rows htype hrows hids =>
    exact ⟨hentered.tables.updateInstance rfl rfl rfl (fun _ => rfl) fun _ _ _ hold => hold,
      h.memory⟩
  | wait rows htype hrows hids =>
    exact ⟨hentered.tables.updateInstance rfl rfl rfl (fun _ => rfl) fun _ _ _ hold => hold,
      h.memory⟩
  | route g vars next htype hpass hnext hmerged hwrites =>
    have hmerge := hentered.merge hw hwrites hk
    exact ⟨hmerge.tables.updateSteps rfl rfl rfl fun _ => ⟨rfl, rfl⟩, hmerge.memory⟩
  | fork htype =>
    exact ⟨hentered.tables.updateSteps rfl rfl rfl fun _ => ⟨rfl, rfl⟩, h.memory⟩
  | transform g vars htype hpass hmerged hwrites =>
    have hmerge := hentered.merge hw hwrites hk
    exact ⟨hmerge.tables.updateSteps rfl rfl rfl fun _ => ⟨rfl, rfl⟩, hmerge.memory⟩
  | hold gateway htype hgateway hcount =>
    exact ⟨hentered.tables.updateSteps rfl rfl rfl fun _ => ⟨rfl, rfl⟩, h.memory⟩
  | join gateway htype hgateway hcount =>
    exact ⟨hentered.tables.updateSteps rfl rfl rfl fun _ => ⟨rfl, rfl⟩, h.memory⟩
  | finish chains htype ids hids hchains =>
    have hclosed : EveryCopy i (HasMember k w)
        ((enterStep tx step step.id).db.completeStepExecutionByID now tx.db.nextId none) :=
      hentered.tables.updateSteps rfl rfl rfl fun _ => ⟨rfl, rfl⟩
    exact ⟨hclosed.updateInstance rfl rfl rfl (fun _ => rfl) fun _ _ _ hold => hold, h.memory⟩
  | fail reason htype hfails hreason =>
    have hclosed : EveryCopy i (HasMember k w)
        ((enterStep tx step step.id).db.failStepExecutionByStep now tx.inst.id step.id reason) :=
      hentered.tables.updateSteps rfl rfl rfl fun _ => ⟨rfl, rfl⟩
    exact ⟨hclosed.updateInstance rfl rfl rfl (fun _ => rfl) fun _ _ _ hold => hold, h.memory⟩

end Dispatches

/-! ## Openings -/

/-- The variables a call writes for the instance it acts on. -/
def Op.writtenKeys : Op → List String
  | .completeJob _ _ vars | .completeUserTask _ _ vars | .signalWait _ _ vars
  | .retryFailedStep _ _ vars => vars.map (·.1)
  | _ => []

section Openings

variable {svc : Service} {now : Time} {db : Db} {op : Op} {p : Plan} {i : Nat} {k : String}
  {w : Json} {Q : Json → Prop}

/-- An instance that has just been read. -/
theorem EveryCopy.read (h : EveryCopy i Q db) {inst : WorkflowInstance}
    (hinst : inst ∈ db.instances) : TxCopies i Q ⟨db, inst⟩ :=
  ⟨h, h.row inst hinst⟩

/-- A replacement takes the payload over. -/
theorem EveryCopy.replace (h : EveryCopy i Q db) {j : DispatchJob}
    (hj : j.instanceID = i → Q j.payload) : EveryCopy i Q (enqueueReplacement svc now db j) :=
  h.insertJob (by simp) (by simp) (by simp; rfl) hj

theorem EveryCopy.closeJob (h : EveryCopy i Q db) (jobID seID : Nat) (workerID : String)
    (vars : GoMap Value) : EveryCopy i Q (closeJob now db jobID seID workerID vars) := by
  have hjob : EveryCopy i Q (db.markJobCompleted jobID workerID) :=
    h.updateJobs rfl rfl rfl fun _ => ⟨rfl, rfl⟩
  exact hjob.updateSteps rfl rfl rfl fun _ => ⟨rfl, rfl⟩

/-- Polling leases jobs. -/
theorem EveryCopy.poll (h : EveryCopy i Q db) (workerID : String) (jobTypes : List String)
    (max : Nat) (lease : Int) (rowLocked : List Nat) :
    EveryCopy i Q (db.pollJobs now workerID jobTypes max lease rowLocked).2 := by
  unfold Db.pollJobs
  split
  · exact h
  · exact h.updateJobs rfl rfl rfl fun _ => ⟨rfl, rfl⟩

theorem Advanced.copies {d : WorkflowDefinition} {tx tx' : Tx} {step : WorkflowStep}
    {next : List StepId} (hadv : Advanced now d tx step tx' next) (h : TxCopies i Q tx) :
    TxCopies i Q tx' := by
  have hlisted : TxCopies i Q (advanced d tx step) :=
    ⟨h.tables.updateInstance rfl rfl rfl (fun _ => rfl) fun _ _ _ hold => hold, h.memory⟩
  cases hadv with
  | on target htarget hnext => exact hlisted
  | stop hnext hlen => exact hlisted
  | fail reason =>
    have hclosed : EveryCopy i Q ((advanced d tx step).db.failStepExecutionByStep now
        (advanced d tx step).inst.id step.id reason) :=
      hlisted.tables.updateSteps rfl rfl rfl fun _ => ⟨rfl, rfl⟩
    exact ⟨hclosed.updateInstance rfl rfl rfl (fun _ => rfl) fun _ _ _ hold => hold, h.memory⟩

/-- A call keeps the copies of a key it does not write. -/
theorem Opened.copies (hop : Opened svc now db op p) (hwf : db.WF svc)
    (h : EveryCopy i (HasMember k w) db) (hw : w.decoded = some w)
    (hspares : op.subject db = some i → k ∉ op.writtenKeys) :
    p.Establishes (EveryCopy i (HasMember k w)) fun _ tx _ => TxCopies i (HasMember k w) tx := by
  have hnew : ∀ d json key, TxCopies i (HasMember k w) (startTx db d json key) := by
    intro d json key
    have hne : db.nextId ≠ i := Nat.ne_of_gt (h.lt_nextId hwf)
    exact ⟨h.insertInstance rfl rfl rfl hne, fun hid => absurd hid hne⟩
  -- the subject of a job callback is its instance
  have hsubject : ∀ {jobID job se inst}, Callback db jobID job se inst →
      (db.getJob jobID).map (·.instanceID) = some inst.id := by
    intro jobID job se inst hcb
    rw [hcb.job_eq, Option.map_some, getInstance_id hcb.inst_eq]
  have hpayload : ∀ {jobID job se inst}, Callback db jobID job se inst →
      job.instanceID = i → HasMember k w job.payload :=
    fun hcb => h.payload _ (getJob_mem hcb.job_eq).1
  cases hop with
  | ignored op hrefused => exact h
  | started definitionID version vars businessKey d json key hd hsteps hkey hjson =>
    exact hnew d json key
  | chainStarted source d json key hd hsteps hclaim request hrequest hjson hkey =>
    exact hnew d json key
  | outputsRejected jobID workerID vars job se inst violations hcb hacc d hd step hstep hviolations =>
    have hjobs : EveryCopy i (HasMember k w) (db.cancelJobByStepExecution se.id) :=
      h.updateJobs rfl rfl rfl fun _ => ⟨rfl, rfl⟩
    have hsteps : EveryCopy i (HasMember k w) ((db.cancelJobByStepExecution
        se.id).failStepExecutionByID now se.id (schemaViolationError violations)) :=
      hjobs.updateSteps rfl rfl rfl fun _ => ⟨rfl, rfl⟩
    exact hsteps.updateInstance rfl rfl rfl (fun _ => rfl) fun _ _ _ hold => hold
  | jobCompleted jobID workerID vars job se inst d step g hcb hacc hd hstep hnext json hvars
      hwrites =>
    refine (h.closeJob jobID se.id workerID vars).patchVars hwrites fun hi => hspares ?_
    rw [← hi]
    exact hsubject hcb
  | jobAdvanced jobID workerID vars job se inst d step g json tx next hcb hacc hd hstep hadv
      hleaves hjson hfails hvars hwrites =>
    have hread : TxCopies i (HasMember k w) ⟨closeJob now db jobID se.id workerID vars, inst⟩ :=
      (h.closeJob jobID se.id workerID vars).read (getInstance_mem hcb.inst_eq)
    refine hadv.copies (hread.merge hw hwrites fun hi => hspares ?_)
    rw [← hi]
    exact hsubject hcb
  | jobRetried jobID workerID errorMessage job se inst hcb hacc hretries =>
    have hfailed : EveryCopy i (HasMember k w) (db.markJobFailed jobID workerID) :=
      h.updateJobs rfl rfl rfl fun _ => ⟨rfl, rfl⟩
    exact hfailed.replace (hpayload hcb)
  | jobFailed jobID workerID errorMessage retryable job se inst hcb hacc hfinal =>
    have hjobs : EveryCopy i (HasMember k w) (db.markJobFailed jobID workerID) :=
      h.updateJobs rfl rfl rfl fun _ => ⟨rfl, rfl⟩
    have hsteps : EveryCopy i (HasMember k w)
        ((db.markJobFailed jobID workerID).failStepExecutionByID now se.id errorMessage) :=
      hjobs.updateSteps rfl rfl rfl fun _ => ⟨rfl, rfl⟩
    exact hsteps.updateInstance rfl rfl rfl (fun _ => rfl) fun _ _ _ hold => hold
  | jobReplaced op jobID job se inst hop hcb halive hlocked =>
    have hcancelled : EveryCopy i (HasMember k w) (db.cancelLockedJob jobID) :=
      h.updateJobs rfl rfl rfl fun _ => ⟨rfl, rfl⟩
    exact hcancelled.replace (hpayload hcb)
  | leaseExtended later jobID workerID seconds lease job se inst hcb halive hlocked howner hvalid =>
    exact h.updateJobs rfl rfl rfl fun _ => ⟨rfl, rfl⟩
  | polled workerID jobTypes max seconds lease rowLocked => exact h.poll ..
  | userTaskCompleted stepID vars inst d step result merged g tx next hinst hflight hd hstep htype
      hrows hadv hmerged hfails hvars hwrites =>
    have hsteps : EveryCopy i (HasMember k w) ((db.completeUserTask now inst.id stepID
        result).1.completeStepExecutionByStep now inst.id stepID merged).1 :=
      h.updateSteps rfl rfl rfl fun _ => ⟨rfl, rfl⟩
    have hread : TxCopies i (HasMember k w) ⟨_, inst⟩ := hsteps.read (getInstance_mem hinst)
    exact hadv.copies (hread.merge hw hwrites fun hi => hspares (congrArg some hi))
  | waitSignalled stepID vars inst d step merged g tx next hinst hflight hd hstep htype hrows hadv
      hmerged hfails hparked hvars hwrites =>
    have hsteps : EveryCopy i (HasMember k w)
        (db.completeStepExecutionByStep now inst.id stepID merged).1 :=
      h.updateSteps rfl rfl rfl fun _ => ⟨rfl, rfl⟩
    have hread : TxCopies i (HasMember k w) ⟨_, inst⟩ := hsteps.read (getInstance_mem hinst)
    exact hadv.copies (hread.merge hw hwrites fun hi => hspares (congrArg some hi))
  | timerConsumed eventID inst event hinst hevent hdead => exact h.frame rfl rfl rfl
  | timerInterrupts eventID inst event se d hinst hevent hinterrupting hse halive hd =>
    have hfired : EveryCopy i (HasMember k w) (db.markFired now eventID inst.id) :=
      h.frame rfl rfl rfl
    have hsteps : EveryCopy i (HasMember k w) ((db.markFired now eventID
        inst.id).failStepExecutionByID now se.id "interrupted by boundary timer") :=
      hfired.updateSteps rfl rfl rfl fun _ => ⟨rfl, rfl⟩
    exact ⟨hsteps.updateJobs rfl rfl rfl fun _ => ⟨rfl, rfl⟩,
      h.row inst (getInstance_mem hinst)⟩
  | timerForks eventID inst event se d hinst hevent hinterrupting hse halive hd =>
    exact ⟨h.frame rfl rfl rfl, h.row inst (getInstance_mem hinst)⟩
  | housekept retention => exact h.frame rfl rfl rfl
  | cancelled inst reason hinst hflight =>
    exact h.updateInstance rfl rfl rfl (fun _ => rfl) fun _ _ _ hold => hold
  | stepRetried inst stepID patch d g json hinst hfailed hlatest hd step hstep hvars hwrites =>
    have hactive : EveryCopy i (HasMember k w) (db.reactivated inst.id) :=
      h.updateInstance rfl rfl rfl (fun _ => rfl) fun _ _ _ hold => hold
    have hk : inst.id = i → k ∉ patch.map (·.1) := fun hi => hspares (congrArg some hi)
    exact ⟨hactive.patchVars hwrites hk,
      fun hi => hwrites.memory k (hk hi) w (h.row inst (getInstance_mem hinst) hi) hw⟩

end Openings

/-! ## Runs -/

/-- The call does not write the variable of the instance, and neither do the
    steps it dispatches. -/
def Spares (svc : Service) (i : Nat) (k : String) (db : Db) (call : Call) : Prop :=
  (call.op.subject db = some i → k ∉ call.op.writtenKeys) ∧
    ∀ x ∈ dispatches svc db call, x.tx.inst.id = i →
      ∀ step ∈ findStep x.definition x.stepID, k ∉ step.writtenKeys

instance (svc : Service) (i : Nat) (k : String) (db : Db) (call : Call) :
    Decidable (Spares svc i k db call) :=
  inferInstanceAs (Decidable (_ ∧ _))

section Runs

variable {svc : Service} {k : String} {w : Json}

theorem copies_invariant (svc : Service) (i : Nat) (k : String) (hw : w.decoded = some w) :
    TxInvariant svc (fun db => db.WF svc) (fun d tx _ => TxWF svc d tx)
      (fun db call => call.op.subject db = some i → k ∉ call.op.writtenKeys)
      (fun x => x.tx.inst.id = i → ∀ step ∈ findStep x.definition x.stepID, k ∉ step.writtenKeys)
      (EveryCopy i (HasMember k w)) (fun _ tx _ => TxCopies i (HasMember k w) tx) where
  opening := fun _ hwf h hC hop => hop.copies hwf h hw hC
  step := fun _ h hG hfind hdisp => hdisp.copies h hw fun hi => hG hi _ hfind
  closing := fun _ h => h.tables
  acknowledge := fun h => h.frame rfl rfl rfl

/-- The copies of a new instance before its first dispatch. -/
theorem startTx_copies {db : Db} (hwf : db.WF svc) {Q : Json → Prop} {json : Json} (hQ : Q json)
    (d : WorkflowDefinition) (key : Option String) :
    TxCopies db.nextId Q (startTx db d json key) := by
  have hid : ∀ e ∈ db.shape.instances, e.id < db.nextId :=
    fun e he => hwf.shape.instance_ids.lt e.id (List.mem_map_of_mem he)
  have hstep := hwf.instance_lt
  refine ⟨⟨?_, ?_, ?_, ?_⟩, fun _ => hQ⟩
  · exact ⟨_, List.mem_append_right _ (List.mem_singleton.mpr rfl), rfl⟩
  · intro r hr hri
    rcases List.mem_append.mp hr with hr | hr
    · have hlt : r.id < db.nextId := hid r.key (List.mem_map_of_mem hr)
      omega
    · obtain rfl := List.mem_singleton.mp hr
      exact hQ
  · intro r hr hri
    have hlt := hstep r hr
    omega
  · intro r hr hri
    obtain ⟨se, hse, -, hinst, -⟩ := hwf.job_step hr
    have hlt := hstep se hse
    omega

/-- The call of a request leaves the decoded value in every copy. -/
theorem start_copies {db : Db} (hwf : db.WF svc) {body s : Json} {ms : GoMap Json} {op : Op}
    (hms : Submits body ms) (hop : startInstance body = .ok op) {now : Time} {fuel : Nat}
    (hs : GoMap.last ms k = some s) (hw : s.decoded = some w)
    (hstarted : ∃ r ∈ (apply svc db ⟨op, now, fuel⟩).instances, r.id = db.nextId)
    (hspares : Spares svc db.nextId k db ⟨op, now, fuel⟩) :
    EveryCopy db.nextId (HasMember k w) (apply svc db ⟨op, now, fuel⟩) := by
  obtain ⟨id, version, vs, key, rfl, hvs⟩ := startInstance_variables hop hms
  have hinv := (wf_invariant svc).and (copies_invariant svc db.nextId k (decoded_stable hw))
  have hsteps := hspares.2
  unfold apply perform at hstarted ⊢
  cases ht : transact svc db ⟨.start id version (GoMap.overlay [] vs) key, now, fuel⟩ with
  | error e =>
    -- a call that is rolled back has started nothing
    rw [ht] at hstarted
    obtain ⟨r, hr, hid⟩ := hstarted
    have hlt : r.id < db.nextId :=
      hwf.shape.instance_ids.lt r.id (List.mem_map_of_mem (List.mem_map_of_mem hr))
    omega
  | ok r =>
    obtain ⟨p, hp, hsettle⟩ := bind_eq_ok ht
    unfold dispatches at hsteps
    simp only [ht, hp] at hsteps
    have hopened := plan_opened hp
    refine (hinv.settle ?_ hsteps hsettle).2
    cases hopened with
    | ignored op hrefused => exact hrefused.elim
    | jobReplaced op jobID job se inst hreplaced hcb halive hlocked =>
      rcases hreplaced with hreplaced | ⟨hreplaced, -⟩ <;> cases hreplaced
    | started definitionID version vars businessKey d json key hd hne hkey hjson =>
      obtain ⟨q, hq, rfl⟩ := marshal_obj_ok.mp hjson
      have hmember : HasMember k w (.obj (sortByKey q)) := by
        show GoMap.last (sortByKey q) k = some w
        rw [last_written hvs hq, hs, Option.bind_some, hw]
      exact ⟨startTx_wf hwf hd _ key, startTx_copies hwf hmember d key⟩

end Runs

/-- The value of `k` is the submitted one. -/
def Keeps (k : String) (s raw : Json) : Prop :=
  ∃ j, memberOf raw k = some j ∧ SameJson s j

/-- Two service tasks in a row. -/
def shipThenBill : WorkflowDefinition where
  id := "order"
  version := 1
  name := "order"
  steps := [
    { id := "ship", name := "ship", type := .serviceTask, jobType := "ship", nextStep := "bill" },
    { id := "bill", name := "bill", type := .serviceTask, jobType := "bill", nextStep := "end" },
    { id := "end", name := "end", type := .endStep }]

/-- A request for an order of this total. -/
def orderOf (total : ℚ) : Json :=
  .obj [("definitionId", .str "order"), ("variables", .obj [("total", .num total true)])]

/-- The call it becomes. -/
def orderOp (total : ℚ) : Op :=
  .start "order" 0 [("total", .float (.finite total))] ""

theorem startInstance_orderOf {total v : ℚ} (h : Float64.float64 total = some v) :
    startInstance (orderOf total) = .ok (orderOp v) := by
  have hid : findField startFields "definitionId" =
      some (.of "definitionId" decodeString (·.definitionID)
        fun r v => { r with definitionID := v }) := rfl
  have hvars : findField startFields "variables" =
      some (.of "variables" (decodeMap Json.toValue) (·.vars) fun r v => { r with vars := v }) := rfl
  have hentries : decodeEntries Json.toValue [] [("total", .num total true)] =
      .ok [("total", .float (.finite v))] := by
    rw [decodeEntries_toValue, toMembers, Json.toValue, h]
    rfl
  have hdecoded : decodeStruct false startFields "rest.startRequest" {} (orderOf total) =
      .ok { definitionID := "order", vars := [("total", .float (.finite v))] } := by
    rw [orderOf, decodeStruct, decodeMembers, hid]
    show decodeMembers false startFields { definitionID := "order" } _ = _
    rw [decodeMembers, hvars]
    simp only [Field.of, decodeMap, hentries]
    rfl
  rw [startInstance, hdecoded]
  rfl

/-- The first task is completed with another variable. -/
def shipped : Call :=
  ⟨.completeJob 2 "w" [("carrier", .str "post")], 10, 16⟩

end Rochallor
