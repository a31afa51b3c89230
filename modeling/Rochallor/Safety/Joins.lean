import Rochallor.Safety.Forks
import Rochallor.Safety.Progress
import Rochallor.Safety.Schedule

/-! # When a join goes on

    A join goes on when it counts as many completed branches as its gateway
    lists.  The count is over the first step of each branch.  Where each branch
    is one step, and the instance enters the gateway once, the `n`-th branch to
    come to the join is the one that makes the count `n`, so the join goes on
    once, with the last branch.  Where a branch has a second step, the count
    runs ahead of the branches, and the join goes on before the last of them
    has come.
-/

namespace Rochallor

/-! ## The dispatches of a run -/

/-- The dispatch is of the step, in a transaction on the instance. -/
def Dispatch.visits (x : Dispatch) (i : Nat) (stepID : StepId) : Bool :=
  decide (x.tx.inst.id = i) && decide (x.stepID = stepID)

/-- What the dispatch goes on to. -/
def Dispatch.next (svc : Service) (x : Dispatch) : List StepId :=
  match dispatchStep svc x.now x.definition x.tx x.stepID with
  | .error _ => []
  | .ok (_, next) => next

/-- What the tables say of the dispatches that led to them, each of which was
    made in `J`: the executions of a step are its dispatches. -/
structure Recorded (J : WorkflowDefinition → Tx → List StepId → Prop) (db : Db)
    (past : List Dispatch) : Prop where
  attempts : ∀ i stepID, (past.filter (·.visits i stepID)).map
      (fun x => (x.tx.db.attempts i stepID).length) =
    List.range (db.attempts i stepID).length
  earlier : ∀ x ∈ past, x.tx.db.Evolves db ∧
    ∀ i stepID, (x.tx.db.attempts i stepID).length ≤ (db.attempts i stepID).length
  made : ∀ x ∈ past, J x.definition x.tx (x.stepID :: x.pending)

section Recorded

variable {svc : Service} {J : WorkflowDefinition → Tx → List StepId → Prop} {db db' : Db}
  {past : List Dispatch}

theorem Recorded.empty : Recorded J {} [] :=
  ⟨fun _ _ => rfl, fun _ hx => (List.not_mem_nil hx).elim, fun _ hx => (List.not_mem_nil hx).elim⟩

theorem Recorded.mono {J' : WorkflowDefinition → Tx → List StepId → Prop} (h : Recorded J db past)
    (hJ : ∀ {d tx pending}, J d tx pending → J' d tx pending) : Recorded J' db past :=
  ⟨h.attempts, h.earlier, fun x hx => hJ (h.made x hx)⟩

/-- Later tables with the same executions, up to what becomes of them. -/
theorem Recorded.later (h : Recorded J db past) (hev : db.Evolves db')
    (hsame : ∀ i stepID, (db'.attempts i stepID).length = (db.attempts i stepID).length) :
    Recorded J db' past where
  attempts i stepID := by
    rw [h.attempts, hsame]
  earlier x hx := by
    obtain ⟨hev', hle⟩ := h.earlier x hx
    exact ⟨hev'.trans hev, fun i stepID => (hle i stepID).trans (Nat.le_of_eq (hsame i stepID).symm)⟩
  made := h.made

/-- A dispatch adds itself to the record. -/
theorem Recorded.dispatched {now : Time} {d : WorkflowDefinition} {tx tx' : Tx}
    {step : WorkflowStep} {pending next : List StepId} (h : Recorded J tx.db past)
    (hdisp : Dispatched svc now d tx step tx' next) (hwf : TxWF svc d tx)
    (hfind : findStep d step.id = some step) (hJ : J d tx (step.id :: pending)) :
    Recorded J tx'.db (past ++ [⟨now, d, tx, step.id, pending⟩]) := by
  obtain ⟨row, hrows, hkey, -⟩ := hdisp.rows hwf hfind
  have hinst : row.instanceID = tx.inst.id := congrArg StepKey.instanceID hkey
  have hstep : row.stepID = step.id := congrArg StepKey.stepID hkey
  have hev := hdisp.evolves hwf hfind
  have hle : ∀ i stepID, (tx.db.attempts i stepID).length ≤ (tx'.db.attempts i stepID).length := by
    intro i stepID
    rw [attempts_insert hrows]
    split
    · rw [List.length_append]
      omega
    · exact Nat.le_refl _
  constructor
  · intro i stepID
    rw [attempts_insert hrows, hinst, hstep, List.filter_append, List.map_append, h.attempts]
    by_cases hvisits : tx.inst.id = i ∧ step.id = stepID
    · -- the dispatch finds all the attempts before it
      obtain ⟨rfl, rfl⟩ := hvisits
      simp [Dispatch.visits, List.range_succ]
    · rw [if_neg hvisits]
      have hnot : Dispatch.visits ⟨now, d, tx, step.id, pending⟩ i stepID = false := by
        simpa [Dispatch.visits] using hvisits
      simp [hnot]
  · intro x hx
    rcases List.mem_append.mp hx with hx | hx
    · obtain ⟨hev', hle'⟩ := h.earlier x hx
      exact ⟨hev'.trans hev, fun i stepID => (hle' i stepID).trans (hle i stepID)⟩
    · obtain rfl := List.mem_singleton.mp hx
      exact ⟨hev, hle⟩
  · intro x hx
    rcases List.mem_append.mp hx with hx | hx
    · exact h.made x hx
    · obtain rfl := List.mem_singleton.mp hx
      exact hJ

/-- The record is kept whatever is known of the transactions. -/
theorem recorded_history {I : Db → Prop} (hI : ∀ {db}, I db → db.WF svc)
    (hJ : ∀ {d tx pending}, J d tx pending → TxWF svc d tx) :
    TxHistory svc I J (Recorded J) (fun _ tx past => Recorded J tx.db past) where
  opening := by
    intro db op now p past hIdb h hop
    have hwf := hI hIdb
    obtain ⟨f, hrows, hf, -⟩ := hop.rewritten hwf
    have htables : Recorded J p.tables past := by
      refine h.later (hop.evolves hwf) fun i stepID => ?_
      rw [attempts_map hrows fun r => (hf r).1, List.length_map]
    cases p with
    | commit db reply => exact htables
    | dispatch d tx steps => exact htables
    | chain d tx steps source => exact htables
  step := by
    intro now d tx step pending tx' next past hJtx h hfind hdisp
    exact h.dispatched hdisp (hJ hJtx) hfind hJtx
  closing := fun _ h => h
  acknowledge := by
    intro db source child past h
    have hev : db.Evolves (db.completeWorkflowChain source child) :=
      ⟨(Db.Evolves.refl db).instances, (Db.Evolves.refl db).steps, (Db.Evolves.refl db).jobs,
        (Db.Evolves.refl db).tasks⟩
    exact h.later hev fun _ _ => rfl

/-- A dispatch of the record on an instance runs the instance's definition. -/
theorem Recorded.definition (h : Recorded J db past) (hwf : db.WF svc)
    (hJ : ∀ {d tx pending}, J d tx pending → TxWF svc d tx) {x : Dispatch} (hx : x ∈ past)
    {inst : WorkflowInstance} (hinst : inst ∈ db.instances) (hid : x.tx.inst.id = inst.id)
    {d : WorkflowDefinition} (hd : Runs svc inst d) : x.definition = d := by
  have htx := hJ (h.made x hx)
  obtain ⟨row, hrow, hkey, -⟩ := htx.mirror.row
  obtain ⟨inst', hinst', hid', hruns⟩ :=
    (h.earlier x hx).1.runs hrow (htx.mirror.runs.of_key hkey)
  have hrowid : row.id = x.tx.inst.id := congrArg InstanceKey.id hkey
  obtain rfl := hwf.instance_eq hinst' hinst (hid'.trans (hrowid.trans hid))
  exact Except.ok.inj (hruns.symm.trans hd)

end Recorded

/-! ## The branches in a run -/

/-- An agenda is for an instance that was read, or starts a new one. -/
theorem Opened.read_or_started {svc : Service} {now : Time} {db : Db} {op : Op} {p : Plan}
    (h : Opened svc now db op p) {d : WorkflowDefinition} {tx : Tx} {steps : List StepId}
    (hp : p.agenda = some (d, tx, steps)) :
    (∃ inst ∈ db.instances, inst.id = tx.inst.id ∧ Runs svc inst d) ∨
      (steps = [(d.steps.map (·.id)).headD ""] ∧ tx.inst.id = db.nextId ∧
        tx.db.stepExecutions = db.stepExecutions) := by
  cases h with
  | started definitionID version vars businessKey d json key hd hsteps =>
    cases hp
    exact .inr ⟨rfl, rfl, rfl⟩
  | chainStarted source d json key hd hsteps hclaim =>
    cases hp
    exact .inr ⟨rfl, rfl, rfl⟩
  | jobAdvanced jobID workerID vars job se inst d step g json tx next hcb hacc hd hfind hadv =>
    cases hp
    have hid : tx.inst.id = inst.id := by cases hadv <;> rfl
    exact .inl ⟨inst, getInstance_mem hcb.inst_eq, hid.symm, hd⟩
  | userTaskCompleted stepID vars inst d step result merged g tx next hinst hflight hd hfind
      htype hrows hadv =>
    cases hp
    have hid : tx.inst.id = inst.id := by cases hadv <;> rfl
    exact .inl ⟨inst, getInstance_mem hinst, hid.symm, hd⟩
  | waitSignalled stepID vars inst d step merged g tx next hinst hflight hd hfind htype hrows
      hadv =>
    cases hp
    have hid : tx.inst.id = inst.id := by cases hadv <;> rfl
    exact .inl ⟨inst, getInstance_mem hinst, hid.symm, hd⟩
  | timerInterrupts eventID inst event se d hinst hevent hinterrupting hse halive hd =>
    cases hp
    exact .inl ⟨inst, getInstance_mem hinst, rfl, hd⟩
  | timerForks eventID inst event se d hinst hevent hinterrupting hse halive hd =>
    cases hp
    exact .inl ⟨inst, getInstance_mem hinst, rfl, hd⟩
  | stepRetried inst stepID patch d g json hinst hfailed hlatest hd =>
    cases hp
    exact .inl ⟨inst, getInstance_mem hinst, rfl, hd⟩
  | _ => cases hp

/-- The branches of an instance of `d` that has entered the gateway at most
    once. -/
def Branched (svc : Service) (d : WorkflowDefinition) (g : WorkflowStep) (db : Db) (i : Nat) : Prop :=
  (∃ inst ∈ db.instances, inst.id = i ∧ Runs svc inst d) →
    (db.attempts i g.id).length ≤ 1 → Merging g db i []

/-- The same within a transaction. -/
def BranchedTx (d : WorkflowDefinition) (g : WorkflowStep) (d' : WorkflowDefinition) (tx : Tx)
    (pending : List StepId) : Prop :=
  d' = d → (tx.db.attempts tx.inst.id g.id).length ≤ 1 → Merging g tx.db tx.inst.id pending

section Branched

variable {svc : Service} {now : Time} {db : Db} {d : WorkflowDefinition} {g : WorkflowStep}

theorem Branched.untouched {i : Nat} {db' : Db} (hu : Untouched i db db')
    (h : Branched svc d g db i) : Branched svc d g db' i := by
  rintro ⟨inst, hinst, hid, hruns⟩ hle
  rw [hu.attempts] at hle
  exact (h ⟨inst, (hu.mem_instance hid).mp hinst, hid, hruns⟩ hle).untouched hu

/-- An operation on an instance of `d` finds its branches and dispatches on. -/
theorem Opened.branched {op : Op} {p : Plan} (h : Opened svc now db op p) (hwf : db.WF svc)
    (hdel : Delivery db) (hsourced : Sourced svc db) (hd : Straight d g)
    (hP : ∀ i, Branched svc d g db i) {i : Nat} (hi : op.subject db = some i) :
    p.Establishes (fun db' => Branched svc d g db' i) (BranchedTx d g) := by
  obtain ⟨f, hrows, hf, -⟩ := h.rewritten hwf
  have hlength : ∀ stepID, (p.tables.attempts i stepID).length = (db.attempts i stepID).length := by
    intro stepID
    rw [attempts_map hrows fun r => (hf r).1, List.length_map]
  -- the branches of an instance that was there before
  have hread : ∀ {inst : WorkflowInstance}, inst ∈ db.instances → inst.id = i → Runs svc inst d →
      (p.tables.attempts i g.id).length ≤ 1 → Merging g p.tables i p.steps := by
    rintro inst hinst rfl hruns hle
    rw [hlength] at hle
    exact h.merging hwf hdel hsourced hd hinst hruns hi (hP _ ⟨inst, hinst, rfl, hruns⟩ hle)
  have hagenda : ∀ {d' : WorkflowDefinition} {tx : Tx} {steps : List StepId},
      p.agenda = some (d', tx, steps) → p.tables = tx.db → BranchedTx d g d' tx steps := by
    rintro d' tx steps hp htables rfl hle
    have hid : i = tx.inst.id := Option.some.inj (hi.symm.trans (h.subject_agenda hp))
    have hsteps : p.steps = steps := by rw [Plan.steps, hp]; rfl
    rw [← hid, ← htables] at hle ⊢
    rcases h.read_or_started hp with ⟨inst, hinst, hid', hruns⟩ | ⟨hfirst, hnew, hsame⟩
    · rw [← hsteps]
      exact hread hinst (hid'.trans hid.symm) hruns hle
    · rw [hfirst]
      refine Merging.fresh (fun r hr heq => ?_) hd.first
      rw [htables, hsame] at hr
      have hlt := hwf.instance_lt r hr
      omega
  cases p with
  | commit db' reply =>
    rintro ⟨inst', hinst', hid, hruns⟩ hle
    obtain ⟨inst, hinst, hkey, -⟩ := h.list_kept hinst'
    exact hread hinst ((congrArg InstanceKey.id hkey).trans hid) (hruns.of_key hkey) hle
  | dispatch d' tx steps => exact hagenda rfl rfl
  | chain d' tx steps source => exact hagenda rfl rfl

theorem branched_invariant (svc : Service) (hd : Straight d g) :
    TxInvariant svc (fun db => db.WF svc) (fun d' tx _ => TxWF svc d' tx)
      (fun db _ => Delivery db ∧ Sourced svc db) (fun _ => True)
      (fun db => ∀ i, Branched svc d g db i)
      (fun d' tx pending => (∀ i, i ≠ tx.inst.id → Branched svc d g tx.db i) ∧
        BranchedTx d g d' tx pending) := by
  refine TxInvariant.ofLocal (fun hu h => h.untouched hu) ?_ ?_ ?_
  · intro db op now p i fuel hwf hP hC hop hi
    exact hop.branched hwf hC.1 hC.2 hd hP hi
  · rintro now d' tx step pending tx' next hwf h - hfind hdisp rfl hle
    obtain ⟨f, hv⟩ := hdisp.instance_view
    have hid : tx'.inst.id = tx.inst.id := congrArg InstanceKey.id hv.inst_key
    obtain ⟨row, he, -⟩ := hdisp.entered hwf hfind
    rw [hid] at hle ⊢
    by_cases hgateway : step.id = g.id
    · -- the only entry into the gateway
      rw [← hgateway, he.self, List.length_append, List.length_singleton, hgateway] at hle
      have hnone : tx.db.attempts tx.inst.id g.id = [] := List.eq_nil_of_length_eq_zero (by omega)
      exact hdisp.merging hwf hfind hd (fun _ => hnone) (h rfl (by simp [hnone]))
    · rw [he.other g.id (Ne.symm hgateway)] at hle
      exact hdisp.merging hwf hfind hd (fun heq => absurd heq hgateway) (h rfl hle)
  · rintro d' tx hwf h ⟨inst, hinst, hid, hruns⟩ hle
    exact h (hwf.row_runs hinst hid hruns).symm hle

end Branched

/-! ## The join -/

/-- The distinct completed steps are the branches that have arrived. -/
theorem countCompletedBranchLeafs_eq {db : Db} {i : Nat} {leafs : List StepId}
    (hnodup : leafs.Nodup) :
    db.countCompletedBranchLeafs i leafs = leafs.countP (db.arrived i) := by
  rw [List.countP_eq_length_filter]
  refine List.Perm.length_eq ?_
  refine (List.perm_ext_iff_of_nodup (List.nodup_dedup _) (hnodup.filter _)).mpr fun b => ?_
  simp only [List.mem_dedup, List.mem_map, List.mem_filter, Bool.and_eq_true, decide_eq_true_eq,
    List.contains_iff_mem, arrived_iff]
  constructor
  · rintro ⟨r, ⟨hr, ⟨hi, hleaf⟩, hs⟩, rfl⟩
    exact ⟨hleaf, r, hr, hi, rfl, hs⟩
  · rintro ⟨hleaf, r, hr, hi, rfl, hs⟩
    exact ⟨r, ⟨hr, ⟨hi, hleaf⟩, hs⟩, rfl⟩

/-- A join goes on if it counts as many branches as its gateway lists. -/
theorem Dispatch.next_join {svc : Service} {x : Dispatch} {g join : WorkflowStep}
    (hfind : findStep x.definition x.stepID = some join) (htype : join.type = .joinGateway)
    (hg : findParallelGatewayFor x.definition x.stepID = some g) :
    x.next svc = if x.tx.db.countCompletedBranchLeafs x.tx.inst.id g.parallelNextSteps <
      g.parallelNextSteps.length then [] else [join.nextStep] := by
  have hg' : findParallelGatewayFor x.definition join.id = some g := by rwa [findStep_id hfind]
  have hcount := countCompletedBranchLeafs_enterStep x.tx join x.stepID x.tx.inst.id
    g.parallelNextSteps
  unfold Dispatch.next dispatchStep
  simp only [hfind, routeStep, htype, handleJoinGateway, hg', branchLeafsFor, enterStep_inst_id,
    hcount]
  split <;> rename_i hok
  · split at hok <;> cases hok
  · split at hok <;> cases hok <;> rename_i hlt
    · rw [if_pos hlt]
    · rw [if_neg hlt]

/-- The join waits for the branches that end in the given steps.  It is
    dispatched once for each branch that has come to it, and goes on once, in
    the transaction in which the last branch comes. -/
structure JoinsOnce (svc : Service) (calls : List Call) (i : Nat) (join : WorkflowStep)
    (ends : List StepId) : Prop where
  visits : (runDispatches svc calls).countP (·.visits i join.id) =
    ends.countP ((run svc calls).arrived i)
  next : ∀ x ∈ runDispatches svc calls, x.visits i join.id = true →
    x.next svc = if ends.all (x.tx.db.arrived i) then [join.nextStep] else []
  once : (runDispatches svc calls).countP
      (fun x => x.visits i join.id && decide (x.next svc = [join.nextStep])) =
    if ends.all ((run svc calls).arrived i) then 1 else 0

section Joins

variable {svc : Service} {d : WorkflowDefinition} {g join : WorkflowStep}

/-- In every run the branches are where `Merging` says, after the last call and
    at each dispatch. -/
theorem branched_run (svc : Service) (hd : Straight d g) (calls : List Call) :
    (∀ i, Branched svc d g (run svc calls) i) ∧
      Recorded (fun d' tx pending => TxWF svc d' tx ∧ BranchedTx d g d' tx pending)
        (run svc calls) (runDispatches svc calls) := by
  have hbase := ((wf_invariant svc).and (delivery_invariant svc)).and
    ((sourced_invariant svc).weaken (fun h => h.1) (fun h => h.1) fun _ => trivial)
  have hrule := hbase.and ((branched_invariant svc hd).weaken (fun h => h.1.1) (fun h => h.1.1)
    fun h => ⟨h.1.2, h.2⟩)
  have hempty : ∀ i, Branched svc d g {} i := fun i ⟨_, hinst, _⟩ => by cases hinst
  have hstart : Sourced svc {} := fun r hr => by cases hr
  refine ⟨?_, ?_⟩
  · exact (hrule.run ⟨⟨⟨wf_empty svc, delivery_empty⟩, hstart⟩, hempty⟩
      ((Run.guarded_true _ calls).mono fun _ _ _ => ⟨trivial, fun _ _ => trivial⟩)).2
  · have hrecorded := TxHistory.run hrule (recorded_history (fun h => h.1.1.1) fun h => h.1.1.1)
      ⟨⟨⟨wf_empty svc, delivery_empty⟩, hstart⟩, hempty⟩ .empty calls
    exact hrecorded.mono fun h => ⟨h.1.1.1, h.2.2⟩

theorem all_arrived_iff {db : Db} {i : Nat} {ends : List StepId} :
    ends.all (db.arrived i) = true ↔ ends.countP (db.arrived i) = ends.length := by
  rw [List.all_eq_true, List.countP_eq_length]

/-- A dispatch of the join finds one branch more than it has been dispatched
    for, and goes on if this is the last. -/
theorem Merging.visit {x : Dispatch} {i : Nat} (hm : Merging g x.tx.db i (x.stepID :: x.pending))
    (hd : Straight x.definition g) (hjoin : findStep x.definition g.joinStep = some join)
    (hi : x.tx.inst.id = i) (hstep : x.stepID = g.joinStep) :
    (x.tx.db.attempts i g.joinStep).length + 1 =
        g.parallelNextSteps.countP (x.tx.db.arrived i) ∧
      x.next svc = if g.parallelNextSteps.all (x.tx.db.arrived i) then [join.nextStep] else [] := by
  have harrivals := hm.arrivals
  have hnone : x.pending.count g.joinStep = 0 := List.count_eq_zero_of_not_mem hm.last
  rw [hstep, List.count_cons_self, hnone] at harrivals
  refine ⟨harrivals, ?_⟩
  obtain ⟨join', hjoin', htype⟩ := hd.join
  obtain rfl : join = join' := Option.some.inj (hjoin.symm.trans hjoin')
  rw [Dispatch.next_join (hstep ▸ hjoin) htype (hstep ▸ hd.found),
    countCompletedBranchLeafs_eq hd.nodup, hi]
  have hle : g.parallelNextSteps.countP (x.tx.db.arrived i) ≤ g.parallelNextSteps.length :=
    List.countP_le_length
  by_cases hall : g.parallelNextSteps.all (x.tx.db.arrived i) = true
  · have heq := all_arrived_iff.mp hall
    rw [if_pos hall, if_neg (by omega)]
  · have hne : g.parallelNextSteps.countP (x.tx.db.arrived i) ≠ g.parallelNextSteps.length :=
      fun heq => hall (all_arrived_iff.mpr heq)
    rw [if_neg hall, if_pos (by omega)]

end Joins

/-- A fork into two branches. -/
def forkInto (a b : StepId) : WorkflowStep where
  id := "fork"
  name := "fork"
  type := .parallelGateway
  parallelNextSteps := [a, b]
  joinStep := "join"

/-- The join of the two. -/
def joinToEnd : WorkflowStep where
  id := "join"
  name := "join"
  type := .joinGateway
  nextStep := "end"

theorem straight_chargeBesideReview :
    Straight chargeBesideReview (forkInto "charge" "review") := by
  constructor
  · rfl
  · rfl
  · exact ⟨_, rfl, rfl⟩
  · decide
  · decide
  · decide
  · intro b hb
    rcases List.mem_cons.mp hb with rfl | hb
    · exact ⟨_, rfl, rfl, rfl⟩
    · obtain rfl := List.mem_singleton.mp hb
      exact ⟨_, rfl, rfl, rfl⟩
  · decide
  · decide
  · decide

/-- The charge and then the review are completed. -/
def chargedAndReviewedRun : List Call :=
  [chargeBesideReview.start, ⟨.completeJob 3 "worker" [], 1, 16⟩,
    ⟨.completeUserTask 0 "review" [], 2, 16⟩]

/-- The chain of steps from `first` to `last`, which leads to `target`. -/
inductive Chain (d : WorkflowDefinition) (target : StepId) : StepId → StepId → Prop
  | last {id : StepId} {step : WorkflowStep} (hfind : findStep d id = some step)
      (honward : step.onward = [target]) : Chain d target id id
  | step {id next last : StepId} {step : WorkflowStep} (hfind : findStep d id = some step)
      (honward : step.onward = [next]) (h : Chain d target next last) : Chain d target id last

/-- Two branches of two user tasks each. -/
def chargeBesidePick : WorkflowDefinition where
  id := "charge-beside-pick"
  version := 1
  name := "charge beside pick"
  steps := [
    forkInto "charge" "pick",
    { id := "charge", name := "charge", type := .userTask, nextStep := "receipt" },
    { id := "receipt", name := "receipt", type := .userTask, nextStep := "join" },
    { id := "pick", name := "pick", type := .userTask, nextStep := "pack" },
    { id := "pack", name := "pack", type := .userTask, nextStep := "join" },
    joinToEnd,
    { id := "end", name := "end", type := .endStep }]

/-- Nothing has been packed yet. -/
def pickedRun : List Call :=
  [chargeBesidePick.start, ⟨.completeUserTask 0 "charge" [], 1, 16⟩,
    ⟨.completeUserTask 0 "pick" [], 2, 16⟩, ⟨.completeUserTask 0 "receipt" [], 3, 16⟩]

end Rochallor
