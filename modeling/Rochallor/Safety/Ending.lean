import Rochallor.Framework.Endless
import Rochallor.Safety.BusinessKeys
import Rochallor.Safety.Progress
import Rochallor.Safety.Workload

/-! # Workflows come to an end

    The engine does nothing by itself: it moves an instance on when somebody
    reports on a running step.  If that is done for every step sooner or later,
    if the steps are not retried for ever, and if no step leads back to itself,
    then the instance leaves flight, and it stays ended.

    There is a last step execution, since their number is bounded; when all
    executions have been closed, an instance in flight would be stuck; and an
    instance gets stuck only at a join that waits for a branch that never comes.
-/

namespace Rochallor

/-- The instance has ended. -/
def HasEnded (db : Db) (i : Nat) : Prop :=
  ∃ r ∈ db.instances, r.id = i ∧ r.status.inFlight = false

section Steps

variable {svc : Service} {now : Time} {db : Db} {op : Op} {p : Plan} {i : Nat}

/-! ## HasEnded instances -/

theorem HasEnded.untouched {db' : Db} (h : HasEnded db i) (hu : Untouched i db db') : HasEnded db' i := by
  obtain ⟨r, hr, hid, hended⟩ := h
  exact ⟨r, (hu.mem_instance hid).mpr hr, hid, hended⟩

/-- Only a retry of one of its steps touches an instance that has ended. -/
theorem Opened.ended (h : Opened svc now db op p) (hwf : db.WF svc) (hended : HasEnded db i)
    (hretries : op.retries i = []) :
    Untouched i db p.tables ∧ ∀ d tx steps, p.agenda = some (d, tx, steps) → tx.inst.id ≠ i := by
  by_cases hi : op.subject db = some i
  · obtain ⟨r, hr, hid, hclosed⟩ := hended
    -- whatever finds an instance in flight finds another one
    have hother : ∀ {inst : WorkflowInstance}, db.getInstance inst.id = some inst →
        inst.id = i → inst.status.inFlight = true → False := by
      intro inst hinst hsame hflight
      obtain rfl := hwf.instance_eq (getInstance_mem hinst) hr (hsame.trans hid.symm)
      rw [hclosed] at hflight
      cases hflight
    have hreport : ∀ {jobID : Nat} {job : Job} {se : StepExecution} {inst : WorkflowInstance},
        Callback db jobID job se inst → (db.getJob jobID).map (·.instanceID) = some i →
        inst.status.inFlight = true → False := by
      intro jobID job se inst hcb hjob hflight
      rw [hcb.job_eq, Option.map_some, Option.some.injEq] at hjob
      have hsame := getInstance_id hcb.inst_eq
      exact hother (hsame ▸ hcb.inst_eq) (hsame.trans hjob) hflight
    have hnew : db.nextId = i → False := by
      intro hnext
      have hlt : r.id < db.nextId :=
        hwf.shape.instance_ids.lt r.id (by simpa [Db.shape] using ⟨r, hr, rfl⟩)
      omega
    cases h with
    | ignored op hrefused => exact ⟨.refl i db, fun _ _ _ hp => by cases hp⟩
    | started => exact (hnew (Option.some.inj hi)).elim
    | chainStarted => exact (hnew (Option.some.inj hi)).elim
    | outputsRejected jobID workerID vars job se inst violations hcb hacc =>
      exact (hreport hcb hi (alive_of_acceptsCallback hacc).1.1).elim
    | jobCompleted jobID workerID vars job se inst d step g hcb hacc =>
      exact (hreport hcb hi (alive_of_acceptsCallback hacc).1.1).elim
    | jobAdvanced jobID workerID vars job se inst d step g json tx next hcb hacc =>
      exact (hreport hcb hi (alive_of_acceptsCallback hacc).1.1).elim
    | jobRetried jobID workerID errorMessage job se inst hcb hacc =>
      exact (hreport hcb hi (alive_of_acceptsCallback hacc).1.1).elim
    | jobFailed jobID workerID errorMessage retryable job se inst hcb hacc =>
      exact (hreport hcb hi (alive_of_acceptsCallback hacc).1.1).elim
    | jobReplaced op jobID job se inst hop hcb halive =>
      rcases hop with rfl | ⟨rfl, -⟩
      · exact (hreport hcb hi halive.1).elim
      · exact (hreport hcb hi halive.1).elim
    | leaseExtended later jobID workerID seconds lease job se inst hcb halive =>
      exact (hreport hcb hi halive.1).elim
    | polled => cases hi
    | housekept => cases hi
    | userTaskCompleted stepID vars inst d step result merged g tx next hinst hflight =>
      exact (hother hinst (Option.some.inj hi) hflight).elim
    | waitSignalled stepID vars inst d step merged g tx next hinst hflight =>
      exact (hother hinst (Option.some.inj hi) hflight).elim
    | timerConsumed => exact ⟨.frame rfl rfl rfl, fun _ _ _ hp => by cases hp⟩
    | timerInterrupts eventID inst event se d hinst hevent hinterrupting hse halive =>
      exact (hother hinst (Option.some.inj hi) halive.1).elim
    | timerForks eventID inst event se d hinst hevent hinterrupting hse halive =>
      exact (hother hinst (Option.some.inj hi) halive.1).elim
    | cancelled inst reason hinst hflight =>
      exact (hother hinst (Option.some.inj hi) hflight).elim
    | stepRetried inst stepID =>
      have hsame : inst.id = i := Option.some.inj hi
      simp [Op.retries, hsame] at hretries
  · refine ⟨h.untouched hwf hi, fun d tx steps hp heq => ?_⟩
    exact hi (heq ▸ h.subject_agenda hp)

theorem HasEnded.apply (h : HasEnded db i) (hwf : db.WF svc) {call : Call}
    (hretries : call.op.retries i = []) : HasEnded (apply svc db call) i := by
  cases ht : transact svc db call with
  | error e =>
    unfold Rochallor.apply perform
    rw [ht]
    exact h
  | ok r =>
    obtain ⟨p, hp, hsettle⟩ := bind_eq_ok ht
    obtain ⟨htables, hne⟩ := (plan_opened hp).ended hwf h hretries
    rw [apply_of_plan hp hsettle]
    exact h.untouched (untouched_settle hwf hp hsettle htables hne)

/-! ## No new executions -/

variable {t t' : List StepExecution} {q : StepExecution → Bool}
  (hq : ∀ r r', StepExecution.Later r r' → q r' = q r)

include hq

theorem countP_later (h : List.Forall₂ StepExecution.Later t t') : t'.countP q = t.countP q := by
  induction h with
  | nil => rfl
  | cons hlater _ ih => rw [List.countP_cons, List.countP_cons, ih, hq _ _ hlater]

theorem countP_evolves (h : Table.Evolves StepExecution.Later t t') : t.countP q ≤ t'.countP q := by
  obtain ⟨u, v, rfl, hu⟩ := h
  rw [List.countP_append, countP_later hq hu]
  exact Nat.le_add_right _ _

/-- If the number of rows of some kind has stayed the same, so have the rows. -/
theorem old_of_countP (h : Table.Evolves StepExecution.Later t t')
    (hcount : t'.countP q = t.countP q) {se : StepExecution} (hse : se ∈ t') (hqse : q se = true) :
    ∃ r ∈ t, q r = true ∧ r.id = se.id := by
  obtain ⟨u, v, rfl, hu⟩ := h
  rw [List.countP_append, countP_later hq hu] at hcount
  have hnone : v.countP q = 0 := by omega
  have hmem : se ∈ u := by
    refine (List.mem_append.mp hse).resolve_right fun hv => ?_
    exact List.countP_eq_zero.mp hnone se hv hqse
  -- so the row is a later form of an old one
  have hold : ∃ r ∈ t, StepExecution.Later r se := by
    clear hcount hse hnone
    induction hu with
    | nil => cases hmem
    | cons hlater _ ih =>
      rcases List.mem_cons.mp hmem with rfl | hmem
      · exact ⟨_, List.mem_cons_self .., hlater⟩
      · obtain ⟨r, hr, hlater⟩ := ih hmem
        exact ⟨r, List.mem_cons_of_mem _ hr, hlater⟩
  obtain ⟨r, hr, hlater⟩ := hold
  exact ⟨r, hr, (hq _ _ hlater).symm.trans hqse, (congrArg StepKey.id hlater.key).symm⟩

end Steps

/-! ## Endless runs -/

/-- The tables after the first `n` calls. -/
def stateAt (svc : Service) (calls : Nat → Call) (n : Nat) : Db :=
  Run.stateAt (apply svc) {} calls n

/-- Every running execution of the instance is closed sooner or later, unless
    the instance ends before. -/
def Attended (svc : Service) (calls : Nat → Call) (i : Nat) : Prop :=
  ∀ n, ∀ se ∈ (stateAt svc calls n).stepExecutions, se.instanceID = i → se.status = .running →
    ∃ m, n ≤ m ∧ (Closed (stateAt svc calls m) se.id ∨ HasEnded (stateAt svc calls m) i)

section Endless

variable {svc : Service} {calls : Nat → Call} {i : Nat}

theorem stateAt_run (n : Nat) : stateAt svc calls n = run svc ((List.range n).map calls) := rfl

theorem stateAt_succ (n : Nat) :
    stateAt svc calls (n + 1) = apply svc (stateAt svc calls n) (calls n) :=
  Run.stateAt_succ n

theorem wf_stateAt (n : Nat) : (stateAt svc calls n).WF svc := wf_run ..

theorem evolves_stateAt {m n : Nat} (h : m ≤ n) :
    (stateAt svc calls m).Evolves (stateAt svc calls n) := by
  refine Run.stateAt_rel Db.Evolves.refl (fun h h' => h.trans h') (fun k => ?_) h
  rw [show Run.stateAt (apply svc) {} calls (k + 1) = apply svc (stateAt svc calls k) (calls k) from
    stateAt_succ k]
  exact evolves_apply (wf_stateAt k) (calls k)

/-- Something is left to report on as long as the instance is in flight. -/
theorem movable_stateAt (hup : svc.Uploaded GoesOn)
    (hjoins : ∀ n, ∀ x ∈ dispatches svc (stateAt svc calls n) (calls n), x.strands = false)
    (n : Nat) : ∀ i, MovableInFlight (stateAt svc calls n) i := by
  induction n with
  | zero => exact fun i r hr => (List.not_mem_nil hr).elim
  | succ n ih =>
    rw [stateAt_succ]
    exact (((wf_invariant svc).and (movable_invariant svc hup)).apply ⟨wf_stateAt n, ih⟩
      trivial (hjoins n)).2

theorem ended_stateAt {n : Nat} (hretries : ∀ m, n ≤ m → (calls m).op.retries i = [])
    (h : HasEnded (stateAt svc calls n) i) : ∀ m, n ≤ m → HasEnded (stateAt svc calls m) i := by
  intro m hm
  induction m, hm using Nat.le_induction with
  | base => exact h
  | succ m hm ih =>
    rw [stateAt_succ]
    exact ih.apply (wf_stateAt m) (hretries m hm)

/-- The executions of an instance of an acyclic definition come to rest. -/
theorem executions_rest {d : WorkflowDefinition} (hd : d.Acyclic)
    (howns : ∀ n, Owns svc d i (stateAt svc calls n)) {last : Nat}
    (hretries : ∀ m, last ≤ m → (calls m).op.retries i = []) :
    ∃ n, ∀ m, n ≤ m →
      (stateAt svc calls m).stepExecutions.countP (fun r => decide (r.instanceID = i)) =
        (stateAt svc calls n).stepExecutions.countP (fun r => decide (r.instanceID = i)) := by
  obtain ⟨w, hw⟩ := hd.exists_worth
  let retried (n : Nat) : Nat :=
    ((((List.range n).map calls).flatMap fun call => call.op.retries i).map w).sum
  have hsucc : ∀ n, retried (n + 1) = retried n + (((calls n).op.retries i).map w).sum := by
    intro n
    simp only [retried, List.range_succ, List.map_append, List.map_cons, List.map_nil,
      List.flatMap_append, List.flatMap_singleton, List.sum_append]
  -- the retries are over after the call `last`
  have hretried : ∀ n, retried n ≤ retried last := by
    intro n
    rcases Nat.le_total n last with hn | hn
    · exact monotone_nat_of_le_succ (fun k => by rw [hsucc]; omega) hn
    · refine Nat.le_of_eq ?_
      induction n, hn using Nat.le_induction with
      | base => rfl
      | succ n hn ih =>
        rw [hsucc, hretries n hn, ih]
        rfl
  let bound := w ((d.steps.map (·.id)).headD "") + retried last
  refine Run.exists_rest ?_ fun n => (?_ : _ ≤ bound)
  · intro n
    refine countP_evolves (fun r r' h => ?_) (evolves_stateAt (Nat.le_succ n)).steps
    rw [show r'.instanceID = r.instanceID from congrArg StepKey.instanceID h.key]
  · have hle := account_run svc hw ((List.range n).map calls) (howns n)
    have hexecs := executions_le_account (d := d) (w := w) (i := i) (stateAt svc calls n)
    have hbound : ((((List.range n).map calls).flatMap fun call => call.op.retries i).map w).sum ≤
        retried last := hretried n
    rw [stateAt_run] at hexecs ⊢
    omega

end Endless

/-- If no step of a definition leads back to itself, its instances come to an
    end: as long as running steps are reported on sooner or later, steps are
    retried only finitely often, and no join is left waiting for a branch that
    never comes, the instance ends and stays ended. -/
theorem acyclic_workflows_end (svc : Service) (hup : svc.Uploaded GoesOn) (calls : Nat → Call)
    (hjoins : ∀ n, ∀ x ∈ dispatches svc (stateAt svc calls n) (calls n), x.strands = false)
    (start : Nat) (inst : WorkflowInstance) (hinst : inst ∈ (stateAt svc calls start).instances)
    (d : WorkflowDefinition) (hd : d.Acyclic) (hruns : Runs svc inst d) (last : Nat)
    (hretries : ∀ m, last ≤ m → (calls m).op.retries inst.id = [])
    (hattended : Attended svc calls inst.id) :
    ∃ n, ∀ m, n ≤ m → HasEnded (stateAt svc calls m) inst.id := by
  have howns : ∀ n, Owns svc d inst.id (stateAt svc calls n) := by
    intro n
    have hlater : Owns svc d inst.id (stateAt svc calls (max n start)) := by
      intro r hr hid
      obtain ⟨inst', hinst', hid', hruns'⟩ :=
        (evolves_stateAt (Nat.le_max_right n start)).runs hinst hruns
      obtain rfl := (wf_stateAt _).instance_eq hr hinst' (hid.trans hid'.symm)
      exact hruns'
    exact hlater.earlier (evolves_stateAt (Nat.le_max_left n start))
  obtain ⟨rest, hrest⟩ := executions_rest hd howns hretries
  -- from here on the instance is there, is not retried and gets no new execution
  let settled := max (max start last) rest
  by_contra hnever
  have hflying : ∀ m, settled ≤ m → ¬ HasEnded (stateAt svc calls m) inst.id := by
    intro m hm hended
    exact hnever ⟨m, ended_stateAt (fun k hk => hretries k (by omega)) hended⟩
  let mine (r : StepExecution) : Bool := decide (r.instanceID = inst.id)
  have hmine : ∀ r r', StepExecution.Later r r' → mine r' = mine r := by
    intro r r' h
    show decide (r'.instanceID = _) = decide (r.instanceID = _)
    rw [show r'.instanceID = r.instanceID from congrArg StepKey.instanceID h.key]
  obtain ⟨m, hm, hclosed⟩ := Run.all_happen
    (P := fun (se : StepExecution) m => Closed (stateAt svc calls m) se.id)
    (fun se k m hkm h => h.evolves (evolves_stateAt hkm)) settled
    (l := (stateAt svc calls settled).stepExecutions.filter mine) (by
      intro se hse
      obtain ⟨hse, hown⟩ := List.mem_filter.mp hse
      by_cases hrun : se.status = .running
      · obtain ⟨m, hm, hclosed | hended⟩ := hattended settled se hse (of_decide_eq_true hown) hrun
        · exact ⟨m, hm, hclosed⟩
        · exact absurd hended (hflying m hm)
      · exact ⟨settled, Nat.le_refl _, se, hse, rfl, hrun⟩)
  -- now all executions are closed, but the instance has one that runs
  obtain ⟨inst', hinst', hid', -⟩ :=
    (evolves_stateAt (show start ≤ m by omega)).runs hinst hruns
  have hflight : inst'.status.inFlight = true := by
    by_contra hended
    exact hflying m hm ⟨inst', hinst', hid', by simpa using hended⟩
  obtain ⟨se, hse, hown, hrun, -⟩ := movable_stateAt hup hjoins m inst.id inst' hinst' hid' hflight
  have hcount : (stateAt svc calls m).stepExecutions.countP mine =
      (stateAt svc calls settled).stepExecutions.countP mine :=
    (hrest m (by omega)).trans (hrest settled (Nat.le_max_right ..)).symm
  obtain ⟨r, hr, hqr, hid⟩ := old_of_countP hmine (evolves_stateAt hm).steps hcount hse
    (decide_eq_true hown)
  have hdone := hclosed r (List.mem_filter.mpr ⟨hr, hqr⟩)
  exact hdone.not_running (wf_stateAt m) hse hid.symm hrun

/-- The order is charged and reviewed; what is called afterwards is refused. -/
def shipOrderCalls : Nat → Call
  | 0 => shipOrder.start
  | 1 => ⟨.completeJob 3 "worker" [], 1, 16⟩
  | 2 => ⟨.completeUserTask 0 "review" [], 2, 16⟩
  | _ => ⟨.start "nothing" 0 [] "", 3, 16⟩

theorem shipOrder_idle {m : Nat} (h : 3 ≤ m) :
    stateAt (.ofList [shipOrder]) shipOrderCalls m =
      stateAt (.ofList [shipOrder]) shipOrderCalls 3 := by
  induction m, h using Nat.le_induction with
  | base => rfl
  | succ m hm ih =>
    obtain ⟨k, rfl⟩ := Nat.exists_eq_add_of_le' hm
    rw [stateAt_succ, ih]
    rfl

theorem shipOrder_attended : Attended (.ofList [shipOrder]) shipOrderCalls 0 := by
  intro n se hse _ _
  have hclosed : ∀ r ∈ (stateAt (.ofList [shipOrder]) shipOrderCalls 3).stepExecutions,
      r.status ≠ .running := by
    decide +kernel
  obtain ⟨r, hr, hlater⟩ := (evolves_stateAt (Nat.le_max_left n 3)).steps.mem hse
  refine ⟨max n 3, Nat.le_max_left .., .inl ⟨r, hr, congrArg StepKey.id hlater.key, ?_⟩⟩
  rw [shipOrder_idle (Nat.le_max_right n 3)] at hr
  exact hclosed r hr

theorem acyclic_workflows_end_shipOrder :
    ∃ n, ∀ m, n ≤ m → HasEnded (stateAt (.ofList [shipOrder]) shipOrderCalls m) 0 := by
  have hjoins : ∀ n, ∀ x ∈ dispatches (.ofList [shipOrder])
      (stateAt (.ofList [shipOrder]) shipOrderCalls n) (shipOrderCalls n), x.strands = false := by
    intro n
    match n with
    | 0 => decide +kernel
    | 1 => decide +kernel
    | 2 => decide +kernel
    | n + 3 => exact fun x hx => (List.not_mem_nil hx).elim
  have hretries : ∀ m, 0 ≤ m → (shipOrderCalls m).op.retries 0 = [] := by
    intro m _
    match m with
    | 0 => rfl
    | 1 => rfl
    | 2 => rfl
    | m + 3 => rfl
  obtain ⟨inst, hinst, hid, hkey⟩ : ∃ inst ∈ (stateAt (.ofList [shipOrder]) shipOrderCalls 1).instances,
      inst.id = 0 ∧ inst.definitionID = "ship-order" ∧ inst.definitionVersion = 1 := by
    decide +kernel
  have hruns : Runs (.ofList [shipOrder]) inst shipOrder := by
    unfold Runs
    rw [hkey.1, hkey.2]
    rfl
  rw [← hid]
  exact acyclic_workflows_end (.ofList [shipOrder]) (Service.uploaded_ofList (by decide +kernel))
    shipOrderCalls hjoins 1 inst hinst shipOrder
    (.of_rank (["end", "remind", "join", "review", "charge", "fork"].idxOf ·) (by decide)) hruns 0
    (fun m hm => by rw [hid]; exact hretries m hm) (by rw [hid]; exact shipOrder_attended)

end Rochallor
