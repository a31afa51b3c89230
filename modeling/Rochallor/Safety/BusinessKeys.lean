import Rochallor.Safety.Isolation

/-! # Business keys

    At most one instance in flight holds a business key of its definition.  The
    partial unique index promises this to the tables; the engine has to keep it
    by itself, or a statement that the index rejects would abort a transaction
    that has nothing to do with keys.

    Only two statements can break it, the insertion of an instance and the
    reactivation of a failed one, and both check the index.  All the others
    write the row of an instance that is in flight before the call, which keeps
    its key for as long as the call lasts.
-/

namespace Rochallor

variable {svc : Service} {db : Db}

/-- The dispatches of a plan are all for one instance: another one whose rows the
    plan has left alone is untouched by the call. -/
theorem untouched_settle (hwf : db.WF svc) {call : Call} {i : Nat} {p : Plan}
    {r : Db × Option EngineError} (hp : plan svc call.now db call.op = .ok p)
    (hsettle : p.settle svc call.now call.fuel = .ok r) (htables : Untouched i db p.tables)
    (hne : ∀ d tx steps, p.agenda = some (d, tx, steps) → tx.inst.id ≠ i) : Untouched i db r.1 := by
  have hest := (wf_invariant svc).opening call.fuel trivial hwf trivial (plan_opened hp)
  have hinv : TxInvariant svc (fun db => db.WF svc) (fun d tx _ => TxWF svc d tx)
      (fun _ _ => False) (fun _ => True) (fun db' => Untouched i db db')
      (fun _ tx _ => Untouched i db tx.db ∧ tx.inst.id ≠ i) := by
    refine ⟨fun _ _ _ hfalse _ => hfalse.elim, ?_, fun _ hJ => hJ.1, fun hI => ?_⟩
    · intro now d tx step pending tx' next hwf hJ _ hfind hdisp
      obtain ⟨f, hv⟩ := hdisp.instance_view
      have hid : tx'.inst.id = tx.inst.id := congrArg InstanceKey.id hv.inst_key
      exact ⟨hJ.1.trans (hdisp.untouched hwf hfind hJ.2), hid ▸ hJ.2⟩
    · exact hI.trans (.frame rfl rfl rfl)
  have hboth : p.Establishes (fun db' => db'.WF svc ∧ Untouched i db db')
      (fun d tx _ => TxWF svc d tx ∧ Untouched i db tx.db ∧ tx.inst.id ≠ i) := by
    cases p with
    | commit db' reply => exact ⟨hest, htables⟩
    | dispatch d tx steps => exact ⟨hest, htables, hne d tx steps rfl⟩
    | chain d tx steps source => exact ⟨hest, htables, hne d tx steps rfl⟩
  exact (((wf_invariant svc).and hinv).settle hboth (fun _ _ => trivial) hsettle).2

/-- The rows of the instances a call does not act on are untouched by it. -/
theorem untouched_apply (hwf : db.WF svc) (call : Call) {i : Nat}
    (hi : call.op.subject db ≠ some i) : Untouched i db (apply svc db call) := by
  cases ht : transact svc db call with
  | error e =>
    have hsame : apply svc db call = db := by
      unfold apply perform
      rw [ht]
    rw [hsame]
    exact .refl i db
  | ok r =>
    obtain ⟨p, hp, hsettle⟩ := bind_eq_ok ht
    have hopened := plan_opened hp
    rw [apply_of_plan hp hsettle]
    refine untouched_settle hwf hp hsettle (hopened.untouched hwf hi) ?_
    intro d tx steps hagenda heq
    exact hi (heq ▸ hopened.subject_agenda hagenda)

/-! ## Who writes the row of an instance -/

/-- What a call that writes to an instance has found or checked. -/
inductive Reserved (db : Db) (i : Nat) (p : Plan) : Prop
  /-- The call commits the instances it has found. -/
  | idle (tables : Db) (reply : Option EngineError) (hp : p = .commit tables reply)
      (h : tables.instances = db.instances)
  /-- The instance is in flight. -/
  | flying (r : WorkflowInstance) (hr : r ∈ db.instances) (hid : r.id = i)
      (hflight : r.status.inFlight = true)
  /-- Its key is free. -/
  | free (r : WorkflowInstance) (hr : r ∈ p.tables.instances) (hid : r.id = i)
      (hfree : db.businessKeyTaken i r.definitionID r.businessKey = false)

/-- `startInTx` has checked the index. -/
theorem startInTx_free {d : WorkflowDefinition} {vars : Json} {businessKey : String} {tx : Tx}
    {next : List StepId} (h : startInTx db d vars businessKey = .ok (tx, next)) :
    tx.inst ∈ tx.db.instances ∧ tx.inst.id = db.nextId ∧
      db.businessKeyTaken db.nextId tx.inst.definitionID tx.inst.businessKey = false := by
  unfold startInTx at h
  generalize (if businessKey.isEmpty then none else some businessKey) = key at h
  obtain ⟨db', hdb, h⟩ := bind_eq_ok h
  cases h
  unfold Db.insertInstance at hdb
  split at hdb
  · cases hdb
  · rename_i hfree
    cases hdb
    refine ⟨List.mem_append_right _ (List.mem_singleton_self _), rfl, ?_⟩
    simpa [Db.newInstance, InstanceStatus.inFlight] using hfree

/-- `retryFailedStep` has checked the index. -/
theorem retryFailedStep_free {instanceID : Nat} {stepID : StepId} {patch : GoMap Value} {p : Plan}
    (h : retryFailedStep svc db instanceID stepID patch = .ok p) :
    ∃ inst, db.getInstance instanceID = some inst ∧
      db.businessKeyTaken instanceID inst.definitionID inst.businessKey = false := by
  unfold retryFailedStep at h
  simp only at h
  split at h
  · cases h
  obtain ⟨peeked, hpeeked, h⟩ := bind_eq_ok h
  obtain ⟨d, -, h⟩ := bind_eq_ok h
  obtain ⟨step, -, h⟩ := bind_eq_ok h
  obtain ⟨inst, hinst, h⟩ := bind_eq_ok h
  split at h
  · cases h
  obtain ⟨latest, -, h⟩ := bind_eq_ok h
  split at h
  · cases h
  obtain ⟨db', hdb, h⟩ := bind_eq_ok h
  have hread := orError_eq_ok hinst
  unfold Db.reactivateInstance at hdb
  split at hdb
  · cases hdb
  · rename_i hfree
    rw [getInstance_id hread] at hfree
    exact ⟨inst, hread, by simpa using hfree⟩

theorem plan_reserved {now : Time} {op : Op} {p : Plan} (h : plan svc now db op = .ok p) {i : Nat}
    (hi : op.subject db = some i) : Reserved db i p := by
  -- the subject of a job operation is the instance of the callback
  have hjob : ∀ {jobID job se inst}, Callback db jobID job se inst →
      (db.getJob jobID).map (·.instanceID) = some i → inst.status.inFlight = true →
        Reserved db i p := by
    intro jobID job se inst hcb hsubject hflight
    rw [hcb.job_eq, Option.map_some, ← getInstance_id hcb.inst_eq] at hsubject
    exact .flying inst (getInstance_mem hcb.inst_eq) (Option.some.inj hsubject) hflight
  have hown : ∀ {inst : WorkflowInstance}, db.getInstance inst.id = some inst →
      some inst.id = some i → inst.status.inFlight = true → Reserved db i p := by
    intro inst hinst hsubject hflight
    exact .flying inst (getInstance_mem hinst) (Option.some.inj hsubject) hflight
  cases plan_opened h with
  | ignored op hrefused => exact .idle _ _ rfl rfl
  | started definitionID version vars businessKey d json key hd hsteps =>
    have hplan : start svc now db definitionID version vars businessKey = _ := h
    unfold start at hplan
    obtain ⟨⟨d', json'⟩, -, hplan⟩ := bind_eq_ok hplan
    obtain ⟨⟨tx, next⟩, htx, hplan⟩ := bind_eq_ok hplan
    cases hplan
    obtain ⟨hmem, hid, hfree⟩ := startInTx_free htx
    obtain rfl := Option.some.inj hi
    exact .free _ hmem hid hfree
  | chainStarted source d json key hd hsteps hclaim request hrequest hjson hkey =>
    have hplan : startChainedWorkflow svc now db source = _ := h
    unfold startChainedWorkflow at hplan
    obtain ⟨request', -, hplan⟩ := bind_eq_ok hplan
    obtain ⟨vars, -, hplan⟩ := bind_eq_ok hplan
    obtain ⟨⟨d', json'⟩, -, hplan⟩ := bind_eq_ok hplan
    simp only at hplan
    split at hplan
    · cases hplan
    obtain ⟨⟨tx, next⟩, htx, hplan⟩ := bind_eq_ok hplan
    cases hplan
    obtain ⟨hmem, hid, hfree⟩ := startInTx_free htx
    obtain rfl := Option.some.inj hi
    exact .free _ hmem hid hfree
  | outputsRejected jobID workerID vars job se inst violations hcb hacc =>
    exact hjob hcb hi (alive_of_acceptsCallback hacc).1.1
  | jobCompleted jobID workerID vars job se inst d step g hcb hacc =>
    exact hjob hcb hi (alive_of_acceptsCallback hacc).1.1
  | jobAdvanced jobID workerID vars job se inst d step g json tx next hcb hacc =>
    exact hjob hcb hi (alive_of_acceptsCallback hacc).1.1
  | jobRetried jobID workerID errorMessage job se inst hcb hacc hretries =>
    exact hjob hcb hi (alive_of_acceptsCallback hacc).1.1
  | jobFailed jobID workerID errorMessage retryable job se inst hcb hacc =>
    exact hjob hcb hi (alive_of_acceptsCallback hacc).1.1
  | jobReplaced op jobID job se inst hop hcb halive hlocked =>
    rcases hop with rfl | ⟨rfl, -⟩ <;> exact hjob hcb hi halive.1
  | leaseExtended later jobID workerID seconds lease job se inst hcb halive =>
    exact hjob hcb hi halive.1
  | polled workerID jobTypes max seconds lease rowLocked => cases hi
  | userTaskCompleted stepID vars inst d step result merged g tx next hinst hflight =>
    exact hown hinst hi hflight
  | waitSignalled stepID vars inst d step merged g tx next hinst hflight =>
    exact hown hinst hi hflight
  | timerConsumed eventID inst event hinst hevent hdead =>
    exact .idle _ _ rfl rfl
  | timerInterrupts eventID inst event se d hinst hevent hinterrupting hse halive hd =>
    exact hown hinst hi halive.1
  | timerForks eventID inst event se d hinst hevent hinterrupting hse halive hd =>
    exact hown hinst hi halive.1
  | housekept retention => cases hi
  | cancelled inst reason hinst hflight => exact hown hinst hi hflight
  | stepRetried inst stepID patch d g json hinst hfailed hlatest hd =>
    obtain ⟨inst', hinst', hfree⟩ := retryFailedStep_free h
    obtain rfl : inst = inst' := by
      rw [hinst] at hinst'
      exact Option.some.inj hinst'
    obtain rfl := Option.some.inj hi
    -- the reactivated row has the key it had
    refine .free { inst with status := .active, failureReason := none, completedAt := none,
                             vars := g inst.vars } ?_ rfl hfree
    have hactive : { inst with status := .active, failureReason := none, completedAt := none } ∈
        (db.reactivated inst.id).instances :=
      Table.mem_update.mpr ⟨inst, getInstance_mem hinst, by simp⟩
    exact Table.mem_update.mpr ⟨_, hactive, by simp⟩

/-! ## Uniqueness -/

/-- No two instances in flight share a definition and a business key. -/
def KeysUnique (db : Db) : Prop :=
  ∀ r ∈ db.instances, ∀ r' ∈ db.instances, r.status.inFlight = true →
    r'.status.inFlight = true → r.definitionID = r'.definitionID →
    r.businessKey = r'.businessKey → r.businessKey ≠ none → r = r'

theorem businessKeyTaken_eq_false {self : Nat} {definitionID : String} {key : Option String}
    (h : db.businessKeyTaken self definitionID key = false) (hkey : key ≠ none)
    {r : WorkflowInstance} (hr : r ∈ db.instances) (hid : r.id ≠ self)
    (hdef : r.definitionID = definitionID) (hbk : r.businessKey = key)
    (hflight : r.status.inFlight = true) : False := by
  unfold Db.businessKeyTaken at h
  rw [Option.isSome_iff_ne_none.mpr hkey, Bool.true_and, List.any_eq_false] at h
  exact h r hr (by simp [hid, hdef, hbk, hflight])

/-- An instance in flight that a call has written shares its key with no other. -/
theorem subject_unique (hwf : db.WF svc) (hkeys : KeysUnique db) {call : Call} {i : Nat}
    (hi : call.op.subject db = some i) {r r' : WorkflowInstance}
    (hr : r ∈ (apply svc db call).instances) (hr' : r' ∈ db.instances) (hid : r.id = i)
    (hid' : r'.id ≠ i) (hflight : r.status.inFlight = true) (hflight' : r'.status.inFlight = true)
    (hdef : r.definitionID = r'.definitionID) (hbk : r.businessKey = r'.businessKey) :
    r.businessKey = none := by
  by_contra hsome
  have hwf' := wf_apply hwf call
  -- a row of the subject keeps its key to the end of the call
  have hlater : ∀ {tables : Db} {row : WorkflowInstance}, tables.Evolves (apply svc db call) →
      row ∈ tables.instances → row.id = i → row.key = r.key := by
    intro tables row hev hrow hrowid
    obtain ⟨row', hrow', hkey⟩ := hev.instances.mem hrow
    have hsame : row'.id = r.id := (congrArg InstanceKey.id hkey).trans (hrowid.trans hid.symm)
    rw [← hwf'.instance_eq hrow' hr hsame]
    exact hkey.symm
  cases ht : transact svc db call with
  | error e =>
    have hsame : apply svc db call = db := by
      unfold apply perform
      rw [ht]
    rw [hsame] at hr
    exact hid' (hkeys r hr r' hr' hflight hflight' hdef hbk hsome ▸ hid)
  | ok res =>
    obtain ⟨p, hp, hsettle⟩ := bind_eq_ok ht
    have happly := apply_of_plan hp hsettle
    cases plan_reserved hp hi with
    | idle tables reply hcommit htables =>
      subst hcommit
      cases hsettle
      rw [happly, htables] at hr
      exact hid' (hkeys r hr r' hr' hflight hflight' hdef hbk hsome ▸ hid)
    | flying row hrow hrowid hrowflight =>
      have hkey := hlater (evolves_apply hwf call) hrow hrowid
      have hkdef : row.definitionID = r.definitionID := congrArg InstanceKey.definitionID hkey
      have hkbk : row.businessKey = r.businessKey := congrArg InstanceKey.businessKey hkey
      have heq := hkeys row hrow r' hr' hrowflight hflight' (hkdef.trans hdef) (hkbk.trans hbk)
        (hkbk ▸ hsome)
      exact hid' (heq ▸ hrowid)
    | free row hrow hrowid hfree =>
      have hev := evolves_settle hwf hp hsettle
      rw [← happly] at hev
      have hkey := hlater hev hrow hrowid
      have hkdef : row.definitionID = r.definitionID := congrArg InstanceKey.definitionID hkey
      have hkbk : row.businessKey = r.businessKey := congrArg InstanceKey.businessKey hkey
      rw [hkdef, hkbk] at hfree
      exact businessKeyTaken_eq_false hfree hsome hr' hid' hdef.symm hbk.symm hflight'

theorem keysUnique_apply (hwf : db.WF svc) (hkeys : KeysUnique db) (call : Call) :
    KeysUnique (apply svc db call) := by
  intro r hr r' hr' hflight hflight' hdef hbk hsome
  have hwf' := wf_apply hwf call
  by_cases hi : call.op.subject db = some r.id
  · by_cases heq : r'.id = r.id
    · exact hwf'.instance_eq hr hr' heq.symm
    · have hold : r' ∈ db.instances := by
        refine ((untouched_apply hwf call ?_).mem_instance rfl).mp hr'
        rw [hi]
        exact fun h => heq (Option.some.inj h).symm
      exact absurd (subject_unique hwf hkeys hi hr hold rfl heq hflight hflight' hdef hbk) hsome
  · have hold : r ∈ db.instances := ((untouched_apply hwf call hi).mem_instance rfl).mp hr
    by_cases hi' : call.op.subject db = some r'.id
    · have hne : r.id ≠ r'.id := fun heq => hi (heq ▸ hi')
      have hnone := subject_unique hwf hkeys hi' hr' hold rfl hne hflight' hflight hdef.symm hbk.symm
      exact absurd (hbk.trans hnone) hsome
    · have hold' : r' ∈ db.instances := ((untouched_apply hwf call hi').mem_instance rfl).mp hr'
      exact hkeys r hold r' hold' hflight hflight' hdef hbk hsome

/-- In every reachable state at most one instance in flight holds a business
    key of its definition. -/
theorem business_keys_unique (svc : Service) (calls : List Call) : KeysUnique (run svc calls) := by
  have hrule : (run svc calls).WF svc ∧ KeysUnique (run svc calls) :=
    Run.invariant (I := fun db => db.WF svc ∧ KeysUnique db) (G := fun _ _ => True)
      (fun _ call hI _ => ⟨wf_apply hI.1 call, keysUnique_apply hI.1 hI.2 call⟩)
      ⟨wf_empty svc, fun _ hr => absurd hr List.not_mem_nil⟩ (Run.guarded_true _ _)
  exact hrule.2

end Rochallor
