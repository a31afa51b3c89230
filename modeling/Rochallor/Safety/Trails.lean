import Rochallor.Safety.Queue
import Rochallor.Safety.Workload

/-! # Trails

    Every execution of an instance has come from somewhere: it is of the first
    step, or there is an earlier execution of the same step, or of a step that
    leads to it.  What waits to be dispatched and what the timers aim at has
    come from somewhere as well, and that is the invariant.
-/

namespace Rochallor

/-! ## Predecessors -/

/-- The keys of the step executions. -/
def Db.stepKeys (db : Db) : List StepKey :=
  db.stepExecutions.map (·.key)

/-- The step is where the instance starts, or follows an execution with a
    smaller id. -/
def ComesFrom (d : WorkflowDefinition) (i : Nat) (keys : List StepKey) (before : Nat)
    (stepID : StepId) : Prop :=
  stepID = (d.steps.map (·.id)).headD "" ∨
    ∃ k ∈ keys, k.instanceID = i ∧ k.id < before ∧ (k.stepID = stepID ∨ stepID ∈ d.leads k.stepID)

/-- Everything about the instance has come from somewhere. -/
structure Trail (d : WorkflowDefinition) (i : Nat) (db : Db) : Prop where
  steps : ∀ k ∈ db.stepKeys, k.instanceID = i → ComesFrom d i db.stepKeys k.id k.stepID
  timers : ∀ r ∈ db.boundaryEvents, r.instanceID = i →
    ∃ k ∈ db.stepKeys, k.instanceID = i ∧ r.targetStepID ∈ d.leads k.stepID

section Steps

variable {svc : Service} {now : Time} {d : WorkflowDefinition} {i : Nat} {db : Db}

theorem ComesFrom.mono {keys keys' : List StepKey} {n m : Nat} {stepID : StepId}
    (h : ComesFrom d i keys n stepID) (hkeys : keys ⊆ keys') (hle : n ≤ m) :
    ComesFrom d i keys' m stepID := by
  rcases h with hfirst | ⟨k, hk, hinst, hlt, hstep⟩
  · exact .inl hfirst
  · exact .inr ⟨k, hkeys hk, hinst, Nat.lt_of_lt_of_le hlt hle, hstep⟩

/-- What an execution leads to follows it. -/
theorem ComesFrom.after {se : StepExecution} (hwf : db.WF svc) (hse : se ∈ db.stepExecutions)
    (hinst : se.instanceID = i) {stepID : StepId} (hlead : stepID ∈ d.leads se.stepID) :
    ComesFrom d i db.stepKeys db.nextId stepID :=
  .inr ⟨se.key, List.mem_map_of_mem hse, hinst, hwf.step_lt se hse, .inr hlead⟩

theorem leads_of_onward {step : WorkflowStep} {stepID t : StepId} (hfind : findStep d stepID = some step)
    (ht : t ∈ step.onward) : t ∈ d.leads stepID := by
  rw [WorkflowDefinition.leads, hfind]
  exact List.mem_append_left _ ht

theorem leads_of_timer {step : WorkflowStep} {stepID : StepId} (hfind : findStep d stepID = some step)
    {be : BoundaryEvent} (hbe : be ∈ step.timers) : be.targetStepId ∈ d.leads stepID := by
  rw [WorkflowDefinition.leads, hfind]
  exact List.mem_append_right _ (List.mem_map_of_mem hbe)

end Steps

/-! ## Openings -/

section Openings

variable {svc : Service} {now : Time} {d : WorkflowDefinition} {i : Nat} {db : Db} {op : Op} {p : Plan}

theorem Opened.stepKeys (h : Opened svc now db op p) (hwf : db.WF svc) :
    p.tables.stepKeys = db.stepKeys := by
  obtain ⟨f, hrows, hkey, -⟩ := h.rewritten hwf
  unfold Db.stepKeys
  rw [hrows, List.map_map]
  exact List.map_congr_left fun r _ => (hkey r).1

/-- Before its dispatches an operation adds neither executions nor timers. -/
theorem Opened.trail (h : Opened svc now db op p) (hwf : db.WF svc) (ht : Trail d i db) :
    Trail d i p.tables := by
  have hkeys := h.stepKeys hwf
  refine ⟨fun k hk hinst => hkeys ▸ ht.steps k (hkeys ▸ hk) hinst, fun r hr hinst => ?_⟩
  rw [hkeys]
  cases h.timers with
  | same op hrows hidle => exact ht.timers r (hrows ▸ hr) hinst
  | claimed eventID inst event hinst' hevent hfate hrows =>
    rw [hrows] at hr
    obtain ⟨r₀, hr₀, rfl⟩ := Table.mem_update.mp hr
    split at hinst
    · simpa [*] using ht.timers r₀ hr₀ (by simpa [*] using hinst)
    · simpa [*] using ht.timers r₀ hr₀ hinst
  | swept retention hrows =>
    rw [hrows] at hr
    exact ht.timers r (List.mem_of_mem_filter hr) hinst

/-- What a completed step goes on to follows its execution. -/
theorem Advanced.comes_from {tx tx' : Tx} {step : WorkflowStep} {next : List StepId}
    (h : Advanced now d tx step tx' next) (hext : step.type.external = true) (hwf : db.WF svc)
    {se : StepExecution} (hse : se ∈ db.stepExecutions) (hinst : se.instanceID = i)
    (hfind : findStep d se.stepID = some step) :
    ∀ t ∈ next, ComesFrom d i db.stepKeys db.nextId t :=
  fun t ht => .after hwf hse hinst (leads_of_onward hfind ((h.onward hext).2 t ht))

/-- The target of a due timer follows an execution. -/
theorem Trail.due (h : Trail d i db) (hwf : db.WF svc) {eventID instanceID : Nat}
    {e : BoundaryEventSchedule} (he : db.boundaryEvents.find? (Db.dueEvent now eventID instanceID) = some e)
    (hi : instanceID = i) : ComesFrom d i db.stepKeys db.nextId e.targetStepID := by
  have hdue := List.find?_some he
  simp only [Db.dueEvent, Bool.and_eq_true, decide_eq_true_eq] at hdue
  obtain ⟨k, hk, hinst, hlead⟩ := h.timers e (List.mem_of_find?_eq_some he) (by simp_all)
  obtain ⟨se, hse, rfl⟩ := List.mem_map.mp hk
  exact .after hwf hse hinst hlead

/-- What an operation goes on to has come from somewhere. -/
theorem Opened.comes_from (h : Opened svc now db op p) (hwf : db.WF svc) (hdel : Delivery db)
    (ht : Trail d i db) {tx : Tx} {steps : List StepId} (hp : p.agenda = some (d, tx, steps))
    (hi : tx.inst.id = i) : ∀ t ∈ steps, ComesFrom d i db.stepKeys db.nextId t := by
  cases h with
  | started definitionID version vars businessKey d json key hd hsteps =>
    cases hp
    exact fun t ht => .inl (List.mem_singleton.mp ht)
  | chainStarted source d json key hd hsteps hclaim =>
    cases hp
    exact fun t ht => .inl (List.mem_singleton.mp ht)
  | stepRetried inst stepID patch d g json hinst hfailed hlatest hd =>
    cases hp
    -- the step has been executed before
    rw [latestStatus_eq] at hlatest
    cases hlast : db.latestAttempt inst.id stepID with
    | none =>
      rw [hlast] at hlatest
      cases hlatest
    | some se =>
      obtain ⟨hse, hown, hstep⟩ := mem_attempts.mp (Table.latest_mem hlast)
      intro t ht
      rw [List.mem_singleton.mp ht]
      exact .inr ⟨se.key, List.mem_map_of_mem hse, hown.trans hi, hwf.step_lt se hse, .inl hstep⟩
  | jobAdvanced jobID workerID vars job se inst d step g json tx next hcb hacc hd hfind hadv =>
    cases hp
    have hid : inst.id = i := by
      rw [← hi]
      cases hadv <;> rfl
    have hext : step.type.external = true := by
      simp [hcb.step_type hwf hd hfind, StepType.external]
    exact hadv.comes_from hext hwf (getStepExecution_mem hcb.se_eq) ((hcb.service hwf).2.trans hid) hfind
  | userTaskCompleted stepID vars inst d step result merged g tx next hinst hflight hd hfind
      htype hrows hadv =>
    cases hp
    have hid : inst.id = i := by
      rw [← hi]
      cases hadv <;> rfl
    obtain ⟨u, hu, hopen⟩ := List.countP_pos_iff.mp (Nat.pos_of_ne_zero hrows)
    obtain ⟨se, hse, hrun⟩ := running_of_open hwf hdel hu hopen
    simp only [Db.runningAt, Bool.and_eq_true, decide_eq_true_eq] at hrun
    exact hadv.comes_from (by simp [htype, StepType.external]) hwf hse (hrun.1.1.trans hid)
      (hrun.1.2 ▸ hfind)
  | waitSignalled stepID vars inst d step merged g tx next hinst hflight hd hfind htype hrows hadv =>
    cases hp
    have hid : inst.id = i := by
      rw [← hi]
      cases hadv <;> rfl
    obtain ⟨se, hse, hrun⟩ := List.countP_pos_iff.mp (Nat.pos_of_ne_zero hrows)
    simp only [Db.runningAt, Bool.and_eq_true, decide_eq_true_eq] at hrun
    exact hadv.comes_from (by simp [htype, StepType.external]) hwf hse (hrun.1.1.trans hid)
      (hrun.1.2 ▸ hfind)
  | timerInterrupts eventID inst event se d hinst hevent hinterrupting hse halive hd =>
    cases hp
    intro t hmem
    rw [List.mem_singleton.mp hmem]
    exact ht.due hwf hevent hi
  | timerForks eventID inst event se d hinst hevent hinterrupting hse halive hd =>
    cases hp
    intro t hmem
    rw [List.mem_singleton.mp hmem]
    exact ht.due hwf hevent hi
  | _ => cases hp

end Openings

/-! ## Dispatches -/

section Dispatches

variable {svc : Service} {now : Time} {d : WorkflowDefinition} {i : Nat} {tx tx' : Tx}
  {step : WorkflowStep} {next : List StepId}

theorem Dispatched.stepKeys (h : Dispatched svc now d tx step tx' next) (hwf : TxWF svc d tx)
    (hfind : findStep d step.id = some step) : tx'.db.stepKeys =
      tx.db.stepKeys ++ [⟨tx.db.nextId, tx.inst.id, step.id, step.type⟩] := by
  obtain ⟨row, hrows, hkey, -⟩ := h.rows hwf hfind
  unfold Db.stepKeys
  rw [hrows, List.map_append, List.map_singleton, hkey]

/-- The new execution, its timers and what it goes on to have come from
    somewhere. -/
theorem Dispatched.trail (h : Dispatched svc now d tx step tx' next) (hwf : TxWF svc d tx)
    (hfind : findStep d step.id = some step) (ht : Trail d i tx.db)
    (hi : tx.inst.id = i) (hfrom : ComesFrom d i tx.db.stepKeys tx.db.nextId step.id) :
    Trail d i tx'.db ∧ ∀ t ∈ next, ComesFrom d i tx'.db.stepKeys tx'.db.nextId t := by
  have hkeys := h.stepKeys hwf hfind
  have hsub : tx.db.stepKeys ⊆ tx'.db.stepKeys := hkeys ▸ List.subset_append_left ..
  have hnew : ⟨tx.db.nextId, tx.inst.id, step.id, step.type⟩ ∈ tx'.db.stepKeys :=
    hkeys ▸ List.mem_append_right _ (List.mem_singleton_self _)
  have hlt : tx.db.nextId < tx'.db.nextId := by
    rcases h.timer_view with ⟨-, -, hn⟩ | ⟨-, rows, start, -, -, -, -, hstart, hn⟩
    · omega
    · omega
  refine ⟨⟨fun k hk hinst => ?_, fun r hr hinst => ?_⟩, fun t hnext => ?_⟩
  · rw [hkeys] at hk
    rcases List.mem_append.mp hk with hk | hk
    · exact (ht.steps k hk hinst).mono hsub (Nat.le_refl _)
    · obtain rfl := List.mem_singleton.mp hk
      exact hfrom.mono hsub (Nat.le_refl _)
  · have hold : r ∈ tx.db.boundaryEvents →
        ∃ k ∈ tx'.db.stepKeys, k.instanceID = i ∧ r.targetStepID ∈ d.leads k.stepID := by
      intro hmem
      obtain ⟨k, hk, hrest⟩ := ht.timers r hmem hinst
      exact ⟨k, hsub hk, hrest⟩
    rcases h.timer_view with ⟨-, htimers, -⟩ | ⟨-, rows, start, htimers, hset, -⟩
    · exact hold (htimers ▸ hr)
    · rw [htimers] at hr
      rcases List.mem_append.mp hr with hr | hr
      · exact hold hr
      · obtain ⟨be, hbe, hrow⟩ := TimerRow.of_mem hset hr
        refine ⟨_, hnew, hi, ?_⟩
        rw [hrow.target_eq]
        exact leads_of_timer hfind hbe
  · have hauto : t ∈ step.automaticTargets := h.automatic.subset hnext
    have hext : step.type.external = false := by
      cases hext : step.type.external with
      | false => rfl
      | true =>
        rw [h.parked_next hext] at hnext
        cases hnext
    have honward : t ∈ step.onward := by simpa [WorkflowStep.onward, hext] using hauto
    exact .inr ⟨_, hnew, hi, hlt, .inr (leads_of_onward hfind honward)⟩

/-- A dispatch for another instance. -/
theorem Dispatched.trail_other (h : Dispatched svc now d tx step tx' next) (hwf : TxWF svc d tx)
    (hfind : findStep d step.id = some step) {d' : WorkflowDefinition} (ht : Trail d' i tx.db)
    (hi : tx.inst.id ≠ i) : Trail d' i tx'.db := by
  have hkeys := h.stepKeys hwf hfind
  have hsub : tx.db.stepKeys ⊆ tx'.db.stepKeys := hkeys ▸ List.subset_append_left ..
  refine ⟨fun k hk hinst => ?_, fun r hr hinst => ?_⟩
  · rw [hkeys] at hk
    rcases List.mem_append.mp hk with hk | hk
    · exact (ht.steps k hk hinst).mono hsub (Nat.le_refl _)
    · obtain rfl := List.mem_singleton.mp hk
      exact absurd hinst hi
  · have hold : r ∈ tx.db.boundaryEvents := by
      rcases h.timer_view with ⟨-, htimers, -⟩ | ⟨-, rows, start, htimers, hset, -⟩
      · exact htimers ▸ hr
      · rw [htimers] at hr
        rcases List.mem_append.mp hr with hr | hr
        · exact hr
        · obtain ⟨be, -, hrow⟩ := TimerRow.of_mem hset hr
          exact absurd (hrow.instanceID_eq.symm.trans hinst) hi
    obtain ⟨k, hk, hrest⟩ := ht.timers r hold hinst
    exact ⟨k, hsub hk, hrest⟩

end Dispatches

/-! ## Runs -/

section Runs

variable {svc : Service} {d : WorkflowDefinition} {i : Nat}

theorem trail_invariant (svc : Service) (d : WorkflowDefinition) (i : Nat) :
    TxInvariant svc (fun db => db.WF svc ∧ Delivery db) (fun d tx _ => TxWF svc d tx ∧ Delivery tx.db)
      (fun _ _ => True) (fun _ => True) (fun db => Owns svc d i db → Trail d i db)
      (fun _ tx pending => Owns svc d i tx.db → Trail d i tx.db ∧
        (tx.inst.id = i → ∀ t ∈ pending, ComesFrom d i tx.db.stepKeys tx.db.nextId t)) where
  opening := by
    intro db op now p fuel hI₀ hI _ hop
    have hev : db.Evolves p.tables := hop.evolves hI₀.1
    have htrail : Owns svc d i p.tables → Trail d i p.tables :=
      fun howns => hop.trail hI₀.1 (hI (howns.earlier hev))
    have hwf := (wf_invariant svc).opening fuel trivial hI₀.1 trivial hop
    -- what a plan goes on to for the instance
    have hnext : ∀ {d' : WorkflowDefinition} {tx : Tx} {steps : List StepId},
        p.agenda = some (d', tx, steps) → p.tables = tx.db → TxWF svc d' tx → Owns svc d i tx.db →
        tx.inst.id = i → ∀ t ∈ steps, ComesFrom d i tx.db.stepKeys tx.db.nextId t := by
      intro d' tx steps hp htables htx howns hi t ht
      obtain rfl := howns.definition htx hi
      have hbefore : Owns svc d' i db := howns.earlier (htables ▸ hev)
      have hfrom := hop.comes_from hI₀.1 hI₀.2 (hI hbefore) hp hi t ht
      rw [← htables, hop.stepKeys hI₀.1]
      exact hfrom.mono (List.Subset.refl _) hop.statuses.nextId_le
    cases p with
    | commit db' reply => exact htrail
    | dispatch d' tx steps => exact fun howns => ⟨htrail howns, hnext rfl rfl hwf howns⟩
    | chain d' tx steps source => exact fun howns => ⟨htrail howns, hnext rfl rfl hwf howns⟩
  step := by
    intro now d' tx step pending tx' next hJ₀ hJ _ hfind hdisp howns
    have hbefore : Owns svc d i tx.db := howns.earlier (hdisp.evolves hJ₀.1 hfind)
    obtain ⟨htrail, hpending⟩ := hJ hbefore
    have hsame : tx'.inst.id = tx.inst.id := by
      obtain ⟨f, hv⟩ := hdisp.instance_view
      exact congrArg InstanceKey.id hv.inst_key
    rw [hsame]
    by_cases hi : tx.inst.id = i
    · obtain rfl := hbefore.definition hJ₀.1 hi
      obtain ⟨htrail', hnext⟩ := hdisp.trail hJ₀.1 hfind htrail hi
        (hpending hi step.id (List.mem_cons_self ..))
      refine ⟨htrail', fun _ t ht => ?_⟩
      rcases List.mem_append.mp ht with ht | ht
      · exact hnext t ht
      · refine (hpending hi t (List.mem_cons_of_mem _ ht)).mono ?_ hdisp.nextId_le
        rw [hdisp.stepKeys hJ₀.1 hfind]
        exact List.subset_append_left ..
    · exact ⟨hdisp.trail_other hJ₀.1 hfind htrail hi, fun h => absurd h hi⟩
  closing := fun _ hJ howns => (hJ howns).1
  acknowledge := fun hI howns => ⟨(hI howns).steps, (hI howns).timers⟩

theorem trail_run (calls : List Call) (howns : Owns svc d i (run svc calls)) :
    Trail d i (run svc calls) := by
  have hempty : Trail d i {} := ⟨fun k hk => (List.not_mem_nil hk).elim, fun r hr => (List.not_mem_nil hr).elim⟩
  have hrule := ((wf_invariant svc).and (delivery_invariant svc)).and (trail_invariant svc d i)
  exact (hrule.run ⟨⟨wf_empty svc, delivery_empty⟩, fun _ => hempty⟩
    ((Run.guarded_true _ calls).mono fun _ _ _ => ⟨trivial, fun _ _ => trivial⟩)).2 howns

/-- Whatever has been executed can be reached from the first step through steps
    that have been executed. -/
theorem Trail.reaches {db : Db} (h : Trail d i db) {k : StepKey} (hk : k ∈ db.stepKeys)
    (hinst : k.instanceID = i) :
    Relation.ReflTransGen (fun a b => b ∈ d.leads a ∧ ∃ k ∈ db.stepKeys, k.instanceID = i ∧
      k.stepID = b) ((d.steps.map (·.id)).headD "") k.stepID := by
  -- by induction on the id of the execution
  induction hn : k.id using Nat.strong_induction_on generalizing k with
  | _ n ih =>
    rcases h.steps k hk hinst with hfirst | ⟨k₀, hk₀, hinst₀, hlt, hsame | hlead⟩
    · rw [hfirst]
    · rw [← hsame]
      exact ih k₀.id (hn ▸ hlt) hk₀ hinst₀ rfl
    · exact (ih k₀.id (hn ▸ hlt) hk₀ hinst₀ rfl).tail ⟨hlead, k, hk, hinst, rfl⟩

end Runs

end Rochallor
