import Rochallor.Safety.Timers
import Rochallor.Data.MapOrder
import Rochallor.Definition.Validator
import Rochallor.Definition.RoundTrip

/-! # References resolve

    Every step id the engine dispatches is a step of the definition, and every
    join it dispatches has a gateway that names it.  `Validate` checks the
    references a step's type calls for; the engine follows any reference the
    step carries.  The two differ in two places: `conditionalNextSteps` on a
    service task, a user task or a wait step, and a join no gateway names.
-/

namespace Rochallor

/-- The id is that of a step of the definition. -/
def WorkflowDefinition.Has (d : WorkflowDefinition) (id : StepId) : Prop :=
  (findStep d id).isSome = true

instance (d : WorkflowDefinition) (id : StepId) : Decidable (d.Has id) :=
  inferInstanceAs (Decidable (_ = true))

/-- Every expression of the step has a target.  `UnmarshalJSON` appends an
    expression only together with its target. -/
def WorkflowStep.Mapped (s : WorkflowStep) : Prop :=
  ∀ c ∈ s.conditionalNextSteps, ∀ e ∈ c.exprs, (c.targets.get e).isSome = true

instance (s : WorkflowStep) : Decidable s.Mapped :=
  inferInstanceAs (Decidable (∀ c ∈ s.conditionalNextSteps, ∀ e ∈ c.exprs, _ = true))

def WorkflowDefinition.Mapped (d : WorkflowDefinition) : Prop :=
  ∀ s ∈ d.steps, s.Mapped

instance (d : WorkflowDefinition) : Decidable d.Mapped :=
  inferInstanceAs (Decidable (∀ s ∈ d.steps, s.Mapped))

/-- What `Validate` does not look at: the conditional targets of steps other
    than `DECISION`, and whether a join has a gateway. -/
structure Resolves (d : WorkflowDefinition) : Prop where
  conditional : ∀ s ∈ d.steps, s.type.external = true → ∀ c ∈ s.conditionalNextSteps,
    ∀ e ∈ c.exprs, d.Has (c.target e)
  joins : ∀ s ∈ d.steps, s.type = .joinGateway → (findParallelGatewayFor d s.id).isSome = true

instance (d : WorkflowDefinition) : Decidable (Resolves d) :=
  decidable_of_iff ((∀ s ∈ d.steps, s.type.external = true → ∀ c ∈ s.conditionalNextSteps,
      ∀ e ∈ c.exprs, d.Has (c.target e)) ∧
    ∀ s ∈ d.steps, s.type = .joinGateway → (findParallelGatewayFor d s.id).isSome = true)
    ⟨fun h => ⟨h.1, h.2⟩, fun h => ⟨h.conditional, h.joins⟩⟩

/-! ## What is read has its targets -/

theorem decodeBranches_mapped {members : List (String × Json)} {c c' : ConditionalBranches}
    (hc : ∀ e ∈ c.exprs, (c.targets.get e).isSome = true)
    (h : decodeBranches c members = .ok c') : ∀ e ∈ c'.exprs, (c'.targets.get e).isSome = true := by
  induction members generalizing c with
  | nil =>
    cases h
    exact hc
  | cons m rest ih =>
    obtain ⟨key, j⟩ := m
    rw [decodeBranches] at h
    split at h
    · cases h
    · refine ih ?_ h
      intro e he
      rcases List.mem_append.mp he with he | he
      · rw [GoMap.get_set]
        split
        · rfl
        · exact hc e he
      · obtain rfl := List.mem_singleton.mp he
        rw [GoMap.get_set, if_pos rfl]
        rfl

theorem unmarshalJSON_mapped {old c : ConditionalBranches} {j : Json}
    (h : old.unmarshalJSON j = .ok c) : ∀ e ∈ c.exprs, (c.targets.get e).isSome = true := by
  unfold ConditionalBranches.unmarshalJSON at h
  split at h
  · exact decodeBranches_mapped (by simp) h
  · cases h

theorem decodeStep_mapped {strict : Bool} {s s' : WorkflowStep} {j : Json}
    (hs : s.Mapped)
    (h : decodeStruct strict (stepFields strict) "definition.WorkflowStep" s j = .ok s') :
    s'.Mapped := by
  refine decodeStruct_keeps (P := WorkflowStep.Mapped) ?_ hs h
  intro f hf s j s' hs hdecode
  simp only [stepFields, List.mem_cons, List.not_mem_nil, or_false] at hf
  rcases hf with rfl | rfl | rfl | rfl | rfl | rfl | rfl | rfl | rfl | rfl | rfl | rfl | rfl |
    rfl | rfl | rfl
  case inr.inr.inr.inr.inr.inr.inr.inl =>
    obtain ⟨v, hv, hdecode⟩ := bind_eq_ok hdecode
    cases hdecode
    unfold decodePointer at hv
    split at hv
    · cases hv
      simp [WorkflowStep.Mapped]
    · obtain ⟨c, hc, hv⟩ := bind_eq_ok hv
      cases hv
      simpa [WorkflowStep.Mapped] using unmarshalJSON_mapped hc
  all_goals
    obtain ⟨v, _, hdecode⟩ := bind_eq_ok hdecode
    cases hdecode
    exact hs

/-- Every definition read from JSON has its targets. -/
theorem decodeDefinition_mapped {strict : Bool} {j : Json} {d : WorkflowDefinition}
    (h : decodeDefinition strict j = .ok d) : d.Mapped := by
  refine decodeStruct_keeps (P := WorkflowDefinition.Mapped) ?_
    (by simp [WorkflowDefinition.Mapped, WorkflowDefinition.zero]) h
  intro f hf d j d' hd hdecode
  simp only [definitionFields, List.mem_cons, List.not_mem_nil, or_false] at hf
  rcases hf with rfl | rfl | rfl | rfl | rfl | rfl | rfl | rfl | rfl
  case inr.inr.inr.inr.inr.inr.inl =>
    obtain ⟨steps, hsteps, hdecode⟩ := bind_eq_ok hdecode
    cases hdecode
    exact decodeSlice_keeps (P := WorkflowStep.Mapped)
      (fun _ _ _ hs h => decodeStep_mapped hs h) (by simp [WorkflowStep.Mapped, WorkflowStep.zero])
      hd hsteps
  all_goals
    obtain ⟨v, _, hdecode⟩ := bind_eq_ok hdecode
    cases hdecode
    exact hd

/-! ## What acceptance checks -/

section Accepted

variable {d : WorkflowDefinition} {step : WorkflowStep}

theorem has_of_checkRef {stepID target : StepId} {field : String}
    (h : checkRef d stepID field target = []) : d.Has target := by
  unfold checkRef at h
  split at h
  · rename_i hsome
    unfold stepByID at hsome
    rw [List.find?_isSome] at hsome
    obtain ⟨s, hs, hid⟩ := hsome
    rw [Bool.and_eq_true, beq_iff_eq] at hid
    unfold WorkflowDefinition.Has findStep
    rw [List.find?_isSome]
    exact ⟨s, List.mem_reverse.mp hs, by simp [hid.1]⟩
  · cases h

theorem has_of_mem (hmem : step ∈ d.steps) : d.Has step.id := by
  unfold WorkflowDefinition.Has findStep
  rw [List.find?_isSome]
  exact ⟨step, hmem, by simp⟩

theorem has_of_requireNextStep {label : String} (h : requireNextStep d step label = []) :
    d.Has step.nextStep := by
  unfold requireNextStep at h
  split at h
  · cases h
  · exact has_of_checkRef h

/-- The next step of a step that passes at once. -/
theorem Accepted.next_of_pass (h : Accepted d) (hmem : step ∈ d.steps)
    (htype : step.type = .transformation ∨ step.type = .joinGateway ∨
      step.type = .decisionTable) : d.Has step.nextStep := by
  have hv := h.validateByType_eq_nil hmem
  rcases htype with ht | ht | ht
  · simp only [validateByType, ht, List.append_eq_nil_iff] at hv
    exact has_of_requireNextStep hv.1
  · simp only [validateByType, ht] at hv
    exact has_of_requireNextStep hv
  · simp only [validateByType, ht, validateDecisionTable] at hv
    split at hv
    · cases hv
    · simp only [List.append_eq_nil_iff] at hv
      have hnext := hv.1.1.1.1.1.1.1.1.1.2
      split at hnext
      · cases hnext
      · exact has_of_checkRef hnext

/-- The next step of a step that parks, if it has one. -/
theorem Accepted.next_of_external (h : Accepted d) (hmem : step ∈ d.steps)
    (htype : step.type.external = true) (hnext : step.nextStep ≠ "") : d.Has step.nextStep := by
  have hv := h.validateByType_eq_nil hmem
  have hne : step.nextStep.isEmpty = false := by simpa using hnext
  cases ht : step.type with
  | serviceTask =>
    simp only [validateByType, ht, hne, List.append_eq_nil_iff, Bool.false_eq_true, if_false] at hv
    exact has_of_checkRef hv.2
  | userTask =>
    simp only [validateByType, ht, hne, Bool.false_eq_true, if_false] at hv
    exact has_of_checkRef hv
  | wait =>
    simp only [validateByType, ht] at hv
    exact has_of_requireNextStep hv
  | _ => simp [ht, StepType.external] at htype

/-- The branches of a gateway. -/
theorem Accepted.branch (h : Accepted d) (hmem : step ∈ d.steps)
    (htype : step.type = .parallelGateway) {id : StepId} (hid : id ∈ step.parallelNextSteps) :
    d.Has id := by
  have hv := h.validateByType_eq_nil hmem
  simp only [validateByType, htype, List.append_eq_nil_iff] at hv
  exact has_of_checkRef (List.flatMap_eq_nil_iff.mp hv.2 id hid)

/-- The branches of a decision. -/
theorem Accepted.decision_target (h : Accepted d) (hmapped : d.Mapped) (hmem : step ∈ d.steps)
    (htype : step.type = .decision) {c : ConditionalBranches}
    (hc : step.conditionalNextSteps = some c) {e : String} (he : e ∈ c.exprs) :
    d.Has (c.target e) := by
  have hv := h.validateByType_eq_nil hmem
  simp only [validateByType, htype, List.append_eq_nil_iff, hc] at hv
  have hsome := hmapped step hmem c hc e he
  obtain ⟨t, ht⟩ := Option.isSome_iff_exists.mp hsome
  have htarget : c.target e = t := by simp [ConditionalBranches.target, ht]
  unfold GoMap.get at ht
  obtain ⟨x, hx, rfl⟩ := Option.map_eq_some_iff.mp ht
  rw [htarget]
  exact has_of_checkRef (List.flatMap_eq_nil_iff.mp hv.2 x (List.mem_of_find?_eq_some hx))

/-- The target of a timer. -/
theorem Accepted.timer_target (h : Accepted d) (hmem : step ∈ d.steps) {be : BoundaryEvent}
    (hbe : be ∈ step.timers) : d.Has be.targetStepId := by
  have hv := h.validateStep_eq_nil hmem
  simp only [validateStep, List.append_eq_nil_iff] at hv
  have hmem' : be ∈ step.boundaryEvents := (List.mem_filter.mp hbe).1
  obtain ⟨j, hj, hget⟩ := List.mem_iff_getElem.mp hmem'
  have hzip : (be, j) ∈ step.boundaryEvents.zipIdx := by
    rw [List.mk_mem_zipIdx_iff_getElem?, List.getElem?_eq_getElem hj, hget]
  have hevent := List.flatMap_eq_nil_iff.mp hv.2 (be, j) hzip
  simp only [validateBoundaryEvent, List.append_eq_nil_iff] at hevent
  have htarget := hevent.2
  split at htarget
  · cases htarget
  · exact has_of_checkRef htarget

end Accepted

/-! ## The invariant -/

/-- A definition whose references all resolve. -/
structure Linked (d : WorkflowDefinition) : Prop where
  accepted : Accepted d
  mapped : d.Mapped
  resolves : Resolves d

instance (d : WorkflowDefinition) : Decidable (Linked d) :=
  decidable_of_iff (Accepted d ∧ d.Mapped ∧ Resolves d)
    ⟨fun h => ⟨h.1, h.2.1, h.2.2⟩, fun h => ⟨h.accepted, h.mapped, h.resolves⟩⟩

/-- Every scheduled timer is a timer of a step of its definition. -/
def Sourced (svc : Service) (db : Db) : Prop :=
  ∀ r ∈ db.boundaryEvents, ∃ inst ∈ db.instances, inst.id = r.instanceID ∧
    ∃ d, Runs svc inst d ∧ ∃ step ∈ d.steps, ∃ be ∈ step.timers, be.targetStepId = r.targetStepID

/-- Every scheduled timer has a step to go on to. -/
def Aimed (svc : Service) (db : Db) : Prop :=
  ∀ r ∈ db.boundaryEvents, ∃ inst ∈ db.instances, inst.id = r.instanceID ∧
    ∃ d, Runs svc inst d ∧ d.Has r.targetStepID

section Steps

variable {svc : Service} {now : Time} {db : Db} {d : WorkflowDefinition} {step : WorkflowStep}

theorem Sourced.aimed (h : Sourced svc db) (hup : svc.Uploaded Linked) : Aimed svc db := by
  intro r hr
  obtain ⟨inst, hinst, hid, d, hd, step, hstep, be, hbe, htarget⟩ := h r hr
  exact ⟨inst, hinst, hid, d, hd, htarget ▸ (hup _ _ _ hd).accepted.timer_target hstep hbe⟩

theorem Sourced.later {db' : Db} (h : Sourced svc db) (hev : db.Evolves db')
    (hrows : ∀ r ∈ db'.boundaryEvents, ∃ r₀ ∈ db.boundaryEvents,
      r.instanceID = r₀.instanceID ∧ r.targetStepID = r₀.targetStepID) : Sourced svc db' := by
  intro r hr
  obtain ⟨r₀, hr₀, hinstID, htarget⟩ := hrows r hr
  obtain ⟨inst, hinst, hid, d, hd, hsource⟩ := h r₀ hr₀
  obtain ⟨inst', hinst', hid', hd'⟩ := hev.runs hinst hd
  exact ⟨inst', hinst', by rw [hid', hid, hinstID], d, hd', by rwa [htarget]⟩

/-- What `advancePastStep` goes on to. -/
theorem Advanced.linked {tx tx' : Tx} {next : List StepId} (h : Advanced now d tx step tx' next)
    (hd : Linked d) (hmem : step ∈ d.steps) (htype : step.type.external = true) :
    ∀ id ∈ next, d.Has id := by
  cases h with
  | on target htarget hnext =>
    intro id hid
    obtain rfl := List.mem_singleton.mp hid
    unfold WorkflowStep.successors at htarget
    split at htarget
    · rename_i c hc
      split at htarget
      · rename_i hempty
        obtain rfl := List.mem_singleton.mp htarget
        refine hd.accepted.next_of_external hmem htype (hnext ?_)
        simpa [hc, ConditionalBranches.len] using hempty
      · obtain ⟨e, he, rfl⟩ := List.mem_map.mp htarget
        exact hd.resolves.conditional step hmem htype c hc e he
    · rename_i hc
      obtain rfl := List.mem_singleton.mp htarget
      exact hd.accepted.next_of_external hmem htype (hnext (by simp [hc, ConditionalBranches.len]))
  | stop hnext hlen => simp
  | fail reason => simp

/-- What a dispatch goes on to. -/
theorem Dispatched.linked {tx tx' : Tx} {next : List StepId}
    (h : Dispatched svc now d tx step tx' next) (hd : Linked d) (hmem : step ∈ d.steps) :
    ∀ id ∈ next, d.Has id := by
  cases h with
  | route g vars next htype hpass hnext =>
    intro id hid
    obtain rfl := List.mem_singleton.mp hid
    rcases hnext with ⟨ht, rfl⟩ | ⟨ht, c, e, hc, he, rfl⟩
    · exact hd.accepted.next_of_pass hmem (.inr (.inr ht))
    · exact hd.accepted.decision_target hd.mapped hmem ht hc he
  | fork htype => exact fun id hid => hd.accepted.branch hmem htype hid
  | transform g vars htype hpass =>
    intro id hid
    obtain rfl := List.mem_singleton.mp hid
    exact hd.accepted.next_of_pass hmem (.inl htype)
  | join gateway htype hgateway hcount =>
    intro id hid
    obtain rfl := List.mem_singleton.mp hid
    exact hd.accepted.next_of_pass hmem (.inr (.inl htype))
  | _ => simp

/-- A dispatch schedules the timers of its step. -/
theorem Dispatched.sourced {tx tx' : Tx} {next : List StepId}
    (h : Dispatched svc now d tx step tx' next) (hwf : TxWF svc d tx)
    (hfind : findStep d step.id = some step) (hsourced : Sourced svc tx.db) :
    Sourced svc tx'.db := by
  have hev := h.evolves hwf hfind
  have hold : ∀ r ∈ tx.db.boundaryEvents, ∃ inst ∈ tx'.db.instances, inst.id = r.instanceID ∧
      ∃ d, Runs svc inst d ∧ ∃ step ∈ d.steps, ∃ be ∈ step.timers,
        be.targetStepId = r.targetStepID := by
    intro r hr
    obtain ⟨inst, hinst, hid, d, hd, hsource⟩ := hsourced r hr
    obtain ⟨inst', hinst', hid', hd'⟩ := hev.runs hinst hd
    exact ⟨inst', hinst', hid'.trans hid, d, hd', hsource⟩
  rcases h.timer_view with ⟨-, hrows, -⟩ | ⟨-, rows, start, hrows, htimers, -⟩
  · intro r hr
    exact hold r (hrows ▸ hr)
  · intro r hr
    rw [hrows] at hr
    rcases List.mem_append.mp hr with hr | hr
    · exact hold r hr
    · -- a new timer, of the step that is parked
      obtain ⟨be, hbe, hrow⟩ := TimerRow.of_mem htimers hr
      obtain ⟨row, hmem, hkey, -⟩ := hwf.mirror.row
      obtain ⟨inst', hinst', hid', hd'⟩ := hev.runs hmem (hwf.mirror.runs.of_key hkey)
      simp only [WorkflowInstance.key, InstanceKey.mk.injEq] at hkey
      refine ⟨inst', hinst', ?_, d, hd', step, findStep_mem hfind, be, hbe, hrow.target_eq.symm⟩
      rw [hid', hkey.1, hrow.instanceID_eq]

/-- An operation leaves the timers of the tables where they point. -/
theorem Opened.sourced {op : Op} {p : Plan} (h : Opened svc now db op p) (hwf : db.WF svc)
    (hsourced : Sourced svc db) : Sourced svc p.tables := by
  refine hsourced.later (h.evolves hwf) ?_
  intro r hr
  cases h.timers with
  | same op hrows hidle => exact ⟨r, hrows ▸ hr, rfl, rfl⟩
  | claimed eventID inst event hinst hevent hfate hrows =>
    rw [hrows] at hr
    obtain ⟨r₀, hr₀, rfl⟩ := Table.mem_update.mp hr
    refine ⟨r₀, hr₀, ?_, ?_⟩ <;> split <;> rfl
  | swept retention hrows =>
    rw [hrows] at hr
    exact ⟨r, (List.mem_filter.mp hr).1, rfl, rfl⟩

/-- What an operation goes on to. -/
theorem Opened.linked {op : Op} {p : Plan} (h : Opened svc now db op p) (hwf : db.WF svc)
    (hup : svc.Uploaded Linked) (haimed : Aimed svc db) {tx : Tx} {steps : List StepId}
    (hp : p.agenda = some (d, tx, steps)) : ∀ id ∈ steps, d.Has id := by
  have htimer : ∀ {eventID : Nat} {inst : WorkflowInstance} {event : BoundaryEventSchedule},
      db.getInstance inst.id = some inst → Runs svc inst d →
      db.boundaryEvents.find? (Db.dueEvent now eventID inst.id) = some event →
      ∀ id ∈ [event.targetStepID], d.Has id := by
    intro eventID inst event hinst hd hevent id hid
    obtain rfl := List.mem_singleton.mp hid
    obtain ⟨inst', hinst', hid', d', hd', hhas⟩ := haimed event (List.mem_of_find?_eq_some hevent)
    have hdue := dueEvent_iff.mp (List.find?_some hevent)
    obtain rfl := hwf.instance_eq hinst' (getInstance_mem hinst) (hid'.trans hdue.2.1)
    obtain rfl : d' = d := Except.ok.inj (hd'.symm.trans hd)
    exact hhas
  have hfirst : ∀ {d : WorkflowDefinition}, d.steps ≠ [] →
      ∀ id ∈ [(d.steps.map (·.id)).headD ""], d.Has id := by
    intro d hsteps id hid
    obtain rfl := List.mem_singleton.mp hid
    cases hs : d.steps with
    | nil => exact absurd hs hsteps
    | cons first rest => exact has_of_mem (by simp [hs])
  cases h with
  | started definitionID version vars businessKey d json key hd hsteps =>
    cases hp
    exact hfirst hsteps
  | chainStarted source d json key hd hsteps hclaim =>
    cases hp
    exact hfirst hsteps
  | jobAdvanced jobID workerID vars job se inst d step g json tx next hcb hacc hd hfind hadv =>
    cases hp
    exact hadv.linked (hup _ _ _ hd) (findStep_mem hfind)
      (by simp [hcb.step_type hwf hd hfind, StepType.external])
  | userTaskCompleted stepID vars inst d step result merged g tx next hinst hflight hd hfind
      htype hrows hadv =>
    cases hp
    exact hadv.linked (hup _ _ _ hd) (findStep_mem hfind) (by simp [htype, StepType.external])
  | waitSignalled stepID vars inst d step merged g tx next hinst hflight hd hfind htype hrows
      hadv =>
    cases hp
    exact hadv.linked (hup _ _ _ hd) (findStep_mem hfind) (by simp [htype, StepType.external])
  | timerInterrupts eventID inst event se d hinst hevent hinterrupting hse halive hd =>
    cases hp
    exact htimer hinst hd hevent
  | timerForks eventID inst event se d hinst hevent hinterrupting hse halive hd =>
    cases hp
    exact htimer hinst hd hevent
  | stepRetried inst stepID patch d g json hinst hfailed hlatest hd step hfind =>
    cases hp
    intro id hid
    obtain rfl := List.mem_singleton.mp hid
    unfold WorkflowDefinition.Has
    rw [hfind]
    rfl
  | _ => cases hp

end Steps

theorem sourced_invariant (svc : Service) :
    TxInvariant svc (fun db => db.WF svc) (fun d tx _ => TxWF svc d tx) (fun _ _ => True)
      (fun _ => True) (Sourced svc) (fun _ tx _ => Sourced svc tx.db) where
  opening := by
    intro db op now p _ hwf hsourced _ hop
    have htables := hop.sourced hwf hsourced
    cases p with
    | commit db reply => exact htables
    | dispatch d tx steps => exact htables
    | chain d tx steps source => exact htables
  step := by
    intro now d tx step pending tx' next hwf hJ _ hfind hdisp
    exact hdisp.sourced hwf hfind hJ
  closing := fun _ hJ => hJ
  acknowledge := fun h => h

theorem linked_invariant (svc : Service) (hup : svc.Uploaded Linked) :
    TxInvariant svc (fun db => db.WF svc ∧ Sourced svc db)
      (fun d tx _ => TxWF svc d tx ∧ Sourced svc tx.db) (fun _ _ => True) (fun _ => True)
      (fun _ => True) (fun d _ pending => ∀ id ∈ pending, d.Has id) where
  opening := by
    intro db op now p _ hI₀ _ _ hop
    cases p with
    | commit db reply => trivial
    | dispatch d tx steps => exact hop.linked hI₀.1 hup (hI₀.2.aimed hup) rfl
    | chain d tx steps source => exact hop.linked hI₀.1 hup (hI₀.2.aimed hup) rfl
  step := by
    intro now d tx step pending tx' next hJ₀ hJ _ hfind hdisp
    have hd := hup _ _ _ hJ₀.1.mirror.runs
    intro id hid
    rcases List.mem_append.mp hid with hid | hid
    · exact hdisp.linked hd (findStep_mem hfind) id hid
    · exact hJ id (List.mem_cons_of_mem _ hid)
  closing := fun _ _ => trivial
  acknowledge := fun _ => trivial

theorem sourced_run (svc : Service) (calls : List Call) : Sourced svc (run svc calls) :=
  (((wf_invariant svc).and (sourced_invariant svc)).run ⟨wf_empty svc, fun r hr => by simp at hr⟩
    ((Run.guarded_true _ calls).mono fun _ _ _ => ⟨trivial, fun _ _ => trivial⟩)).2

/-- The step of a dispatch is in the definition, and a join has a gateway. -/
def Dispatch.Resolved (x : Dispatch) : Prop :=
  ∃ step, findStep x.definition x.stepID = some step ∧
    (step.type = .joinGateway → (findParallelGatewayFor x.definition step.id).isSome = true)

/-- In every run over accepted definitions whose conditional targets are steps
    and whose joins have gateways, no dispatch of any call, committed or not,
    fails for want of a step or of a gateway. -/
theorem references_resolve (svc : Service) (hup : svc.Uploaded Linked) (calls : List Call)
    (call : Call) : ∀ x ∈ attempts svc (run svc calls) call, x.Resolved := by
  have hrule := ((wf_invariant svc).and (sourced_invariant svc)).and (linked_invariant svc hup)
  intro x hx
  obtain ⟨⟨hwf, -⟩, hpending⟩ := hrule.at_attempt ⟨⟨wf_run svc calls, sourced_run svc calls⟩, trivial⟩
    trivial (fun _ _ => trivial) x hx
  obtain ⟨step, hfind⟩ := Option.isSome_iff_exists.mp (hpending _ (List.mem_cons_self ..))
  exact ⟨step, hfind, (hup _ _ _ hwf.mirror.runs).resolves.joins step (findStep_mem hfind)⟩

/-- A service task whose branch leads to `target`. -/
def chargeTo (target : StepId) : WorkflowDefinition where
  id := "charge-to"
  version := 1
  name := "charge to"
  steps := [
    { id := "charge", name := "charge", type := .serviceTask, jobType := "charge",
      nextStep := "end", conditionalNextSteps := some ⟨["true"], [("true", target)]⟩ },
    { id := "end", name := "end", type := .endStep }]

/-- The completion of the first job after a start. -/
def completeCharge : Call := ⟨.completeJob 2 "worker" [], 1, 16⟩

theorem references_resolve_chargeTo :
    (attempts (.ofList [chargeTo "end"]) (run (.ofList [chargeTo "end"]) [(chargeTo "end").start])
      completeCharge).map (·.stepID) = ["end"] ∧
    ∀ x ∈ attempts (.ofList [chargeTo "end"])
      (run (.ofList [chargeTo "end"]) [(chargeTo "end").start]) completeCharge, x.Resolved :=
  ⟨by decide +kernel,
    references_resolve _ (Service.uploaded_ofList (by decide +kernel)) _ _⟩

/-- `Validate` accepts a service task with a branch to a step that does not
    exist, and the completion of the task dispatches it. -/
theorem dangling_branch_dispatched :
    ¬ ∀ svc : Service, svc.Uploaded (fun d => Accepted d ∧ d.Mapped) → ∀ calls call,
      ∀ x ∈ attempts svc (run svc calls) call, x.Resolved := by
  intro h
  have hup : (Service.ofList [chargeTo "nowhere"]).Uploaded (fun d => Accepted d ∧ d.Mapped) :=
    Service.uploaded_ofList (by decide +kernel)
  have hmem : (attempts (.ofList [chargeTo "nowhere"]) (run (.ofList [chargeTo "nowhere"])
      [(chargeTo "nowhere").start]) completeCharge).any
      fun x => (findStep x.definition x.stepID).isNone := by
    decide +kernel
  obtain ⟨x, hx, hnone⟩ := List.any_eq_true.mp hmem
  obtain ⟨step, hfind, -⟩ := h _ hup _ _ x hx
  simp [hfind] at hnone

end Rochallor
