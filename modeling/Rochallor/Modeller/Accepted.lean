import Rochallor.Modeller.Validate

/-! # What the modeller accepts

    The facts about a definition that follow from `validate` reporting no error:
    one for each check, and what the loop of `checkReachability` says about
    paths.
-/

namespace Rochallor.Modeller

open Relation (ReflTransGen)

/-- No diagnostic is an error. -/
def NoError (xs : List Diagnostic) : Prop :=
  ∀ x ∈ xs, x.severity ≠ .error

section NoError

variable {xs ys : List Diagnostic}

theorem noError_append : NoError (xs ++ ys) ↔ NoError xs ∧ NoError ys := by
  unfold NoError
  constructor
  · exact fun h => ⟨fun x hx => h x (List.mem_append_left ys hx),
      fun x hx => h x (List.mem_append_right xs hx)⟩
  · intro ⟨hxs, hys⟩ x hx
    rcases List.mem_append.mp hx with hx | hx
    · exact hxs x hx
    · exact hys x hx

theorem noError_flatMap {α : Type} {as : List α} {f : α → List Diagnostic} :
    NoError (as.flatMap f) ↔ ∀ a ∈ as, NoError (f a) := by
  unfold NoError
  constructor
  · exact fun h a ha x hx => h x (List.mem_flatMap.mpr ⟨a, ha, hx⟩)
  · intro h x hx
    obtain ⟨a, ha, hx⟩ := List.mem_flatMap.mp hx
    exact h a ha x hx

/-- A check whose diagnostics are all errors has none. -/
theorem NoError.eq_nil (h : NoError xs) (herror : ∀ x ∈ xs, x.severity = .error) : xs = [] :=
  List.eq_nil_iff_forall_not_mem.mpr fun x hx => h x hx (herror x hx)

/-- A condition that would report an error does not hold. -/
theorem NoError.of_if {c : Prop} [Decidable c] {x : Diagnostic} (hx : x.severity = .error)
    (h : NoError (if c then [x] else [])) : ¬ c := by
  intro hc
  rw [if_pos hc] at h
  exact h x (List.mem_singleton_self x) hx

/-- A condition that keeps an error away holds. -/
theorem NoError.of_if_not {c : Prop} [Decidable c] {x : Diagnostic} (hx : x.severity = .error)
    (h : NoError (if c then [] else [x])) : c := by
  by_contra hc
  rw [if_neg hc] at h
  exact h x (List.mem_singleton_self x) hx

end NoError

theorem ascii_of_matchesIdPattern {s : String} (h : matchesIdPattern s = true) :
    ∀ c ∈ s.toList, c.toNat < 128 := by
  intro c hc
  obtain ⟨-, hall⟩ := Bool.and_eq_true_iff.mp h
  have hchar := List.all_eq_true.mp hall c hc
  simp only [Bool.or_eq_true, beq_iff_eq] at hchar
  have hbelow : ∀ limit : Char, limit.toNat < 128 → c.val ≤ limit.val → c.toNat < 128 :=
    fun limit hlimit hle => Nat.lt_of_le_of_lt (UInt32.le_iff_toNat_le.mp hle) hlimit
  rcases hchar with ((hletter | rfl) | rfl) | rfl
  · rcases Bool.or_eq_true_iff.mp (show (c.isAlpha || c.isDigit) = true from hletter) with h | h
    · rcases Bool.or_eq_true_iff.mp (show (c.isUpper || c.isLower) = true from h) with h | h
      · have hupper : c.val ≥ 'A'.val ∧ c.val ≤ 'Z'.val := of_decide_eq_true h
        exact hbelow 'Z' (by decide) hupper.2
      · exact hbelow 'z' (by decide) (of_decide_eq_true (Bool.and_eq_true_iff.mp h).2)
    · exact hbelow '9' (by decide) (of_decide_eq_true (Bool.and_eq_true_iff.mp h).2)
  · decide
  · decide
  · decide

/-! ## The checks -/

variable {d : WorkflowDefinition} {step : Step}

/-- Each part of `validate` without its errors. -/
structure Checked (d : WorkflowDefinition) : Prop where
  idFormat : NoError (checkIdFormat d)
  nameRequired : NoError (checkNameRequired d)
  stepsNonEmpty : NoError (checkStepsNonEmpty d)
  stepIdsUnique : NoError (checkStepIdsUnique d)
  stepIdsPresent : NoError (checkStepIdsPresent d)
  nextWorkflowConsistency : NoError (checkNextWorkflowConsistency d)
  variantShape : ∀ step ∈ d.steps, NoError (checkStepVariantShape step)
  refsResolve : ∀ step ∈ d.steps, NoError (checkRefsResolve d step)
  boundaryEvents : ∀ step ∈ d.steps, NoError (checkBoundaryEvents d step)
  reachability : NoError (checkReachability d)

theorem checked_of_validate {peggyParse : String → Except String Expr}
    (h : ((validate peggyParse d).all fun x => x.severity != .error) = true) : Checked d := by
  have hall : NoError (validate peggyParse d) := by
    intro x hx
    have hne := List.all_eq_true.mp h x hx
    simpa using hne
  unfold validate at hall
  simp only [noError_append, noError_flatMap] at hall
  obtain ⟨⟨⟨⟨⟨⟨⟨⟨⟨⟨⟨hid, hname⟩, hsteps⟩, hunique⟩, hpresent⟩, hnext⟩, hstep⟩, -⟩, hreach⟩, -⟩, -⟩, -⟩ :=
    hall
  exact ⟨hid, hname, hsteps, hunique, hpresent, hnext, fun s hs => (hstep s hs).1.1.1,
    fun s hs => (hstep s hs).1.1.2, fun s hs => (hstep s hs).1.2, hreach⟩

/-- The edges of the definition, between ids that are not empty. -/
def Follows (d : WorkflowDefinition) (a b : StepId) : Prop :=
  Search.LoopEdge (d.successors allOutgoing) (·.isEmpty) a b

namespace Checked

theorem id (h : Checked d) : matchesIdPattern d.id = true ∧ utf16Length d.id ≤ 256 := by
  have hnot := NoError.of_if rfl h.idFormat
  simp only [Bool.or_eq_true, Bool.not_eq_true', decide_eq_true_eq, not_or, Bool.not_eq_false,
    Nat.not_lt] at hnot
  exact ⟨hnot.1.2, hnot.2⟩

theorem name (h : Checked d) : blank d.name = false := by
  have hnot := NoError.of_if rfl (noError_append.mp h.nameRequired).1
  simpa using hnot

theorem step_name (h : Checked d) (hstep : step ∈ d.steps) : blank step.name = false := by
  by_contra hblank
  have hmem : step.error .nameRequired ("Step \"" ++ step.id ++ "\" must have a name.") "name" ∈
      (d.steps.filter fun step => blank step.name).map fun step =>
        step.error .nameRequired ("Step \"" ++ step.id ++ "\" must have a name.") "name" :=
    List.mem_map.mpr ⟨step, List.mem_filter.mpr ⟨hstep, by simpa using hblank⟩, rfl⟩
  exact (noError_append.mp h.nameRequired).2 _ hmem rfl

theorem steps (h : Checked d) : d.steps ≠ [] := by
  have hnot := NoError.of_if rfl h.stepsNonEmpty
  simpa using hnot

theorem step_id (h : Checked d) (hstep : step ∈ d.steps) : blank step.id = false := by
  by_contra hblank
  obtain ⟨i, hi⟩ : ∃ i, (step, i) ∈ d.steps.zipIdx := by
    obtain ⟨i, hlt, heq⟩ := List.mem_iff_getElem.mp hstep
    exact ⟨i, List.mem_zipIdx_iff_getElem?.mpr (by simp [hlt, heq])⟩
  have hfilter : (step, i) ∈ d.steps.zipIdx.filter fun s => blank s.1.id :=
    List.mem_filter.mpr ⟨hi, by simpa using hblank⟩
  exact h.stepIdsPresent _ (List.mem_map_of_mem hfilter) rfl

theorem nodup (h : Checked d) : (d.steps.map (·.id)).Nodup := by
  have hloop : ∀ (steps : List Step) (seen : List StepId), NoError (duplicateIds seen steps) →
      (steps.map (·.id)).Nodup ∧ ∀ s ∈ steps, s.id ∉ seen := by
    intro steps
    induction steps with
    | nil => exact fun _ _ => ⟨List.nodup_nil, by simp⟩
    | cons s rest ih =>
      intro seen hnone
      obtain ⟨hhead, hrest⟩ := noError_append.mp hnone
      have hnew : s.id ∉ seen := by
        have hnot := NoError.of_if rfl hhead
        simpa using hnot
      obtain ⟨hnodup, hseen⟩ := ih (s.id :: seen) hrest
      refine ⟨List.nodup_cons.mpr ⟨?_, hnodup⟩, ?_⟩
      · intro hmem
        obtain ⟨t, ht, heq⟩ := List.mem_map.mp hmem
        exact hseen t ht (heq ▸ List.mem_cons_self ..)
      · intro t ht
        rcases List.mem_cons.mp ht with rfl | ht
        · exact hnew
        · exact fun hmem => hseen t ht (List.mem_cons_of_mem _ hmem)
  exact (hloop d.steps [] h.stepIdsUnique).1

/-- A workflow that starts another one names it. -/
theorem nextWorkflow (h : Checked d) (hauto : d.autoStartNextWorkflow = some true) :
    ∃ id, d.nextWorkflowId = some id ∧ blank id = false := by
  have hnot := NoError.of_if rfl h.nextWorkflowConsistency
  rw [hauto] at hnot
  cases hnext : d.nextWorkflowId with
  | none => simp [hnext] at hnot
  | some id => exact ⟨id, rfl, by simpa [hnext] using hnot⟩

/-! ## References -/

theorem of_index {id : StepId} (h : d.index id = some step) : step ∈ d.steps ∧ step.id = id := by
  have hid := List.find?_some h
  exact ⟨List.mem_reverse.mp (List.mem_of_find?_eq_some h), beq_iff_eq.mp hid⟩

theorem mem_of_index {target : StepId} (h : (d.index target).isSome = true) :
    target ∈ d.steps.map (·.id) := by
  obtain ⟨s, hs⟩ := Option.isSome_iff_exists.mp h
  exact List.mem_map.mpr ⟨s, of_index hs⟩

/-- A reference that is checked is that of a step. -/
theorem mem_of_checkRef {target : StepId} {field : String} {branchKey : Option String}
    (h : NoError (checkRef d step target field branchKey)) : target ∈ d.steps.map (·.id) :=
  mem_of_index (NoError.of_if_not rfl h)

theorem mem_of_checkRefs {targets : List StepId} {field : String} {branchKey : Option String}
    (h : NoError (targets.flatMap fun target => checkRef d step target field branchKey)) :
    ∀ target ∈ targets, target ∈ d.steps.map (·.id) :=
  fun target ht => mem_of_checkRef (noError_flatMap.mp h target ht)

/-- An id of a step is not empty. -/
theorem id_ne_empty (h : Checked d) {id : StepId} (hid : id ∈ d.steps.map (·.id)) : id ≠ "" := by
  obtain ⟨s, hs, rfl⟩ := List.mem_map.mp hid
  exact ne_empty_of_not_blank (h.step_id hs)

/-- A `nextStep` that has to be there is. -/
theorem not_blank_of_requireNext {nextStep : StepId} {code : DiagnosticCode}
    (h : NoError (requireNext step nextStep code)) : blank nextStep = false := by
  have hnot := NoError.of_if rfl h
  simpa using hnot

theorem mem_nextTargets {nextStep : StepId} (h : nextStep ≠ "") :
    nextStep ∈ nextTargets (some nextStep) := by
  simp [nextTargets, Option.filter, h]

/-- The one target of a step that needs one. -/
theorem mem_of_next {nextStep : StepId} {code : DiagnosticCode} {field : String}
    (hnext : NoError (requireNext step nextStep code))
    (hrefs : NoError ((nextTargets (some nextStep)).flatMap fun target =>
      checkRef d step target field none)) : nextStep ∈ d.steps.map (·.id) :=
  mem_of_checkRefs hrefs _ (mem_nextTargets (ne_empty_of_not_blank (not_blank_of_requireNext hnext)))

theorem boundaryEvent (h : Checked d) (hstep : step ∈ d.steps) {e : BoundaryEvent}
    (he : e ∈ step.boundaryEvents) :
    e.type = "TIMER" ∧ e.duration ≠ "" ∧ e.targetStepId ∈ d.steps.map (·.id) := by
  have hevents : ∃ i, NoError (checkBoundaryEvent d step e i) := by
    obtain ⟨i, hi⟩ : ∃ i, (e, i) ∈ step.boundaryEvents.zipIdx := by
      obtain ⟨i, hlt, heq⟩ := List.mem_iff_getElem.mp he
      exact ⟨i, List.mem_zipIdx_iff_getElem?.mpr (by simp [hlt, heq])⟩
    refine ⟨i, ?_⟩
    have hnone := h.boundaryEvents step hstep
    unfold checkBoundaryEvents at hnone
    unfold Step.boundaryEvents at he hi
    cases hvariant : step.variant with
    | serviceTask | userTask | wait =>
      rw [hvariant] at hnone
      have hflat := noError_flatMap.mp hnone
      unfold Step.boundaryEvents at hflat
      rw [hvariant] at hi hflat
      exact hflat (e, i) hi
    | _ =>
      rw [hvariant] at he
      cases he
  obtain ⟨i, hnone⟩ := hevents
  unfold checkBoundaryEvent at hnone
  obtain ⟨hfront, htarget⟩ := noError_append.mp hnone
  obtain ⟨htype, hduration⟩ := noError_append.mp hfront
  have htype' := NoError.of_if_not rfl htype
  have hduration' := NoError.of_if rfl hduration
  have htarget' := NoError.of_if rfl htarget
  simp only [Bool.or_eq_true, not_or] at hduration' htarget'
  refine ⟨by simpa using htype', by simpa using hduration'.1, mem_of_index ?_⟩
  simpa [Option.isSome_iff_ne_none] using htarget'.2

/-- Where boundary events are not supported, there is no list of them. -/
theorem no_boundaryEvents (h : Checked d) (hstep : step ∈ d.steps) (htype : step.type.external = false)
    (items : List Json) : prop step.extra "boundaryEvents" ≠ some (.arr items) := by
  intro hitems
  have hnone := h.boundaryEvents step hstep
  unfold checkBoundaryEvents at hnone
  unfold Step.type at htype
  cases hvariant : step.variant with
  | serviceTask | userTask | wait =>
    rw [hvariant] at htype
    cases htype
  | _ =>
    rw [hvariant, hitems] at hnone
    exact hnone _ (List.mem_singleton_self _) rfl

/-! ## Shapes -/

theorem decision (h : Checked d) (hstep : step ∈ d.steps) {branches : GoMap StepId}
    (hvariant : step.variant = .decision branches) : branches ≠ [] := by
  have hshape := h.variantShape step hstep
  unfold checkStepVariantShape at hshape
  rw [hvariant] at hshape
  simpa using NoError.of_if rfl hshape

theorem transformation (h : Checked d) (hstep : step ∈ d.steps) {nextStep : StepId}
    {transformations : GoMap Json} (hvariant : step.variant = .transformation nextStep transformations) :
    transformations ≠ [] := by
  have hshape := h.variantShape step hstep
  unfold checkStepVariantShape at hshape
  rw [hvariant] at hshape
  simpa using NoError.of_if rfl (noError_append.mp hshape).2

/-- A decision table has rules and a known hit policy, and no member of another
    type. -/
theorem decisionTable (h : Checked d) (hstep : step ∈ d.steps) {hitPolicy : String}
    {nextStep : StepId} {table : DecisionTable}
    (hvariant : step.variant = .decisionTable hitPolicy nextStep table) :
    table.rules ≠ [] ∧ nextStep ≠ "" ∧ hitPolicies.contains hitPolicy = true ∧
      ∀ f ∈ forbiddenFields, prop step.extra f = none := by
  have hshape := h.variantShape step hstep
  unfold checkStepVariantShape at hshape
  rw [hvariant] at hshape
  unfold checkDecisionTableShape at hshape
  obtain ⟨hshape, -⟩ := noError_append.mp hshape
  obtain ⟨hshape, hforbidden⟩ := noError_append.mp hshape
  obtain ⟨hshape, -⟩ := noError_append.mp hshape
  obtain ⟨hshape, -⟩ := noError_append.mp hshape
  obtain ⟨hshape, -⟩ := noError_append.mp hshape
  obtain ⟨hshape, hpolicy⟩ := noError_append.mp hshape
  obtain ⟨hrules, hnext⟩ := noError_append.mp hshape
  have hempty := NoError.of_if rfl hrules
  refine ⟨by simpa using hempty, ne_empty_of_not_blank (not_blank_of_requireNext hnext),
    NoError.of_if_not rfl hpolicy, ?_⟩
  intro f hf
  by_contra hsome
  have hfilter : f ∈ forbiddenFields.filter fun f => (prop step.extra f).isSome :=
    List.mem_filter.mpr ⟨hf, Option.isSome_iff_ne_none.mpr hsome⟩
  exact hforbidden _ (List.mem_map_of_mem hfilter) rfl

/-- Every edge leads to a step. -/
theorem outgoing (h : Checked d) (hstep : step ∈ d.steps) {t : StepId} (ht : t ∈ allOutgoing step) :
    t ∈ d.steps.map (·.id) := by
  have hrefs := h.refsResolve step hstep
  have hshape := h.variantShape step hstep
  unfold checkRefsResolve at hrefs
  unfold checkStepVariantShape at hshape
  rcases List.mem_append.mp ht with ht | ht
  · unfold outgoingTargets at ht
    cases hvariant : step.variant with
    | serviceTask | userTask =>
      rw [hvariant] at ht hrefs
      exact mem_of_checkRefs hrefs t ht
    | wait =>
      rw [hvariant] at ht hrefs hshape
      obtain rfl := List.mem_singleton.mp ht
      exact mem_of_next hshape hrefs
    | transformation =>
      rw [hvariant] at ht hrefs hshape
      obtain rfl := List.mem_singleton.mp ht
      exact mem_of_next (noError_append.mp hshape).1 hrefs
    | joinGateway =>
      rw [hvariant] at ht hrefs hshape
      obtain rfl := List.mem_singleton.mp ht
      exact mem_of_next hshape hrefs
    | decision branches =>
      rw [hvariant] at ht hrefs
      obtain ⟨b, hb, rfl⟩ := List.mem_map.mp ht
      exact mem_of_checkRef (noError_flatMap.mp hrefs b hb)
    | decisionTable =>
      rw [hvariant] at ht hrefs
      exact mem_of_checkRefs hrefs t ht
    | parallelGateway =>
      rw [hvariant] at ht hrefs
      exact mem_of_checkRefs (noError_append.mp hrefs).1 t ht
    | endStep =>
      rw [hvariant] at ht
      cases ht
  · obtain ⟨e, he, rfl⟩ := List.mem_map.mp ht
    exact (h.boundaryEvent hstep he).2.2

/-- The join of a gateway is a step. -/
theorem joinStep (h : Checked d) (hstep : step ∈ d.steps) {targets : List StepId} {join : StepId}
    (hvariant : step.variant = .parallelGateway targets join) :
    2 ≤ targets.length ∧ join ≠ "" ∧ join ∈ d.steps.map (·.id) := by
  have hrefs := h.refsResolve step hstep
  have hshape := h.variantShape step hstep
  unfold checkRefsResolve at hrefs
  unfold checkStepVariantShape at hshape
  rw [hvariant] at hrefs hshape
  obtain ⟨hlength, hblank⟩ := noError_append.mp hshape
  have hmin := NoError.of_if rfl hlength
  have hjoin := NoError.of_if rfl hblank
  have hne : join ≠ "" := ne_empty_of_not_blank (by simpa using hjoin)
  exact ⟨by omega, hne, mem_of_checkRefs (noError_append.mp hrefs).2 join (mem_nextTargets hne)⟩

/-! ## Paths -/

theorem mem_reachableSteps {entry : Step} {rest : List Step} (hsteps : d.steps = entry :: rest)
    (hid : entry.id ≠ "") (id : StepId) :
    id ∈ reachableSteps d ↔ ReflTransGen (Follows d) entry.id id := by
  have hnodes : ∀ a, d.successors allOutgoing a ≠ [] → a ∈ d.steps.map (·.id) := by
    intro a ha
    refine mem_of_index ?_
    unfold WorkflowDefinition.successors at ha
    cases hindex : d.index a with
    | none => rw [hindex] at ha; exact absurd rfl ha
    | some s => rfl
  have hloop : reachableSteps d = Search.loop (d.successors allOutgoing) (·.isEmpty)
      (1 + d.edges allOutgoing) [entry.id] [] := by
    unfold reachableSteps
    rw [hsteps]
  have hfuel : [entry.id].length +
      ((d.steps.map (·.id)).map fun a => (d.successors allOutgoing a).length).sum ≤
        1 + d.edges allOutgoing := Nat.le_refl _
  rw [hloop, Search.mem_loop_iff hnodes hfuel]
  constructor
  · rintro ⟨a, ha, -, hpath⟩
    obtain rfl := List.mem_singleton.mp ha
    exact hpath
  · intro hpath
    exact ⟨entry.id, List.mem_singleton_self _, by simpa using hid, hpath⟩

/-- Paths lead from the entry to every step, and to an end. -/
theorem paths (h : Checked d) {entry : Step} {rest : List Step} (hsteps : d.steps = entry :: rest) :
    (∀ s ∈ d.steps, ReflTransGen (Follows d) entry.id s.id) ∧
      ∃ id s, ReflTransGen (Follows d) entry.id id ∧ d.index id = some s ∧ s.type = .endStep := by
  have hentry : entry.id ≠ "" :=
    ne_empty_of_not_blank (h.step_id (hsteps ▸ List.mem_cons_self ..))
  have hreach := h.reachability
  have hne : ¬ d.steps.isEmpty = true := by simp [hsteps]
  unfold checkReachability at hreach
  rw [if_neg hne] at hreach
  obtain ⟨hall, hend⟩ := noError_append.mp hreach
  constructor
  · intro s hs
    rw [← mem_reachableSteps hsteps hentry]
    by_contra hnot
    have hfilter : s ∈ d.steps.filter fun s => !(reachableSteps d).contains s.id :=
      List.mem_filter.mpr ⟨hs, by simpa using hnot⟩
    exact hall _ (List.mem_map_of_mem hfilter) rfl
  · obtain ⟨id, hid, hany⟩ := List.any_eq_true.mp (NoError.of_if_not rfl hend)
    cases hindex : d.index id with
    | none => simp [hindex] at hany
    | some s =>
      rw [hindex] at hany
      exact ⟨id, s, (mem_reachableSteps hsteps hentry id).mp hid, hindex, by simpa using hany⟩

end Checked

end Rochallor.Modeller
