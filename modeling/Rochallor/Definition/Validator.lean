import Rochallor.Definition.Schema

/-! # Definition validation

    `internal/definition/validator.go`.  `validate` returns the list of
    errors in the order the source reports them; a definition is accepted
    when the list is empty.  Where the source ranges over a Go map, the errors
    come in the order of the map's entries here.
-/

namespace Rochallor

/-- `idRegexp`: `^[A-Za-z0-9_:\-]+$`. -/
def matchesIdRegexp (s : String) : Bool :=
  !s.isEmpty && s.toList.all fun c => c.isAlphanum || c == '_' || c == ':' || c == '-'

/-- The last step with a given id, as in the `stepByID` map. -/
def stepByID (d : WorkflowDefinition) (id : StepId) : Option WorkflowStep :=
  d.steps.reverse.find? fun s => s.id == id && !s.id.isEmpty

/-! ## Field rules -/

/-- `checkRef`. -/
def checkRef (d : WorkflowDefinition) (stepID : StepId) (field : String) (target : StepId) :
    List String :=
  if (stepByID d target).isSome then []
  else ["step " ++ quote stepID ++ " " ++ field ++ " references unknown step " ++ quote target]

/-- `validateSchemaShape`. -/
def validateSchemaShape (label : String) (s : Schema) : List String :=
  (if s.properties.isEmpty then [label ++ ": properties must not be empty"] else []) ++
  (s.properties.filterMap fun (name, t) =>
    if t.supported then none
    else some (label ++ ": property " ++ quote name ++ " has unsupported type " ++ quote t.text ++
      " (expected one of: string, number, integer, boolean)")) ++
  (s.required.filterMap fun req =>
    if (s.properties.get req).isSome then none
    else some (label ++ ": required name " ++ quote req ++ " does not appear in properties"))

/-- `validHitPolicies`. -/
def validHitPolicies : List String := ["U", "F", "A", "R", "C", "C+", "C#", "C>", "C<"]

/-- The hit-policy rule of a decision table: unknown code, or an aggregator on
    a policy other than `C`. -/
def validateHitPolicy (s : WorkflowStep) : List String :=
  if s.hitPolicy.isEmpty || validHitPolicies.contains s.hitPolicy then []
  else
    match s.hitPolicy.toList with
    | c₀ :: c₁ :: _ =>
      if ['+', '#', '>', '<'].contains c₁ && c₀ != 'C' then
        ["step " ++ quote s.id ++ " (DECISION_TABLE): aggregator " ++ quote (String.singleton c₁) ++
          " is only valid on hitPolicy \"C\" (got " ++ quote s.hitPolicy ++ ")"]
      else
        ["step " ++ quote s.id ++ " (DECISION_TABLE): hitPolicy " ++ quote s.hitPolicy ++
          " is not recognised; expected one of U, F, A, R, C, C+, C#, C>, C<"]
    | _ =>
      ["step " ++ quote s.id ++ " (DECISION_TABLE): hitPolicy " ++ quote s.hitPolicy ++
        " is not recognised; expected one of U, F, A, R, C, C+, C#, C>, C<"]

/-- A field of another step type on a `DECISION_TABLE` step. -/
def foreignField (s : WorkflowStep) (present : Bool) (field : String) : List String :=
  if present then
    ["step " ++ quote s.id ++ " (DECISION_TABLE): " ++ field ++ " is not valid on this step type"]
  else []

/-- `validateDecisionTable`. -/
def validateDecisionTable (d : WorkflowDefinition) (s : WorkflowStep) : List String :=
  match s.decisionTable with
  | none => ["step " ++ quote s.id ++ " (DECISION_TABLE): decisionTable payload is required"]
  | some dt =>
    (if dt.rules.isEmpty then
      ["step " ++ quote s.id ++ " (DECISION_TABLE): rules must not be empty"] else []) ++
    (if s.nextStep.isEmpty then
      ["step " ++ quote s.id ++ " (DECISION_TABLE): nextStep is required"]
     else checkRef d s.id "nextStep" s.nextStep) ++
    validateHitPolicy s ++
    foreignField s (ConditionalBranches.len s.conditionalNextSteps != 0) "conditionalNextSteps" ++
    foreignField s (!s.transformations.isEmpty) "transformations" ++
    foreignField s (!s.parallelNextSteps.isEmpty) "parallelNextSteps" ++
    foreignField s (!s.joinStep.isEmpty) "joinStep" ++
    foreignField s (!s.jobType.isEmpty) "jobType" ++
    foreignField s (!s.delegateClass.isEmpty) "delegateClass" ++
    foreignField s (s.retryCount != 0) "retryCount" ++
    foreignField s (!s.boundaryEvents.isEmpty) "boundaryEvents"

/-- A required `nextStep` that must resolve. -/
def requireNextStep (d : WorkflowDefinition) (s : WorkflowStep) (label : String) : List String :=
  if s.nextStep.isEmpty then
    ["step " ++ quote s.id ++ " (" ++ label ++ "): nextStep is required"]
  else checkRef d s.id "nextStep" s.nextStep

/-- The rules of the step's own type. -/
def validateByType (d : WorkflowDefinition) (s : WorkflowStep) : List String :=
  match s.type with
  | .serviceTask =>
    (if s.jobType.isEmpty then
      ["step " ++ quote s.id ++ " (SERVICE_TASK): jobType is required"] else []) ++
    (if s.nextStep.isEmpty then [] else checkRef d s.id "nextStep" s.nextStep)
  | .userTask => if s.nextStep.isEmpty then [] else checkRef d s.id "nextStep" s.nextStep
  | .decision =>
    (if ConditionalBranches.len s.conditionalNextSteps = 0 then
      ["step " ++ quote s.id ++ " (DECISION): conditionalNextSteps must not be empty"] else []) ++
    (match s.conditionalNextSteps with
     | none => []
     | some c => c.targets.flatMap fun e => checkRef d s.id "conditionalNextSteps target" e.2)
  | .transformation =>
    requireNextStep d s "TRANSFORMATION" ++
    (if s.transformations.isEmpty then
      ["step " ++ quote s.id ++ " (TRANSFORMATION): transformations must not be empty"] else [])
  | .wait => requireNextStep d s "WAIT"
  | .parallelGateway =>
    (if s.parallelNextSteps.length < 2 then
      ["step " ++ quote s.id ++
        " (PARALLEL_GATEWAY): parallelNextSteps must have at least 2 entries"] else []) ++
    (if s.joinStep.isEmpty then
      ["step " ++ quote s.id ++ " (PARALLEL_GATEWAY): joinStep is required"]
     else checkRef d s.id "joinStep" s.joinStep) ++
    s.parallelNextSteps.flatMap (checkRef d s.id "parallelNextSteps")
  | .joinGateway => requireNextStep d s "JOIN_GATEWAY"
  | .endStep => []
  | .decisionTable => validateDecisionTable d s
  | .unsupported _ => []

/-- The rules of one boundary event. -/
def validateBoundaryEvent (d : WorkflowDefinition) (s : WorkflowStep) (j : Nat)
    (be : BoundaryEvent) : List String :=
  let label := "step " ++ quote s.id ++ " boundaryEvents[" ++ toString j ++ "]: "
  (match be.type with
   | .timer => []
   | .unsupported t => [label ++ "unsupported type " ++ quote t ++ " (only TIMER is in scope)"]) ++
  (if be.duration.isEmpty then [label ++ "duration is required for TIMER events"] else []) ++
  (if be.targetStepId.isEmpty then [label ++ "targetStepId is required"]
   else checkRef d s.id ("boundaryEvents[" ++ toString j ++ "].targetStepId") be.targetStepId)

/-- Every rule about one step with an id. -/
def validateStep (d : WorkflowDefinition) (s : WorkflowStep) : List String :=
  (if s.name.isEmpty then ["step " ++ quote s.id ++ ": name is required"] else []) ++
  (if s.type.valid then []
   else ["step " ++ quote s.id ++ ": unsupported type " ++ quote s.type.text]) ++
  validateByType d s ++
  (if s.type != .decisionTable && s.decisionTable.isSome then
    ["step " ++ quote s.id ++ " (" ++ s.type.text ++
      "): decisionTable is not valid on this step type"] else []) ++
  (match s.outputsSchema with
   | none => []
   | some sch =>
     if s.type != .serviceTask then
       ["step " ++ quote s.id ++ " (" ++ s.type.text ++
         "): outputs_schema is only supported on SERVICE_TASK steps in this version"]
     else validateSchemaShape ("step " ++ quote s.id ++ " outputs_schema") sch) ++
  (s.boundaryEvents.zipIdx.flatMap fun (be, j) => validateBoundaryEvent d s j be)

/-- `id is required` and `duplicate step id`, in document order. -/
def validateStepIds : Nat → List StepId → List WorkflowStep → List String
  | _, _, [] => []
  | i, seen, s :: rest =>
    if s.id.isEmpty then
      ("step[" ++ toString i ++ "] id is required") :: validateStepIds (i + 1) seen rest
    else if seen.contains s.id then
      ("duplicate step id: " ++ quote s.id) :: validateStepIds (i + 1) seen rest
    else validateStepIds (i + 1) (s.id :: seen) rest

/-! ## Reachability -/

/-- The steps `graphWalk` goes on to from a step, in its order. -/
def walkTargets (s : WorkflowStep) : List StepId :=
  (if s.nextStep.isEmpty then [] else [s.nextStep]) ++
  (match s.conditionalNextSteps with
   | none => []
   | some c => c.targets.map (·.2)) ++
  s.parallelNextSteps ++
  (if s.joinStep.isEmpty then [] else [s.joinStep]) ++
  s.boundaryEvents.map (·.targetStepId)

/-- `graphWalk`: depth-first search from `id`, marking every id it meets.  A
    call below a step of the definition has marked that step first, so one
    more level than there are steps is all the recursion ever needs. -/
def graphWalk (d : WorkflowDefinition) : Nat → StepId → List StepId → List StepId
  | 0, _, visited => visited
  | depth + 1, id, visited =>
    if visited.contains id then visited
    else
      match stepByID d id with
      | none => id :: visited
      | some s => (walkTargets s).foldl (fun acc t => graphWalk d depth t acc) (id :: visited)

/-- The reachability rules. -/
def validateReachability (d : WorkflowDefinition) : List String :=
  match d.steps with
  | [] => []
  | first :: _ =>
    if first.id.isEmpty then []
    else
      let reachable := graphWalk d (d.steps.length + 1) first.id []
      (d.steps.filterMap fun s =>
        if !s.id.isEmpty && !reachable.contains s.id then
          some ("step " ++ quote s.id ++ " is unreachable from the first step")
        else none) ++
      (if reachable.any fun id => (stepByID d id).any fun s => s.type == .endStep then []
       else ["no END step is reachable from the first step"])

/-! ## Validate -/

/-- The rules about the definition's own fields. -/
def validateTopLevel (d : WorkflowDefinition) : List String :=
  (if d.id.isEmpty then ["id is required"]
   else if d.id.utf8ByteSize > 256 then
     ["id must be ≤ 256 characters, got " ++ toString d.id.utf8ByteSize]
   else if matchesIdRegexp d.id then []
   else ["id " ++ quote d.id ++ " must match ^[A-Za-z0-9_:\\-]+$"]) ++
  (if d.name.isEmpty then ["name is required"] else []) ++
  (if d.steps.isEmpty then ["steps must not be empty"] else []) ++
  (if d.autoStartNextWorkflow && d.nextWorkflowId.isEmpty then
    ["nextWorkflowId is required when autoStartNextWorkflow is true"] else []) ++
  (match d.inputSchema with
   | none => []
   | some sch => validateSchemaShape "input_schema" sch)

/-- `Validate`: every violated rule, or the empty list. -/
def validate (d : WorkflowDefinition) : List String :=
  let top := validateTopLevel d
  -- without steps there is nothing further to look at
  if d.steps.isEmpty then top
  else
    top ++ validateStepIds 0 [] d.steps ++
    ((d.steps.filter fun s => !s.id.isEmpty).flatMap (validateStep d)) ++
    validateReachability d

/-- A definition `Validate` returns nil for. -/
def Accepted (d : WorkflowDefinition) : Prop :=
  validate d = []

instance (d : WorkflowDefinition) : Decidable (Accepted d) :=
  inferInstanceAs (Decidable (validate d = []))

/-! ## What acceptance gives -/

theorem validateStepIds_eq_nil {i : Nat} {seen : List StepId} {steps : List WorkflowStep}
    (h : validateStepIds i seen steps = []) :
    (∀ s ∈ steps, s.id ≠ "" ∧ s.id ∉ seen) ∧ (steps.map (·.id)).Nodup := by
  induction steps generalizing i seen with
  | nil => simp
  | cons s rest ih =>
    rw [validateStepIds] at h
    split at h
    · cases h
    · rename_i hid
      split at h
      · cases h
      · rename_i hseen
        obtain ⟨hrest, hnd⟩ := ih h
        refine ⟨?_, ?_⟩
        · intro s' hs'
          rcases List.mem_cons.mp hs' with rfl | hs'
          · exact ⟨by simpa using hid, by simpa using hseen⟩
          · exact ⟨(hrest s' hs').1, fun hmem => (hrest s' hs').2 (List.mem_cons_of_mem _ hmem)⟩
        · refine List.nodup_cons.mpr ⟨?_, hnd⟩
          intro hmem
          obtain ⟨s', hs', heq⟩ := List.mem_map.mp hmem
          exact (hrest s' hs').2 (by simp [heq])

namespace Accepted

variable {d : WorkflowDefinition} {step : WorkflowStep}

private theorem parts (h : Accepted d) (hmem : step ∈ d.steps) :
    validateStepIds 0 [] d.steps = [] ∧
      (d.steps.filter fun s => !s.id.isEmpty).flatMap (validateStep d) = [] := by
  unfold Accepted validate at h
  have hne : d.steps.isEmpty = false := by
    cases hs : d.steps with
    | nil => simp [hs] at hmem
    | cons _ _ => rfl
  simp only [hne, Bool.false_eq_true, if_false, List.append_eq_nil_iff] at h
  exact ⟨h.1.1.2, h.1.2⟩

/-- Step ids are distinct. -/
theorem nodup (h : Accepted d) : (d.steps.map (·.id)).Nodup := by
  cases hs : d.steps with
  | nil => simp
  | cons s rest =>
    have hmem : s ∈ d.steps := by simp [hs]
    rw [← hs]
    exact (validateStepIds_eq_nil (h.parts hmem).1).2

/-- No step has an error. -/
theorem validateStep_eq_nil (h : Accepted d) (hmem : step ∈ d.steps) : validateStep d step = [] := by
  obtain ⟨hids, hsteps⟩ := h.parts hmem
  have hid := ((validateStepIds_eq_nil hids).1 step hmem).1
  exact List.flatMap_eq_nil_iff.mp hsteps step (List.mem_filter.mpr ⟨hmem, by simpa using hid⟩)

theorem validateByType_eq_nil (h : Accepted d) (hmem : step ∈ d.steps) :
    validateByType d step = [] := by
  have := h.validateStep_eq_nil hmem
  simp only [validateStep, List.append_eq_nil_iff] at this
  exact this.1.1.1.2

/-- A gateway has branches. -/
theorem branches (h : Accepted d) (hmem : step ∈ d.steps) (htype : step.type = .parallelGateway) :
    step.parallelNextSteps ≠ [] := by
  intro hnil
  have := h.validateByType_eq_nil hmem
  simp [validateByType, htype, hnil] at this

/-- A wait step has a next step. -/
theorem wait_nextStep (h : Accepted d) (hmem : step ∈ d.steps) (htype : step.type = .wait) :
    step.nextStep ≠ "" := by
  intro hempty
  have := h.validateByType_eq_nil hmem
  simp [validateByType, requireNextStep, htype, hempty] at this

end Accepted

end Rochallor
