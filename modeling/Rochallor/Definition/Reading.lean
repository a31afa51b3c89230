import Rochallor.Data.Fields
import Rochallor.Definition.Parser

/-! # What the strict parser reads

    The types of the members of a definition, and the fields that hold what the
    members decode to.
-/

namespace Rochallor

/-! ## Types -/

def boundaryEventTypes : List (String × (Json → Prop)) :=
  [("type", IsText), ("duration", IsText), ("interrupting", IsBool), ("targetStepId", IsText)]

def ruleTypes : List (String × (Json → Prop)) :=
  [("when", IsMap IsText), ("outputs", IsMap fun _ => True)]

def decisionTableTypes : List (String × (Json → Prop)) :=
  [("rules", IsItems (IsStruct ruleTypes))]

def propertyTypes : List (String × (Json → Prop)) :=
  [("type", IsText)]

def schemaTypes : List (String × (Json → Prop)) :=
  [("properties", IsMap (IsStruct propertyTypes)), ("required", IsItems IsText)]

def stepTypes : List (String × (Json → Prop)) :=
  [("id", IsText), ("name", IsText), ("type", IsText), ("description", IsText),
    ("nextStep", IsText), ("parallelNextSteps", IsItems IsText), ("joinStep", IsText),
    ("conditionalNextSteps", IsMap IsText), ("transformations", IsMap fun _ => True),
    ("decisionTable", IsStruct decisionTableTypes), ("hitPolicy", IsText), ("jobType", IsText),
    ("delegateClass", IsText), ("retryCount", IsInt),
    ("boundaryEvents", IsItems (IsStruct boundaryEventTypes)),
    ("outputs_schema", IsStruct schemaTypes)]

def definitionTypes : List (String × (Json → Prop)) :=
  [("id", IsText), ("version", IsInt), ("name", IsText), ("description", IsText),
    ("autoStartNextWorkflow", IsBool), ("nextWorkflowId", IsText),
    ("steps", IsItems (IsStruct stepTypes)), ("metadata", IsMap fun _ => True),
    ("input_schema", IsStruct schemaTypes)]

theorem decodeMap_any_decodes : Decodes (@decodeMap Json .ok) (IsMap fun _ => True) :=
  decodeMap_decodes fun j => by simp

theorem decodeTexts_decodes : Decodes (decodeMap (decodeString "")) (IsMap IsText) :=
  decodeMap_decodes fun j => decodeString_decodes "" j

theorem boundaryEventFields_types : FieldTypes boundaryEventFields boundaryEventTypes :=
  .cons ⟨rfl, Field.of_typed (decodeText_decodes fun _ _ => rfl)⟩ <|
  .cons ⟨rfl, Field.of_typed decodeString_decodes⟩ <|
  .cons ⟨rfl, Field.of_typed decodeBool_decodes⟩ <|
  .cons ⟨rfl, Field.of_typed decodeString_decodes⟩ .nil

theorem ruleFields_types : FieldTypes ruleFields ruleTypes :=
  .cons ⟨rfl, Field.of_typed decodeTexts_decodes⟩ <|
  .cons ⟨rfl, Field.of_typed decodeMap_any_decodes⟩ .nil

theorem decisionTableFields_types : FieldTypes (decisionTableFields true) decisionTableTypes :=
  .cons ⟨rfl, Field.of_typed (decodeSlice_decodes (decodeStruct_decodes ruleFields_types _) _)⟩ .nil

theorem propertyFields_types : FieldTypes propertyFields propertyTypes :=
  .cons ⟨rfl, Field.of_typed (decodeText_decodes fun _ _ => rfl)⟩ .nil

theorem schemaFields_types : FieldTypes (schemaFields true) schemaTypes :=
  .cons ⟨rfl, Field.of_typed (decodeMap_decodes fun j =>
    decodeStruct_decodes propertyFields_types _ _ j)⟩ <|
  .cons ⟨rfl, Field.of_typed (decodeSlice_decodes decodeString_decodes _)⟩ .nil

theorem decodeSchema_decodes : Decodes (decodeSchema true) (IsStruct schemaTypes) :=
  decodePointer_decodes (decodeStruct_decodes schemaFields_types _) (.inl rfl) _

/-- The branches of a step: an object of strings. -/
theorem decodeBranches_ok_iff (members : List (String × Json)) (old : ConditionalBranches) :
    (∃ v, decodeBranches old members = .ok v) ↔ ∀ m ∈ members, IsText m.2 := by
  induction members generalizing old with
  | nil => simp [decodeBranches]
  | cons m rest ih =>
    obtain ⟨k, j⟩ := m
    rw [List.forall_mem_cons, ← decodeString_decodes "" j, decodeBranches]
    cases decodeString "" j with
    | error e => simp
    | ok s => simp [ih]

theorem decodeConditional_decodes :
    Decodes (decodePointer ConditionalBranches.unmarshalJSON ⟨[], []⟩) (IsMap IsText) := by
  intro old j
  cases j with
  | obj members =>
    have h := decodeBranches_ok_iff members ⟨[], []⟩
    simp only [IsMap, decodePointer, ConditionalBranches.unmarshalJSON, reduceCtorEq, false_or,
      Json.obj.injEq, exists_eq_left']
    rw [← h]
    constructor
    · rintro ⟨v, hv⟩
      obtain ⟨c, hc, -⟩ := bind_eq_ok hv
      exact ⟨c, hc⟩
    · rintro ⟨c, hc⟩
      exact ⟨some c, by rw [hc]; rfl⟩
  | null => simp [decodePointer, IsMap]
  | _ => simp [decodePointer, ConditionalBranches.unmarshalJSON, IsMap, bind, Except.bind]

theorem stepFields_types : FieldTypes (stepFields true) stepTypes :=
  .cons ⟨rfl, Field.of_typed decodeString_decodes⟩ <|
  .cons ⟨rfl, Field.of_typed decodeString_decodes⟩ <|
  .cons ⟨rfl, Field.of_typed (decodeText_decodes fun _ _ => rfl)⟩ <|
  .cons ⟨rfl, Field.of_typed decodeString_decodes⟩ <|
  .cons ⟨rfl, Field.of_typed decodeString_decodes⟩ <|
  .cons ⟨rfl, Field.of_typed (decodeSlice_decodes decodeString_decodes _)⟩ <|
  .cons ⟨rfl, Field.of_typed decodeString_decodes⟩ <|
  .cons ⟨rfl, Field.of_typed decodeConditional_decodes⟩ <|
  .cons ⟨rfl, Field.of_typed decodeMap_any_decodes⟩ <|
  .cons ⟨rfl, Field.of_typed (decodePointer_decodes
    (decodeStruct_decodes decisionTableFields_types _) (.inl rfl) _)⟩ <|
  .cons ⟨rfl, Field.of_typed decodeString_decodes⟩ <|
  .cons ⟨rfl, Field.of_typed decodeString_decodes⟩ <|
  .cons ⟨rfl, Field.of_typed decodeString_decodes⟩ <|
  .cons ⟨rfl, Field.of_typed decodeInt_decodes⟩ <|
  .cons ⟨rfl, Field.of_typed (decodeSlice_decodes
    (decodeStruct_decodes boundaryEventFields_types _) _)⟩ <|
  .cons ⟨rfl, Field.of_typed decodeSchema_decodes⟩ .nil

theorem definitionFields_types : FieldTypes (definitionFields true) definitionTypes :=
  .cons ⟨rfl, Field.of_typed decodeString_decodes⟩ <|
  .cons ⟨rfl, Field.of_typed decodeInt_decodes⟩ <|
  .cons ⟨rfl, Field.of_typed decodeString_decodes⟩ <|
  .cons ⟨rfl, Field.of_typed decodeString_decodes⟩ <|
  .cons ⟨rfl, Field.of_typed decodeBool_decodes⟩ <|
  .cons ⟨rfl, Field.of_typed decodeString_decodes⟩ <|
  .cons ⟨rfl, Field.of_typed (decodeSlice_decodes (decodeStruct_decodes stepFields_types _) _)⟩ <|
  .cons ⟨rfl, Field.of_typed decodeMap_any_decodes⟩ <|
  .cons ⟨rfl, Field.of_typed decodeSchema_decodes⟩ .nil

/-- A definition is parsed exactly when it is a struct of these types. -/
theorem parse_ok_iff (doc : Json) : (∃ d, parse doc = .ok d) ↔ IsStruct definitionTypes doc := by
  rw [← decodeStruct_decodes definitionFields_types "definition.WorkflowDefinition" .zero doc]
  unfold parse decodeDefinition
  cases decodeStruct true (definitionFields true) "definition.WorkflowDefinition" .zero doc <;> simp

/-! ## Fields -/

/-- What the fields of a boundary event hold. -/
structure EventRead (members : GoMap Json) (e : BoundaryEvent) : Prop where
  type : Reads (decodeText BoundaryEventType.ofText BoundaryEventType.text) (.unsupported "")
    (GoMap.last members "type") e.type
  duration : Reads decodeString "" (GoMap.last members "duration") e.duration
  targetStepId : Reads decodeString "" (GoMap.last members "targetStepId") e.targetStepId

/-- What the fields of a step hold. -/
structure StepRead (members : GoMap Json) (s : WorkflowStep) : Prop where
  id : Reads decodeString "" (GoMap.last members "id") s.id
  name : Reads decodeString "" (GoMap.last members "name") s.name
  type : Reads (decodeText StepType.ofText StepType.text) (.unsupported "")
    (GoMap.last members "type") s.type
  nextStep : Reads decodeString "" (GoMap.last members "nextStep") s.nextStep
  parallelNextSteps : Reads (decodeSlice decodeString "") [] (GoMap.last members "parallelNextSteps")
    s.parallelNextSteps
  joinStep : Reads decodeString "" (GoMap.last members "joinStep") s.joinStep
  conditionalNextSteps : Reads (decodePointer ConditionalBranches.unmarshalJSON ⟨[], []⟩) none
    (GoMap.last members "conditionalNextSteps") s.conditionalNextSteps
  transformations : Reads (decodeMap .ok) [] (GoMap.last members "transformations") s.transformations
  decisionTable : Reads (decodePointer (decodeStruct true (decisionTableFields true)
    "definition.DecisionTable") ⟨[]⟩) none (GoMap.last members "decisionTable") s.decisionTable
  hitPolicy : Reads decodeString "" (GoMap.last members "hitPolicy") s.hitPolicy
  jobType : Reads decodeString "" (GoMap.last members "jobType") s.jobType
  delegateClass : Reads decodeString "" (GoMap.last members "delegateClass") s.delegateClass
  retryCount : Reads decodeInt 0 (GoMap.last members "retryCount") s.retryCount
  boundaryEvents : Reads (decodeSlice (decodeStruct true boundaryEventFields
    "definition.BoundaryEvent") .zero) [] (GoMap.last members "boundaryEvents") s.boundaryEvents
  outputsSchema : Reads (decodeSchema true) none (GoMap.last members "outputs_schema")
    s.outputsSchema

/-- What the fields of a definition hold. -/
structure DefinitionRead (members : GoMap Json) (d : WorkflowDefinition) : Prop where
  id : Reads decodeString "" (GoMap.last members "id") d.id
  name : Reads decodeString "" (GoMap.last members "name") d.name
  autoStartNextWorkflow : Reads decodeBool false (GoMap.last members "autoStartNextWorkflow")
    d.autoStartNextWorkflow
  nextWorkflowId : Reads decodeString "" (GoMap.last members "nextWorkflowId") d.nextWorkflowId
  steps : Reads (decodeSlice (decodeStruct true (stepFields true) "definition.WorkflowStep") .zero)
    [] (GoMap.last members "steps") d.steps
  inputSchema : Reads (decodeSchema true) none (GoMap.last members "input_schema") d.inputSchema

section Reads

variable {members : GoMap Json}

/-- The names of the types are those of the fields. -/
theorem FieldTypes.names {σ : Type} {fields : List (Field σ)}
    {types : List (String × (Json → Prop))} (h : FieldTypes fields types) :
    fields.map (·.name) = types.map (·.1) := by
  induction h with
  | nil => rfl
  | cons hft _ ih => rw [List.map_cons, List.map_cons, hft.1, ih]

theorem eventRead {e : BoundaryEvent} (h : Spelled (boundaryEventTypes.map (·.1)) members)
    (hok : decodeMembers true boundaryEventFields .zero members = .ok e) : EventRead members e := by
  rw [← boundaryEventFields_types.names] at h
  have lens : ∀ {α : Type} {name decode} {get : BoundaryEvent → α} {set},
      Lens boundaryEventFields name decode get set →
        Reads decode (get .zero) (GoMap.last members name) (get e) :=
    fun hlens => hlens.reads (.inl rfl) h hok
  constructor
  · exact @lens _ "type" _ (·.type) (fun e v => { e with type := v })
      ⟨by simp [boundaryEventFields], fun _ _ => rfl, by simp [boundaryEventFields, Field.of_frames]⟩
  · exact @lens _ "duration" _ (·.duration) (fun e v => { e with duration := v })
      ⟨by simp [boundaryEventFields], fun _ _ => rfl, by simp [boundaryEventFields, Field.of_frames]⟩
  · exact @lens _ "targetStepId" _ (·.targetStepId) (fun e v => { e with targetStepId := v })
      ⟨by simp [boundaryEventFields], fun _ _ => rfl, by simp [boundaryEventFields, Field.of_frames]⟩

/-- The one field of a decision table. -/
theorem decisionTableRead {t : DecisionTable} (h : Spelled (decisionTableTypes.map (·.1)) members)
    (hok : decodeMembers true (decisionTableFields true) ⟨[]⟩ members = .ok t) :
    Reads (decodeSlice (decodeStruct true ruleFields "definition.DecisionTableRule") ⟨[], []⟩) []
      (GoMap.last members "rules") t.rules := by
  rw [← decisionTableFields_types.names] at h
  have hlens : Lens (decisionTableFields true) "rules"
      (decodeSlice (decodeStruct true ruleFields "definition.DecisionTableRule") ⟨[], []⟩)
      (·.rules) (fun t v => { t with rules := v }) :=
    ⟨by simp [decisionTableFields], fun _ _ => rfl, by simp [decisionTableFields]⟩
  exact hlens.reads (.inl rfl) h hok

theorem stepRead {s : WorkflowStep} (h : Spelled (stepTypes.map (·.1)) members)
    (hok : decodeMembers true (stepFields true) .zero members = .ok s) : StepRead members s := by
  rw [← stepFields_types.names] at h
  have lens : ∀ {α : Type} {name decode} {get : WorkflowStep → α} {set},
      Lens (stepFields true) name decode get set →
        Reads decode (get .zero) (GoMap.last members name) (get s) :=
    fun hlens => hlens.reads (.inl rfl) h hok
  constructor
  · exact @lens _ "id" _ (·.id) (fun s v => { s with id := v })
      ⟨by simp [stepFields], fun _ _ => rfl, by simp [stepFields, Field.of_frames]⟩
  · exact @lens _ "name" _ (·.name) (fun s v => { s with name := v })
      ⟨by simp [stepFields], fun _ _ => rfl, by simp [stepFields, Field.of_frames]⟩
  · exact @lens _ "type" _ (·.type) (fun s v => { s with type := v })
      ⟨by simp [stepFields], fun _ _ => rfl, by simp [stepFields, Field.of_frames]⟩
  · exact @lens _ "nextStep" _ (·.nextStep) (fun s v => { s with nextStep := v })
      ⟨by simp [stepFields], fun _ _ => rfl, by simp [stepFields, Field.of_frames]⟩
  · exact @lens _ "parallelNextSteps" _ (·.parallelNextSteps) (fun s v => { s with parallelNextSteps := v })
      ⟨by simp [stepFields], fun _ _ => rfl, by simp [stepFields, Field.of_frames]⟩
  · exact @lens _ "joinStep" _ (·.joinStep) (fun s v => { s with joinStep := v })
      ⟨by simp [stepFields], fun _ _ => rfl, by simp [stepFields, Field.of_frames]⟩
  · exact @lens _ "conditionalNextSteps" _ (·.conditionalNextSteps) (fun s v => { s with conditionalNextSteps := v })
      ⟨by simp [stepFields], fun _ _ => rfl, by simp [stepFields, Field.of_frames]⟩
  · exact @lens _ "transformations" _ (·.transformations) (fun s v => { s with transformations := v })
      ⟨by simp [stepFields], fun _ _ => rfl, by simp [stepFields, Field.of_frames]⟩
  · exact @lens _ "decisionTable" _ (·.decisionTable) (fun s v => { s with decisionTable := v })
      ⟨by simp [stepFields], fun _ _ => rfl, by simp [stepFields, Field.of_frames]⟩
  · exact @lens _ "hitPolicy" _ (·.hitPolicy) (fun s v => { s with hitPolicy := v })
      ⟨by simp [stepFields], fun _ _ => rfl, by simp [stepFields, Field.of_frames]⟩
  · exact @lens _ "jobType" _ (·.jobType) (fun s v => { s with jobType := v })
      ⟨by simp [stepFields], fun _ _ => rfl, by simp [stepFields, Field.of_frames]⟩
  · exact @lens _ "delegateClass" _ (·.delegateClass) (fun s v => { s with delegateClass := v })
      ⟨by simp [stepFields], fun _ _ => rfl, by simp [stepFields, Field.of_frames]⟩
  · exact @lens _ "retryCount" _ (·.retryCount) (fun s v => { s with retryCount := v })
      ⟨by simp [stepFields], fun _ _ => rfl, by simp [stepFields, Field.of_frames]⟩
  · exact @lens _ "boundaryEvents" _ (·.boundaryEvents) (fun s v => { s with boundaryEvents := v })
      ⟨by simp [stepFields], fun _ _ => rfl, by simp [stepFields, Field.of_frames]⟩
  · exact @lens _ "outputs_schema" _ (·.outputsSchema) (fun s v => { s with outputsSchema := v })
      ⟨by simp [stepFields], fun _ _ => rfl, by simp [stepFields, Field.of_frames]⟩

theorem definitionRead {d : WorkflowDefinition} (h : Spelled (definitionTypes.map (·.1)) members)
    (hok : decodeMembers true (definitionFields true) .zero members = .ok d) :
    DefinitionRead members d := by
  rw [← definitionFields_types.names] at h
  have lens : ∀ {α : Type} {name decode} {get : WorkflowDefinition → α} {set},
      Lens (definitionFields true) name decode get set →
        Reads decode (get .zero) (GoMap.last members name) (get d) :=
    fun hlens => hlens.reads (.inl rfl) h hok
  constructor
  · exact @lens _ "id" _ (·.id) (fun d v => { d with id := v })
      ⟨by simp [definitionFields], fun _ _ => rfl, by simp [definitionFields, Field.of_frames]⟩
  · exact @lens _ "name" _ (·.name) (fun d v => { d with name := v })
      ⟨by simp [definitionFields], fun _ _ => rfl, by simp [definitionFields, Field.of_frames]⟩
  · exact @lens _ "autoStartNextWorkflow" _ (·.autoStartNextWorkflow) (fun d v => { d with autoStartNextWorkflow := v })
      ⟨by simp [definitionFields], fun _ _ => rfl, by simp [definitionFields, Field.of_frames]⟩
  · exact @lens _ "nextWorkflowId" _ (·.nextWorkflowId) (fun d v => { d with nextWorkflowId := v })
      ⟨by simp [definitionFields], fun _ _ => rfl, by simp [definitionFields, Field.of_frames]⟩
  · exact @lens _ "steps" _ (·.steps) (fun d v => { d with steps := v })
      ⟨by simp [definitionFields], fun _ _ => rfl, by simp [definitionFields, Field.of_frames]⟩
  · exact @lens _ "input_schema" _ (·.inputSchema) (fun d v => { d with inputSchema := v })
      ⟨by simp [definitionFields], fun _ _ => rfl, by simp [definitionFields, Field.of_frames]⟩

end Reads

end Rochallor
