import Rochallor.Definition.Parser

/-! # Writing, storing and reading a definition

    A definition that is written, kept in a `JSONB` column and read again comes
    back with every map in JSONB order.  For most maps of a definition the
    order means nothing; the expressions of a `DECISION` step are the
    exception.
-/

namespace Rochallor

/-! ## The form that comes back -/

def BoundaryEvent.stored (e : BoundaryEvent) : BoundaryEvent :=
  { e with type := .ofText e.type.text }

def DecisionTableRule.stored (r : DecisionTableRule) : DecisionTableRule where
  conditions := r.conditions.stored
  outputs := r.outputs.stored.map fun o => (o.1, o.2.jsonb)

def DecisionTable.stored (t : DecisionTable) : DecisionTable where
  rules := t.rules.map (·.stored)

def Schema.stored (s : Schema) : Schema where
  properties := s.properties.stored.map fun p => (p.1, .ofText p.2.text)
  required := s.required

/-- The branches come back in the order of their expressions as JSONB keys. -/
def ConditionalBranches.stored (c : ConditionalBranches) : ConditionalBranches :=
  let members := sortMembers (GoMap.overlay [] (c.exprs.map fun e => (e, c.target e)))
  ⟨members.map (·.1), members⟩

def WorkflowStep.stored (s : WorkflowStep) : WorkflowStep :=
  { s with
    type := .ofText s.type.text
    conditionalNextSteps := s.conditionalNextSteps.map (·.stored)
    transformations := s.transformations.stored.map fun t => (t.1, t.2.jsonb)
    decisionTable := s.decisionTable.map (·.stored)
    boundaryEvents := s.boundaryEvents.map (·.stored)
    outputsSchema := s.outputsSchema.map (·.stored) }

def WorkflowDefinition.stored (d : WorkflowDefinition) : WorkflowDefinition :=
  { d with
    steps := d.steps.map (·.stored)
    metadata := d.metadata.stored.map fun m => (m.1, m.2.jsonb)
    inputSchema := d.inputSchema.map (·.stored) }

/-- The numbers of the definition are Go `int`s. -/
def WorkflowDefinition.InRange (d : WorkflowDefinition) : Prop :=
  goInt d.version = true ∧ ∀ s ∈ d.steps, goInt s.retryCount = true

/-! ## Reading back -/

theorem reads_text {α : Type} (ofText : String → α) (text : α → String) (old : α) (t : String) :
    Reads (decodeText ofText text) old (some (Json.str t).jsonb) (ofText t) where
  present := by
    rintro j ⟨rfl⟩
    rfl
  absent := by simp

/-- A map of raw messages. -/
theorem reads_raw (m : GoMap Json) : Reads (decodeMap .ok) [] ((omitMap m).map Json.jsonb)
    (m.stored.map fun x => (x.1, x.2.jsonb)) := by
  have h : Reads (decodeMap .ok) [] ((omitMap (m.map fun x => (x.1, id x.2))).map Json.jsonb)
      (m.stored.map fun x => (x.1, x.2.jsonb)) := reads_omitMap (fun _ => rfl) m
  simpa using h

theorem decode_boundaryEvent (e : BoundaryEvent) :
    decodeStruct false boundaryEventFields "definition.BoundaryEvent" .zero e.marshal.jsonb =
      .ok e.stored := by
  have hkeys : sortKeys ["type", "duration", "interrupting", "targetStepId"] =
      ["type", "duration", "interrupting", "targetStepId"] := by
    decide +kernel
  rw [BoundaryEvent.marshal, jsonb_membersOf (by decide), hkeys, decodeStruct]
  rw [decodeMembers_field rfl rfl (reads_text _ _ _ e.type.text)]
  rw [decodeMembers_field rfl rfl (reads_omitString e.duration)]
  rw [decodeMembers_field rfl rfl (reads_bool _ e.interrupting)]
  rw [decodeMembers_field rfl rfl (reads_string _ e.targetStepId)]
  rfl

theorem decode_rule (r : DecisionTableRule) :
    decodeStruct false ruleFields "definition.DecisionTableRule" ⟨[], []⟩ r.marshal.jsonb =
      .ok r.stored := by
  have hkeys : sortKeys ["when", "outputs"] = ["when", "outputs"] := by decide +kernel
  have hstr : ∀ v : String, decodeString "" (Json.str v).jsonb = .ok (id v) := fun _ => rfl
  have hwhen : Reads (decodeMap (decodeString "")) []
      ((omitMap (r.conditions.map fun c => (c.1, .str c.2))).map Json.jsonb)
      (r.conditions.stored.map fun c => (c.1, id c.2)) := reads_omitMap hstr _
  rw [DecisionTableRule.marshal, jsonb_membersOf (by decide), hkeys, decodeStruct]
  rw [decodeMembers_field rfl rfl hwhen]
  rw [decodeMembers_field rfl rfl (reads_raw r.outputs)]
  simp [decodeMembers, membersOf, DecisionTableRule.stored]

theorem decode_decisionTable (t : DecisionTable) :
    decodeStruct false (decisionTableFields false) "definition.DecisionTable" ⟨[]⟩
      t.marshal.jsonb = .ok t.stored := by
  have hrules : Reads (decodeSlice (decodeStruct false ruleFields "definition.DecisionTableRule")
      ⟨[], []⟩) [] (some (Json.arr (t.rules.map (·.marshal))).jsonb) (t.rules.map (·.stored)) :=
    reads_items fun r _ => decode_rule r
  have hmembers : DecisionTable.marshal t = .obj (membersOf ["rules"] fun _ =>
    some (.arr (t.rules.map (·.marshal)))) := rfl
  have hkeys : sortKeys ["rules"] = ["rules"] := by decide +kernel
  rw [hmembers, jsonb_membersOf (by decide), hkeys, decodeStruct]
  rw [decodeMembers_field rfl rfl hrules]
  rfl

theorem decode_property (p : SchemaType) :
    decodeProperty false (Json.obj [("type", .str p.text)]).jsonb = .ok (.ofText p.text) := by
  have hmembers : (Json.obj [("type", .str p.text)]) =
    .obj (membersOf ["type"] fun _ => some (.str p.text)) := rfl
  have hkeys : sortKeys ["type"] = ["type"] := by decide +kernel
  rw [hmembers, jsonb_membersOf (by decide), hkeys, decodeProperty, decodeStruct]
  rw [decodeMembers_field rfl rfl (reads_text _ _ _ p.text)]
  rfl

theorem decode_schema (s : Schema) :
    decodeStruct false (schemaFields false) "definition.Schema" ⟨[], []⟩ s.marshal.jsonb =
      .ok s.stored := by
  have hkeys : sortKeys ["properties", "required"] = ["required", "properties"] := by
    decide +kernel
  have hrequired : Reads (decodeSlice decodeString "") []
      ((omitItems (s.required.map .str)).map Json.jsonb) (s.required.map id) :=
    reads_omitItems fun _ _ => rfl
  have hproperties : Reads (decodeMap (decodeProperty false)) [] (some (Json.obj (sortByKey
      (s.properties.map fun p => (p.1, .obj [("type", .str p.2.text)])))).jsonb)
      (s.properties.stored.map fun p => (p.1, .ofText p.2.text)) := reads_map decode_property _
  rw [Schema.marshal, jsonb_membersOf (by decide), hkeys, decodeStruct]
  rw [decodeMembers_field rfl rfl hrequired]
  rw [decodeMembers_field rfl rfl hproperties]
  simp [decodeMembers, membersOf, Schema.stored]

theorem reads_schema (o : Option Schema) :
    Reads (decodeSchema false) none ((o.map (·.marshal)).map Json.jsonb) (o.map (·.stored)) :=
  reads_pointer decode_schema (fun _ => ⟨_, rfl⟩) o

/-- The expressions are appended in the order of the members. -/
theorem decodeBranches_map {members : List (String × StepId)} (c : ConditionalBranches) :
    decodeBranches c (members.map fun m => (m.1, .str m.2)) =
      .ok ⟨c.exprs ++ members.map (·.1), GoMap.overlay c.targets members⟩ := by
  induction members generalizing c with
  | nil => simp [decodeBranches, GoMap.overlay]
  | cons m rest ih =>
    simp only [List.map_cons, decodeBranches, decodeString]
    rw [ih]
    simp [GoMap.overlay]

theorem marshalJSON_jsonb (c : ConditionalBranches) :
    c.marshalJSON.jsonb = .obj (c.stored.targets.map fun m => (m.1, .str m.2)) := by
  have hmap : (c.exprs.map fun key => ((key, .str (c.target key)) : String × Json)) =
      (c.exprs.map fun key => (key, c.target key)).map fun m => (m.1, Json.str m.2) := by
    rw [List.map_map]
    rfl
  rw [ConditionalBranches.marshalJSON, hmap, Json.jsonb, jsonbMembers_eq_map, List.map_map]
  unfold ConditionalBranches.stored
  simp only [map_sortMembers Json.str, map_overlay Json.str]
  rfl

theorem unmarshal_branches (old c : ConditionalBranches) :
    old.unmarshalJSON c.marshalJSON.jsonb = .ok c.stored := by
  rw [marshalJSON_jsonb, ConditionalBranches.unmarshalJSON, decodeBranches_map]
  have hnd : (c.stored.targets.map (·.1)).Nodup := sortMembers_overlay_nodup _
  rw [overlay_of_nodup hnd]
  rfl

theorem decode_step {s : WorkflowStep} (hs : goInt s.retryCount = true) :
    decodeStruct false (stepFields false) "definition.WorkflowStep" .zero s.marshal.jsonb =
      .ok s.stored := by
  have hkeys : sortKeys WorkflowStep.names = ["id", "name", "type", "jobType", "joinStep",
      "nextStep", "hitPolicy", "retryCount", "description", "decisionTable", "delegateClass",
      "boundaryEvents", "outputs_schema", "transformations", "parallelNextSteps",
      "conditionalNextSteps"] := by
    decide +kernel
  have htable : Reads (decodePointer (decodeStruct false (decisionTableFields false)
      "definition.DecisionTable") ⟨[]⟩) none ((s.decisionTable.map (·.marshal)).map Json.jsonb)
      (s.decisionTable.map (·.stored)) := reads_pointer decode_decisionTable (fun _ => ⟨_, rfl⟩) _
  have hevents : Reads (decodeSlice (decodeStruct false boundaryEventFields
      "definition.BoundaryEvent") .zero) []
      ((omitItems (s.boundaryEvents.map (·.marshal))).map Json.jsonb)
      (s.boundaryEvents.map (·.stored)) := reads_omitItems fun e _ => decode_boundaryEvent e
  have hparallel : Reads (decodeSlice decodeString "") []
      ((omitItems (s.parallelNextSteps.map .str)).map Json.jsonb) (s.parallelNextSteps.map id) :=
    reads_omitItems fun _ _ => rfl
  have hbranches : Reads (decodePointer ConditionalBranches.unmarshalJSON ⟨[], []⟩) none
      ((s.conditionalNextSteps.map (·.marshalJSON)).map Json.jsonb)
      (s.conditionalNextSteps.map (·.stored)) :=
    reads_pointer (unmarshal_branches _) (fun c => ⟨_, marshalJSON_jsonb c⟩) _
  rw [WorkflowStep.marshal, jsonb_membersOf (by decide), hkeys, decodeStruct]
  rw [decodeMembers_field rfl rfl (reads_string _ s.id)]
  rw [decodeMembers_field rfl rfl (reads_string _ s.name)]
  rw [decodeMembers_field rfl rfl (reads_text _ _ _ s.type.text)]
  rw [decodeMembers_field rfl rfl (reads_omitString s.jobType)]
  rw [decodeMembers_field rfl rfl (reads_omitString s.joinStep)]
  rw [decodeMembers_field rfl rfl (reads_omitString s.nextStep)]
  rw [decodeMembers_field rfl rfl (reads_omitString s.hitPolicy)]
  rw [decodeMembers_field rfl rfl (reads_omitInt hs)]
  rw [decodeMembers_field rfl rfl (reads_omitString s.description)]
  rw [decodeMembers_field rfl rfl htable]
  rw [decodeMembers_field rfl rfl (reads_omitString s.delegateClass)]
  rw [decodeMembers_field rfl rfl hevents]
  rw [decodeMembers_field rfl rfl (reads_schema s.outputsSchema)]
  rw [decodeMembers_field rfl rfl (reads_raw s.transformations)]
  rw [decodeMembers_field rfl rfl hparallel]
  rw [decodeMembers_field rfl rfl hbranches]
  simp [decodeMembers, membersOf, WorkflowStep.stored]

/-- The round trip. -/
theorem decode_definition {d : WorkflowDefinition} (hd : d.InRange) :
    decodeDefinition false d.marshal.jsonb = .ok d.stored := by
  have hkeys : sortKeys WorkflowDefinition.names = ["id", "name", "steps", "version", "metadata",
      "description", "input_schema", "nextWorkflowId", "autoStartNextWorkflow"] := by
    decide +kernel
  have hsteps : Reads (decodeSlice (decodeStruct false (stepFields false)
      "definition.WorkflowStep") .zero) [] (some (Json.arr (d.steps.map (·.marshal))).jsonb)
      (d.steps.map (·.stored)) := reads_items fun s hs => decode_step (hd.2 s hs)
  rw [WorkflowDefinition.marshal, jsonb_membersOf (by decide), hkeys, decodeDefinition, decodeStruct]
  rw [decodeMembers_field rfl rfl (reads_string _ d.id)]
  rw [decodeMembers_field rfl rfl (reads_string _ d.name)]
  rw [decodeMembers_field rfl rfl hsteps]
  rw [decodeMembers_field rfl rfl (reads_omitInt hd.1)]
  rw [decodeMembers_field rfl rfl (reads_raw d.metadata)]
  rw [decodeMembers_field rfl rfl (reads_omitString d.description)]
  rw [decodeMembers_field rfl rfl (reads_schema d.inputSchema)]
  rw [decodeMembers_field rfl rfl (reads_omitString d.nextWorkflowId)]
  rw [decodeMembers_field rfl rfl (reads_omitBool d.autoStartNextWorkflow)]
  rfl

/-! ## Ranges -/

theorem decodeStep_inRange {strict : Bool} {s s' : WorkflowStep} {j : Json}
    (hs : goInt s.retryCount = true)
    (h : decodeStruct strict (stepFields strict) "definition.WorkflowStep" s j = .ok s') :
    goInt s'.retryCount = true := by
  refine decodeStruct_keeps (P := fun s => goInt s.retryCount = true) ?_ hs h
  intro f hf s j s' hs hdecode
  simp only [stepFields, List.mem_cons, List.not_mem_nil, or_false] at hf
  -- all fields but one leave the retry count alone
  rcases hf with rfl | rfl | rfl | rfl | rfl | rfl | rfl | rfl | rfl | rfl | rfl | rfl | rfl |
    rfl | rfl | rfl
  case inr.inr.inr.inr.inr.inr.inr.inr.inr.inr.inr.inr.inr.inl =>
    obtain ⟨n, hn, hdecode⟩ := bind_eq_ok hdecode
    cases hdecode
    exact decodeInt_inRange hs hn
  all_goals
    obtain ⟨v, _, hdecode⟩ := bind_eq_ok hdecode
    cases hdecode
    exact hs

theorem decodeDefinition_inRange {strict : Bool} {j : Json} {d : WorkflowDefinition}
    (h : decodeDefinition strict j = .ok d) : d.InRange := by
  have hzero : WorkflowDefinition.zero.InRange := ⟨by decide, by simp [WorkflowDefinition.zero]⟩
  refine decodeStruct_keeps ?_ hzero h
  intro f hf d j d' hd hdecode
  simp only [definitionFields, List.mem_cons, List.not_mem_nil, or_false] at hf
  rcases hf with rfl | rfl | rfl | rfl | rfl | rfl | rfl | rfl | rfl
  case inr.inl =>
    obtain ⟨n, hn, hdecode⟩ := bind_eq_ok hdecode
    cases hdecode
    exact ⟨decodeInt_inRange hd.1 hn, hd.2⟩
  case inr.inr.inr.inr.inr.inr.inl =>
    obtain ⟨steps, hsteps, hdecode⟩ := bind_eq_ok hdecode
    cases hdecode
    exact ⟨hd.1, decodeSlice_keeps (P := fun s => goInt s.retryCount = true)
      (fun _ _ _ hs h => decodeStep_inRange hs h) (by decide) hd.2 hsteps⟩
  all_goals
    obtain ⟨v, _, hdecode⟩ := bind_eq_ok hdecode
    cases hdecode
    exact hd

theorem parse_inRange {doc : Json} {d : WorkflowDefinition} (h : parse doc = .ok d) :
    d.InRange := by
  unfold parse at h
  split at h
  · rename_i d' hd
    cases h
    exact decodeDefinition_inRange hd
  · cases h

end Rochallor
