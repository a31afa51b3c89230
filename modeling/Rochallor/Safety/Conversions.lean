import Rochallor.Grpc.EngineServer

/-! # What the gRPC conversions keep

    `protoDefToInternal` passes over what it cannot read: a malformed schema
    counts as none, and a value without a JSON form becomes one that has one.
    `internalDefToProto` writes neither steps nor metadata nor chaining.
-/

namespace Rochallor.Grpc

/-! ## What is malformed -/

/-- The schema is refused by `structToSchema`. -/
def malformedSchema (s : Option Struct) : Bool :=
  !(structToSchema s).isOk

/-- The value has no JSON form. -/
def PbValue.malformed (v : PbValue) : Bool :=
  !v.marshalJSON.isOk

/-- The values a step embeds. -/
def WorkflowStep.values (ps : WorkflowStep) : List PbValue :=
  ps.transformations.map (·.2) ++
    (ps.decisionTable.map fun dt => dt.rules.flatMap fun r => r.outputs.map (·.2)).getD []

/-- A schema or a value that the definition embeds is malformed. -/
def WorkflowDefinition.Malformed (p : WorkflowDefinition) : Prop :=
  malformedSchema p.inputSchema = true ∨
    ∃ ps ∈ p.steps, malformedSchema ps.outputsSchema = true ∨ ∃ v ∈ ps.values, v.malformed = true

/-! ## What it is read as -/

/-- A schema, unless it is malformed. -/
def lenientSchema (s : Option Struct) : Option Struct :=
  if malformedSchema s then none else s

mutual

/-- The well-formed value that the value is read as. -/
def PbValue.lenient : PbValue → PbValue
  | .unset | .nullValue => .nullValue
  | .numberValue (.finite q) => .numberValue (.finite q)
  | .numberValue .posInf => .stringValue "Infinity"
  | .numberValue .negInf => .stringValue "-Infinity"
  | .numberValue .nan => .stringValue "NaN"
  | .stringValue s => .stringValue s
  | .boolValue b => .boolValue b
  | .structValue fields => .structValue (lenientFields fields)
  | .listValue values => .listValue (lenientValues values)

def lenientFields : List (String × PbValue) → List (String × PbValue)
  | [] => []
  | (k, v) :: rest => (k, v.lenient) :: lenientFields rest

def lenientValues : List PbValue → List PbValue
  | [] => []
  | v :: rest => v.lenient :: lenientValues rest

end

/-- The values of a map, read leniently. -/
def lenientMap (m : GoMap PbValue) : GoMap PbValue :=
  m.map fun e => (e.1, e.2.lenient)

def DecisionTableRule.lenient (pr : DecisionTableRule) : DecisionTableRule :=
  { pr with outputs := lenientMap pr.outputs }

def DecisionTable.lenient (dt : DecisionTable) : DecisionTable :=
  { dt with rules := dt.rules.map DecisionTableRule.lenient }

def WorkflowStep.lenient (ps : WorkflowStep) : WorkflowStep :=
  { ps with
    transformations := lenientMap ps.transformations
    decisionTable := ps.decisionTable.map DecisionTable.lenient
    outputsSchema := lenientSchema ps.outputsSchema }

/-- The definition without what is malformed in it. -/
def WorkflowDefinition.lenient (p : WorkflowDefinition) : WorkflowDefinition :=
  { p with
    steps := p.steps.map WorkflowStep.lenient
    inputSchema := lenientSchema p.inputSchema }

/-! ## Values -/

mutual

theorem asInterface_lenient : ∀ v : PbValue, v.lenient.asInterface = v.asInterface
  | .unset | .nullValue => rfl
  | .numberValue (.finite _) => rfl
  | .numberValue .posInf => rfl
  | .numberValue .negInf => rfl
  | .numberValue .nan => rfl
  | .stringValue _ => rfl
  | .boolValue _ => rfl
  | .structValue fields => by
    rw [PbValue.lenient, PbValue.asInterface, PbValue.asInterface,
      fieldsAsInterface_lenient fields]
  | .listValue values => by
    rw [PbValue.lenient, PbValue.asInterface, PbValue.asInterface,
      valuesAsInterface_lenient values]

theorem fieldsAsInterface_lenient :
    ∀ fields, fieldsAsInterface (lenientFields fields) = fieldsAsInterface fields
  | [] => rfl
  | (k, v) :: rest => by
    rw [lenientFields, fieldsAsInterface, fieldsAsInterface, asInterface_lenient v,
      fieldsAsInterface_lenient rest]

theorem valuesAsInterface_lenient :
    ∀ values, valuesAsInterface (lenientValues values) = valuesAsInterface values
  | [] => rfl
  | v :: rest => by
    rw [lenientValues, valuesAsInterface, valuesAsInterface, asInterface_lenient v,
      valuesAsInterface_lenient rest]

end

mutual

theorem lenient_ok : ∀ v : PbValue, ∃ j, v.lenient.marshalJSON = .ok j
  | .unset | .nullValue => ⟨_, rfl⟩
  | .numberValue (.finite _) => ⟨_, rfl⟩
  | .numberValue .posInf => ⟨_, rfl⟩
  | .numberValue .negInf => ⟨_, rfl⟩
  | .numberValue .nan => ⟨_, rfl⟩
  | .stringValue _ => ⟨_, rfl⟩
  | .boolValue _ => ⟨_, rfl⟩
  | .structValue fields => by
    obtain ⟨ms, hms⟩ := lenientFields_ok fields
    exact ⟨.obj ms, by rw [PbValue.lenient, PbValue.marshalJSON, hms]; rfl⟩
  | .listValue values => by
    obtain ⟨js, hjs⟩ := lenientValues_ok values
    exact ⟨.arr js, by rw [PbValue.lenient, PbValue.marshalJSON, hjs]; rfl⟩

theorem lenientFields_ok : ∀ fields, ∃ ms, marshalFields (lenientFields fields) = .ok ms
  | [] => ⟨[], rfl⟩
  | (k, v) :: rest => by
    obtain ⟨j, hj⟩ := lenient_ok v
    obtain ⟨ms, hms⟩ := lenientFields_ok rest
    exact ⟨(k, j) :: ms, by rw [lenientFields, marshalFields, hj, hms]; rfl⟩

theorem lenientValues_ok : ∀ values, ∃ js, marshalValues (lenientValues values) = .ok js
  | [] => ⟨[], rfl⟩
  | v :: rest => by
    obtain ⟨j, hj⟩ := lenient_ok v
    obtain ⟨js, hjs⟩ := lenientValues_ok rest
    exact ⟨j :: js, by rw [lenientValues, marshalValues, hj, hjs]; rfl⟩

end

theorem lenient_not_malformed (v : PbValue) : v.lenient.malformed = false := by
  obtain ⟨j, hj⟩ := lenient_ok v
  rw [PbValue.malformed, hj]
  rfl

theorem rawMessages_lenient (m : GoMap PbValue) : rawMessages (lenientMap m) = rawMessages m := by
  rw [rawMessages, lenientMap, List.filterMap_map]
  refine List.filterMap_congr fun e _ => ?_
  show e.2.lenient.asInterface.json.map (e.1, ·) = _
  rw [asInterface_lenient]

/-! ## Schemas -/

/-- A malformed schema counts as none. -/
theorem structToSchema_lenient (s : Option Struct) :
    (structToSchema (lenientSchema s)).toOption.join = (structToSchema s).toOption.join := by
  rw [lenientSchema]
  by_cases h : malformedSchema s = true
  · rw [if_pos h]
    cases hs : structToSchema s with
    | error e => rfl
    | ok sc =>
      rw [malformedSchema, hs] at h
      cases h
  · rw [if_neg h]

theorem lenientSchema_not_malformed (s : Option Struct) :
    malformedSchema (lenientSchema s) = false := by
  rw [lenientSchema]
  by_cases h : malformedSchema s = true
  · rw [if_pos h]
    rfl
  · rw [if_neg h]
    exact Bool.not_eq_true _ ▸ h

/-! ## Definitions -/

theorem ruleToInternal_lenient (pr : DecisionTableRule) :
    ruleToInternal pr.lenient = ruleToInternal pr := by
  unfold ruleToInternal
  show Rochallor.DecisionTableRule.mk pr.conditions (rawMessages (lenientMap pr.outputs)) = _
  rw [rawMessages_lenient]

theorem stepToInternal_lenient (ps : WorkflowStep) :
    stepToInternal ps.lenient = stepToInternal ps := by
  have htable : (ps.lenient.decisionTable.map fun dt =>
      (⟨dt.rules.map ruleToInternal⟩ : Rochallor.DecisionTable)) =
      ps.decisionTable.map fun dt => ⟨dt.rules.map ruleToInternal⟩ := by
    show ((ps.decisionTable.map DecisionTable.lenient).map _) = _
    cases ps.decisionTable with
    | none => rfl
    | some dt =>
      show some (Rochallor.DecisionTable.mk ((dt.rules.map DecisionTableRule.lenient).map
        ruleToInternal)) = _
      rw [List.map_map]
      exact congrArg some (congrArg Rochallor.DecisionTable.mk
        (List.map_congr_left fun pr _ => ruleToInternal_lenient pr))
  have htransformations : rawMessages ps.lenient.transformations =
      rawMessages ps.transformations := rawMessages_lenient _
  have hschema : (structToSchema ps.lenient.outputsSchema).toOption.join =
      (structToSchema ps.outputsSchema).toOption.join := structToSchema_lenient _
  unfold stepToInternal
  rw [htable, htransformations, hschema]
  rfl

/-- The conversion passes over what is malformed. -/
theorem protoDefToInternal_lenient (p : WorkflowDefinition) :
    protoDefToInternal p.lenient = protoDefToInternal p := by
  have hsteps : p.lenient.steps.mapM stepToInternal = p.steps.mapM stepToInternal := by
    show (p.steps.map WorkflowStep.lenient).mapM stepToInternal = _
    induction p.steps with
    | nil => rfl
    | cons ps rest ih =>
      rw [List.map_cons, List.mapM_cons, List.mapM_cons, stepToInternal_lenient, ih]
  have hschema : (structToSchema p.lenient.inputSchema).toOption.join =
      (structToSchema p.inputSchema).toOption.join := structToSchema_lenient _
  unfold protoDefToInternal
  rw [hsteps, hschema]
  rfl

theorem lenient_values {ps : WorkflowStep} {v : PbValue} (h : v ∈ ps.lenient.values) :
    ∃ w : PbValue, v = w.lenient := by
  rcases List.mem_append.mp h with h | h
  · obtain ⟨e, he, rfl⟩ := List.mem_map.mp h
    obtain ⟨e', -, rfl⟩ := List.mem_map.mp he
    exact ⟨e'.2, rfl⟩
  · cases hdt : ps.decisionTable with
    | none =>
      rw [WorkflowStep.lenient, hdt] at h
      cases h
    | some dt =>
      rw [WorkflowStep.lenient, hdt] at h
      obtain ⟨r, hr, hv⟩ := List.mem_flatMap.mp h
      obtain ⟨r', -, rfl⟩ := List.mem_map.mp hr
      obtain ⟨e, he, rfl⟩ := List.mem_map.mp hv
      obtain ⟨e', -, rfl⟩ := List.mem_map.mp he
      exact ⟨e'.2, rfl⟩

theorem lenient_wellFormed (p : WorkflowDefinition) : ¬ p.lenient.Malformed := by
  rintro (h | ⟨ps, hps, h | ⟨v, hv, h⟩⟩)
  · exact Bool.false_ne_true ((lenientSchema_not_malformed _).symm.trans h)
  · obtain ⟨ps', -, rfl⟩ := List.mem_map.mp hps
    exact Bool.false_ne_true ((lenientSchema_not_malformed _).symm.trans h)
  · obtain ⟨ps', -, rfl⟩ := List.mem_map.mp hps
    obtain ⟨w, rfl⟩ := lenient_values hv
    exact Bool.false_ne_true ((lenient_not_malformed w).symm.trans h)

/-! ## What is read back -/

/-- Without steps an upload is refused. -/
theorem steps_of_upload {p : WorkflowDefinition} {d : Rochallor.WorkflowDefinition}
    (h : uploadDefinition (some p) = some (.ok d)) : p.steps ≠ [] := by
  intro hnil
  obtain ⟨d', hd', hvalid⟩ := Option.map_eq_some_iff.mp h
  have hsteps : d'.steps = [] := by
    rw [protoDefToInternal, hnil] at hd'
    cases hd'
    rfl
  have hrefused : "steps must not be empty" ∈ validate d' := by
    simp [validate, validateTopLevel, hsteps]
  rw [if_neg (by simpa using List.ne_nil_of_mem hrefused)] at hvalid
  cases hvalid

/-- An accepted definition is never read back as it was uploaded: it has steps,
    and none are written.  What is malformed in a definition never makes the
    upload fail: the definition is taken as one without it. -/
theorem definition_not_carried (p : WorkflowDefinition) (d : Rochallor.WorkflowDefinition)
    (hupload : uploadDefinition (some p) = some (.ok d)) :
    (internalDefToProto d ≠ p ∧ (internalDefToProto d).steps = [] ∧ p.steps ≠ []) ∧
      uploadDefinition (some p.lenient) = some (.ok d) ∧ ¬ p.lenient.Malformed := by
  refine ⟨?_, ?_, lenient_wellFormed p⟩
  · have hsteps := steps_of_upload hupload
    refine ⟨?_, rfl, hsteps⟩
    rintro rfl
    exact hsteps rfl
  · rw [← hupload]
    show (protoDefToInternal p.lenient).map _ = (protoDefToInternal p).map _
    rw [protoDefToInternal_lenient]

/-- A service task that pays, with this input schema. -/
def payMessage (inputSchema : Option Struct) : WorkflowDefinition where
  id := "pay"
  name := "pay"
  steps := [
    { id := "charge", name := "charge", type := 1, jobType := "charge", nextStep := "end" },
    { id := "end", name := "end", type := 8 }]
  inputSchema := inputSchema

/-- Properties that are not an object. -/
def propertiesNumber : Struct := [("properties", .numberValue (.finite 5))]

/-- Both definitions are accepted. -/
theorem payMessage_uploaded (p : WorkflowDefinition)
    (h : p = payMessage none ∨ p = payMessage (some propertiesNumber)) :
    ∃ d, uploadDefinition (some p) = some (.ok d) := by
  have hok : ∀ r : Option (Except String Rochallor.WorkflowDefinition),
      r.map Except.isOk = some true → ∃ d, r = some (.ok d) := by
    rintro (_ | _ | d) hr
    · cases hr
    · cases hr
    · exact ⟨d, rfl⟩
  rcases h with rfl | rfl
  · exact hok _ (by decide +kernel)
  · exact hok _ (by decide +kernel)

theorem definition_not_carried_pay :
    ∃ d, uploadDefinition (some (payMessage none)) = some (.ok d) ∧
      internalDefToProto d ≠ payMessage none := by
  obtain ⟨d, hd⟩ := payMessage_uploaded (payMessage none) (.inl rfl)
  exact ⟨d, hd, (definition_not_carried (payMessage none) d hd).1.1⟩

/-- The steps of an accepted definition are not written, and a definition with
    a malformed schema is accepted. -/
theorem pay_not_carried :
    (¬ ∀ (p : WorkflowDefinition) (d : Rochallor.WorkflowDefinition),
      uploadDefinition (some p) = some (.ok d) → internalDefToProto d = p) ∧
    ¬ ∀ (p : WorkflowDefinition) (d : Rochallor.WorkflowDefinition),
      uploadDefinition (some p) = some (.ok d) → ¬ p.Malformed := by
  refine ⟨fun h => ?_, fun h => ?_⟩
  · obtain ⟨d, hd⟩ := payMessage_uploaded (payMessage none) (.inl rfl)
    have hsteps := congrArg WorkflowDefinition.steps (h _ d hd)
    cases hsteps
  · obtain ⟨d, hd⟩ := payMessage_uploaded (payMessage (some propertiesNumber)) (.inr rfl)
    exact h _ d hd (.inl (by decide +kernel))

end Rochallor.Grpc
