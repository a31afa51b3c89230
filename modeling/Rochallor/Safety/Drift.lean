import Rochallor.Definition.Reachability
import Rochallor.Definition.Restored
import Rochallor.Definition.Shapes
import Rochallor.Modeller.Accepted

/-! # The drift guard

    `workflow-modeller/tests/drift.test.ts`: the editor must never accept
    something the engine rejects.  The modeller passes through what its schema
    does not list, and leaves the job type of a service task open, so it does
    accept such documents.  Here are the rules of the engine that have no
    counterpart in the modeller: a document that the modeller accepts, and that
    spells the names, is accepted by the engine exactly if it keeps these.
-/

namespace Rochallor

open Modeller (Checked Follows allOutgoing outgoingTargets zStep)
open Relation (ReflTransGen)

/-! ## The rules that the modeller does not have -/

structure StepFits (j : Json) : Prop where
  jobType : j.member "type" = .str "SERVICE_TASK" → ∃ t, j.member "jobType" = .str t ∧ t ≠ ""
  decisionTable : j.member "type" ≠ .str "DECISION_TABLE" → j.member "decisionTable" = .null
  outputsSchema : j.member "outputs_schema" ≠ .null →
    j.member "type" = .str "SERVICE_TASK" ∧ SchemaFits (j.member "outputs_schema")

/-- The members are fields of the engine and have their types, and the rules
    about them are kept. -/
structure EngineFits (doc : Json) : Prop where
  types : IsStruct definitionTypes doc
  steps : ∀ j ∈ (doc.member "steps").items, StepFits j
  inputSchema : doc.member "input_schema" ≠ .null → SchemaFits (doc.member "input_schema")

/-! ## Lists that are related -/

theorem exists_of_forall₂ {α β : Type} {R : α → β → Prop} {as : List α} {bs : List β}
    (h : List.Forall₂ R as bs) : (∀ a ∈ as, ∃ b ∈ bs, R a b) ∧ ∀ b ∈ bs, ∃ a ∈ as, R a b := by
  induction h with
  | nil => simp
  | @cons a b as bs hab _ ih =>
    constructor
    · intro x hx
      rcases List.mem_cons.mp hx with rfl | hx
      · exact ⟨b, List.mem_cons_self .., hab⟩
      · obtain ⟨y, hy, hxy⟩ := ih.1 x hx
        exact ⟨y, List.mem_cons_of_mem b hy, hxy⟩
    · intro y hy
      rcases List.mem_cons.mp hy with rfl | hy
      · exact ⟨a, List.mem_cons_self .., hab⟩
      · obtain ⟨x, hx, hxy⟩ := ih.2 y hy
        exact ⟨x, List.mem_cons_of_mem a hx, hxy⟩

/-! ## A step -/

section Step

variable {md : Modeller.WorkflowDefinition} {d : WorkflowDefinition} {j : Json} {ms : Modeller.Step}
  {s : WorkflowStep}

/-- The two readings of one step. -/
structure BothRead (j : Json) (ms : Modeller.Step) (s : WorkflowStep) : Prop where
  spelled : StepSpelled j
  modeller : zStep j = some ms
  engine : StepRead j.members s
  alike : StepAlike ms s

namespace BothRead

/-- The type that both read is in the document. -/
theorem type_iff (h : BothRead j ms s) (t : String) :
    s.type = .ofText t ↔ j.member "type" = .str t := by
  obtain ⟨members, text, rfl, htype, -, -, hv, -⟩ := zStep_spec h.modeller
  obtain ⟨o, ho, hs⟩ := required_eq_some.mp htype
  obtain rfl := zString_eq_some.mp hs
  have hmember : Json.member (.obj members) "type" = .str text := member_of_last ho
  rw [h.alike.type, zVariant_type hv, hmember, Json.str.injEq]
  constructor
  · intro heq
    have htexts := congrArg StepType.text heq
    rwa [StepType.text_ofText, StepType.text_ofText] at htexts
  · exact congrArg StepType.ofText

/-- What the modeller keeps of a step, without reading it. -/
theorem extra (h : BothRead j ms s) {f : String} (hf : f ∉ Modeller.knownStepKeys ms.type) :
    Modeller.prop ms.extra f = GoMap.last j.members f := by
  obtain ⟨members, text, rfl, -, -, -, hv, hextra⟩ := zStep_spec h.modeller
  have htype : ms.type = .ofText text := zVariant_type hv
  rw [htype] at hf
  rw [hextra]
  exact Modeller.prop_passthrough hf

/-- A job type is a text of the document. -/
theorem jobType_iff (h : BothRead j ms s) :
    s.jobType ≠ "" ↔ ∃ t, j.member "jobType" = .str t ∧ t ≠ "" := by
  have htext := text_of_decodeString (h.engine.jobType.member rfl)
  rw [← htext]
  cases j.member "jobType" <;> simp [Json.text]

theorem decisionTable_iff (h : BothRead j ms s) :
    s.decisionTable = none ↔ j.member "decisionTable" = .null :=
  decodePointer_eq_none (h.engine.decisionTable.member rfl)

theorem outputsSchema_iff (h : BothRead j ms s) :
    s.outputsSchema = none ↔ j.member "outputs_schema" = .null :=
  decodePointer_eq_none (h.engine.outputsSchema.member rfl)

/-- Events are read from the document, or there are none. -/
theorem boundaryEvents (h : BothRead j ms s) (hchecked : Checked md) (hms : ms ∈ md.steps)
    {be : BoundaryEvent} (hbe : be ∈ s.boundaryEvents) :
    ∃ me ∈ ms.boundaryEvents, EventAlike me be := by
  have hexternal : ∀ events, Modeller.Step.boundaryEvents ms = events →
      List.Forall₂ EventAlike events s.boundaryEvents → ∃ me ∈ ms.boundaryEvents, EventAlike me be := by
    rintro events rfl hevents
    obtain ⟨i, hlt, rfl⟩ := List.mem_iff_getElem.mp hbe
    exact ⟨_, List.get_mem _ _, hevents.get (hevents.length_eq ▸ hlt) hlt⟩
  have hvariant := h.alike.variant
  cases hkind : ms.type.external with
  | true =>
    unfold Modeller.Step.type at hkind
    unfold Modeller.Step.boundaryEvents at hexternal ⊢
    cases hv : ms.variant with
    | serviceTask =>
      rw [hv] at hvariant hexternal
      exact hexternal _ rfl hvariant.2.2
    | userTask =>
      rw [hv] at hvariant hexternal
      exact hexternal _ rfl hvariant.2
    | wait =>
      rw [hv] at hvariant hexternal
      exact hexternal _ rfl hvariant.2
    | _ =>
      rw [hv] at hkind
      cases hkind
  | false =>
    -- a list of events that is passed through is an error
    have hnone : s.boundaryEvents = [] := by
      have hkept : "boundaryEvents" ∉ Modeller.knownStepKeys ms.type := by
        cases htype : ms.type <;> simp_all [Modeller.knownStepKeys, StepType.external]
      have hno := hchecked.no_boundaryEvents hms hkind
      rw [h.extra hkept] at hno
      have hread := h.engine.boundaryEvents
      cases hlast : GoMap.last j.members "boundaryEvents" with
      | none => exact hread.absent hlast
      | some o =>
        have hdecoded := hread.present o hlast
        cases o with
        | arr items => exact absurd hlast (hno items)
        | null => exact (Except.ok.inj hdecoded).symm
        | _ => cases hdecoded
    rw [hnone] at hbe
    cases hbe

/-- A decision table has no field of another step type. -/
theorem foreignFields (h : BothRead j ms s) (hchecked : Checked md) (hms : ms ∈ md.steps)
    {hitPolicy : String} {nextStep : StepId} {table : Modeller.DecisionTable}
    (hvariant : ms.variant = .decisionTable hitPolicy nextStep table) :
    s.conditionalNextSteps = none ∧ s.transformations = [] ∧ s.parallelNextSteps = [] ∧
      s.joinStep = "" ∧ s.jobType = "" ∧ s.delegateClass = "" ∧ s.retryCount = 0 ∧
      s.boundaryEvents = [] := by
  obtain ⟨-, -, -, hforbidden⟩ := hchecked.decisionTable hms hvariant
  have htype : ms.type = .decisionTable := by
    unfold Modeller.Step.type
    rw [hvariant]
    rfl
  have habsent : ∀ f ∈ Modeller.forbiddenFields, GoMap.last j.members f = none := by
    intro f hf
    have hkept : f ∉ Modeller.knownStepKeys ms.type := by
      rw [htype]
      revert f
      decide
    rw [← h.extra hkept]
    exact hforbidden f hf
  have hengine := h.engine
  exact ⟨hengine.conditionalNextSteps.absent (habsent _ (by decide)),
    hengine.transformations.absent (habsent _ (by decide)),
    hengine.parallelNextSteps.absent (habsent _ (by decide)),
    hengine.joinStep.absent (habsent _ (by decide)), hengine.jobType.absent (habsent _ (by decide)),
    hengine.delegateClass.absent (habsent _ (by decide)),
    hengine.retryCount.absent (habsent _ (by decide)),
    hengine.boundaryEvents.absent (habsent _ (by decide))⟩

/-- What the modeller's paths follow, those of the engine follow too. -/
theorem walkRef (h : BothRead j ms s) {t : StepId} (ht : t ∈ allOutgoing ms) (hne : t ≠ "") :
    WalkRef s t := by
  have halike := h.alike.variant
  have hnext : ∀ next : Option StepId, s.nextStep = next.getD "" → t ∈ Modeller.nextTargets next →
      WalkRef s t := by
    intro next hs hnext
    obtain ⟨heq, -⟩ := Option.filter_eq_some_iff.mp (Option.mem_toList.mp hnext)
    rw [heq] at hs
    obtain rfl : s.nextStep = t := hs
    exact .nextStep hne
  have hsame : s.nextStep = t → WalkRef s t := by
    rintro rfl
    exact .nextStep hne
  rcases List.mem_append.mp ht with ht | ht
  · unfold outgoingTargets at ht
    cases hv : ms.variant with
    | serviceTask nextStep =>
      rw [hv] at halike ht
      exact hnext nextStep halike.1 ht
    | userTask nextStep =>
      rw [hv] at halike ht
      exact hnext nextStep halike.1 ht
    | decision branches =>
      rw [hv] at halike ht
      obtain ⟨c, hc, -, htargets⟩ := halike
      obtain ⟨e, he, rfl⟩ := List.mem_map.mp ((htargets t).mpr ht)
      exact .conditionalNextSteps c hc e he
    | decisionTable hitPolicy nextStep table =>
      rw [hv] at halike ht
      exact hnext (some nextStep) halike.1 ht
    | transformation nextStep transformations =>
      rw [hv] at halike ht
      exact hsame (halike.1.trans (List.mem_singleton.mp ht).symm)
    | wait nextStep events =>
      rw [hv] at halike ht
      exact hsame (halike.1.trans (List.mem_singleton.mp ht).symm)
    | joinGateway nextStep =>
      rw [hv] at halike ht
      exact hsame (Eq.trans halike (List.mem_singleton.mp ht).symm)
    | parallelGateway targets join =>
      rw [hv] at halike ht
      exact .parallelNextSteps t (halike.1 ▸ ht)
    | endStep =>
      rw [hv] at ht
      cases ht
  · obtain ⟨me, hme, rfl⟩ := List.mem_map.mp ht
    obtain ⟨be, hbe, hevent⟩ : ∃ be ∈ s.boundaryEvents, EventAlike me be := by
      unfold Modeller.Step.boundaryEvents at hme
      cases hv : ms.variant with
      | serviceTask =>
        rw [hv] at halike hme
        exact (exists_of_forall₂ halike.2.2).1 me hme
      | userTask =>
        rw [hv] at halike hme
        exact (exists_of_forall₂ halike.2).1 me hme
      | wait =>
        rw [hv] at halike hme
        exact (exists_of_forall₂ halike.2).1 me hme
      | _ =>
        rw [hv] at hme
        cases hme
    rw [← hevent.targetStepId]
    exact .boundaryEvents be hbe

end BothRead

/-! ## The rules of a step -/

section Rules

variable (hchecked : Checked md) (hids : ∀ t ∈ md.steps.map (·.id), (stepByID d t).isSome = true)

include hids in
theorem checkRef_eq_nil {t : StepId} (ht : t ∈ md.steps.map (·.id)) (stepID : StepId)
    (field : String) : checkRef d stepID field t = [] :=
  if_pos (hids t ht)

include hids in
/-- A `nextStep` that may be missing. -/
theorem optionalNextStep_eq_nil {nextStep : Option StepId} (hnext : s.nextStep = nextStep.getD "")
    (hout : ∀ t ∈ Modeller.nextTargets nextStep, t ∈ md.steps.map (·.id)) :
    (if s.nextStep.isEmpty then [] else checkRef d s.id "nextStep" s.nextStep) = [] := by
  by_cases hempty : s.nextStep = ""
  · simp [hempty]
  · rw [if_neg (by simpa using hempty)]
    refine checkRef_eq_nil hids ?_ s.id "nextStep"
    cases nextStep with
    | none => exact absurd hnext hempty
    | some t =>
      have hsame : s.nextStep = t := hnext
      exact hout s.nextStep (hsame ▸ Checked.mem_nextTargets (hsame ▸ hempty))

include hchecked hids in
theorem requireNextStep_eq_nil (hnext : s.nextStep ∈ md.steps.map (·.id)) (label : String) :
    requireNextStep d s label = [] := by
  have hne : ¬ s.nextStep.isEmpty = true := by simpa using hchecked.id_ne_empty hnext
  unfold requireNextStep
  rw [if_neg hne]
  exact checkRef_eq_nil hids hnext s.id "nextStep"

include hchecked hids in
theorem validateDecisionTable_eq_nil (h : BothRead j ms s) (hms : ms ∈ md.steps)
    {hitPolicy : String} {nextStep : StepId} {table : Modeller.DecisionTable}
    (hvariant : ms.variant = .decisionTable hitPolicy nextStep table) :
    validateDecisionTable d s = [] := by
  obtain ⟨hrules, hnonempty, hpolicy, -⟩ := hchecked.decisionTable hms hvariant
  have halike := h.alike.variant
  rw [hvariant] at halike
  obtain ⟨hnext, hhit, t, ht, hfull⟩ := halike
  obtain ⟨hconditional, htransformations, hparallel, hjoin, hjob, hdelegate, hretry, hevents⟩ :=
    h.foreignFields hchecked hms hvariant
  have hmem : s.nextStep ∈ md.steps.map (·.id) := by
    refine hchecked.outgoing hms (List.mem_append_left _ ?_)
    unfold outgoingTargets
    rw [hvariant, hnext]
    exact Checked.mem_nextTargets hnonempty
  have hnextStep : (if s.nextStep.isEmpty then
      ["step " ++ quote s.id ++ " (DECISION_TABLE): nextStep is required"]
      else checkRef d s.id "nextStep" s.nextStep) = [] := by
    rw [if_neg (by simpa [hnext] using hnonempty)]
    exact checkRef_eq_nil hids hmem s.id "nextStep"
  have hhitPolicy : validateHitPolicy s = [] := by
    unfold validateHitPolicy
    refine if_pos ?_
    rcases hhit with hempty | hsame
    · simp [hempty]
    · rw [hsame]
      exact Bool.or_eq_true_iff.mpr (.inr hpolicy)
  unfold validateDecisionTable
  rw [ht]
  simp only [hnextStep, hhitPolicy, hconditional, htransformations, hparallel, hjoin, hjob,
    hdelegate, hretry, hevents]
  simp [foreignField, ConditionalBranches.len, hfull hrules]

include hchecked hids in
/-- Of the rules by type, only the one about the job type is left open. -/
theorem validateByType_iff (h : BothRead j ms s) (hms : ms ∈ md.steps) :
    validateByType d s = [] ↔ (s.type = .serviceTask → s.jobType ≠ "") := by
  have htype := h.alike.type
  have halike := h.alike.variant
  have hout : ∀ t, t ∈ outgoingTargets ms → t ∈ md.steps.map (·.id) :=
    fun t ht => hchecked.outgoing hms (List.mem_append_left _ ht)
  unfold outgoingTargets at hout
  unfold validateByType
  cases hv : ms.variant with
  | serviceTask nextStep jobType delegateClass retryCount events =>
    rw [hv] at htype halike hout
    rw [htype]
    have hrest := optionalNextStep_eq_nil hids halike.1 hout
    simp only [Modeller.Variant.type, hrest, List.append_nil]
    simp
  | userTask nextStep jobType events =>
    rw [hv] at htype halike hout
    rw [htype]
    have hrest := optionalNextStep_eq_nil hids halike.1 hout
    change (if s.nextStep.isEmpty then [] else checkRef d s.id "nextStep" s.nextStep) = [] ↔ _
    rw [hrest]
    simp [Modeller.Variant.type]
  | decision branches =>
    rw [hv] at htype halike hout
    rw [htype]
    obtain ⟨c, hc, hexprs, htargets⟩ := halike
    have hrefs : c.targets.flatMap (fun e => checkRef d s.id "conditionalNextSteps target" e.2) =
        [] := by
      refine List.flatMap_eq_nil_iff.mpr fun e he => ?_
      have hmem := (htargets e.2).mp (List.mem_map_of_mem he)
      exact checkRef_eq_nil hids (hout e.2 hmem) s.id _
    have hbranches := hexprs (hchecked.decision hms hv)
    simp [Modeller.Variant.type, hc, hrefs, ConditionalBranches.len, hbranches]
  | transformation nextStep transformations =>
    rw [hv] at htype halike hout
    rw [htype]
    have hnext := requireNextStep_eq_nil hchecked hids
      (hout s.nextStep (by simp [halike.1])) "TRANSFORMATION"
    have hentries := halike.2 (hchecked.transformation hms hv)
    simp [Modeller.Variant.type, hnext, hentries]
  | wait nextStep events =>
    rw [hv] at htype halike hout
    rw [htype]
    have hnext := requireNextStep_eq_nil hchecked hids (hout s.nextStep (by simp [halike.1])) "WAIT"
    simp [Modeller.Variant.type, hnext]
  | joinGateway nextStep =>
    rw [hv] at htype halike hout
    rw [htype]
    have hsame : s.nextStep = nextStep := halike
    have hnext := requireNextStep_eq_nil hchecked hids (hout s.nextStep (by simp [hsame]))
      "JOIN_GATEWAY"
    simp [Modeller.Variant.type, hnext]
  | parallelGateway targets join =>
    rw [hv] at htype halike hout
    rw [htype]
    obtain ⟨hlength, hjoin, hjoinId⟩ := hchecked.joinStep hms hv
    have hrefs : s.parallelNextSteps.flatMap (checkRef d s.id "parallelNextSteps") = [] := by
      refine List.flatMap_eq_nil_iff.mpr fun t ht => ?_
      exact checkRef_eq_nil hids (hout t (halike.1 ▸ ht)) s.id _
    have hjoinRef : checkRef d s.id "joinStep" s.joinStep = [] :=
      checkRef_eq_nil hids (halike.2 ▸ hjoinId) s.id _
    have hmin : ¬ s.parallelNextSteps.length < 2 := by
      rw [halike.1]
      omega
    have hne : s.joinStep ≠ "" := halike.2 ▸ hjoin
    simp [Modeller.Variant.type, hrefs, hjoinRef, hmin, hne]
  | decisionTable hitPolicy nextStep table =>
    rw [hv] at htype
    rw [htype]
    have htable := validateDecisionTable_eq_nil hchecked hids h hms hv
    simp [Modeller.Variant.type, htable]
  | endStep =>
    rw [hv] at htype
    rw [htype]
    simp [Modeller.Variant.type]

include hchecked hids in
theorem validateBoundaryEvents_eq_nil (h : BothRead j ms s) (hms : ms ∈ md.steps) :
    (s.boundaryEvents.zipIdx.flatMap fun e => validateBoundaryEvent d s e.2 e.1) = [] := by
  refine List.flatMap_eq_nil_iff.mpr fun e he => ?_
  obtain ⟨be, i⟩ := e
  have hbe : be ∈ s.boundaryEvents := (List.mem_zipIdx' he).2 ▸ List.getElem_mem _
  obtain ⟨me, hme, halike⟩ := h.boundaryEvents hchecked hms hbe
  obtain ⟨-, hduration, htarget⟩ := hchecked.boundaryEvent hms hme
  have hne := hchecked.id_ne_empty htarget
  unfold validateBoundaryEvent
  dsimp only
  rw [halike.type, halike.duration, halike.targetStepId, if_neg (by simpa using hduration),
    if_neg (by simpa using hne), checkRef_eq_nil hids htarget]
  rfl

theorem validateStep_eq_nil_iff : validateStep d s = [] ↔
    s.name ≠ "" ∧ s.type.valid = true ∧ validateByType d s = [] ∧
      (s.type ≠ .decisionTable → s.decisionTable = none) ∧
      (∀ sch, s.outputsSchema = some sch → s.type = .serviceTask ∧
        validateSchemaShape ("step " ++ quote s.id ++ " outputs_schema") sch = []) ∧
      (s.boundaryEvents.zipIdx.flatMap fun e => validateBoundaryEvent d s e.2 e.1) = [] := by
  have htable : (if s.type != .decisionTable && s.decisionTable.isSome then
      ["step " ++ quote s.id ++ " (" ++ s.type.text ++
        "): decisionTable is not valid on this step type"] else []) = [] ↔
      (s.type ≠ .decisionTable → s.decisionTable = none) := by
    cases s.decisionTable <;> simp
  unfold validateStep
  simp only [List.append_eq_nil_iff, htable, and_assoc]
  refine and_congr (by simp) (and_congr (by simp) (and_congr_right fun _ => and_congr_right fun _ =>
    and_congr_left fun _ => ?_))
  cases s.outputsSchema with
  | none => simp
  | some sch =>
    by_cases hservice : s.type = .serviceTask
    · simp [hservice]
    · simp [hservice]

theorem outputsSchema_fits_iff (h : BothRead j ms s) :
    (∀ sch, s.outputsSchema = some sch → s.type = .serviceTask ∧
      validateSchemaShape ("step " ++ quote s.id ++ " outputs_schema") sch = []) ↔
      (j.member "outputs_schema" ≠ .null →
        j.member "type" = .str "SERVICE_TASK" ∧ SchemaFits (j.member "outputs_schema")) := by
  have htype : s.type = .serviceTask ↔ j.member "type" = .str "SERVICE_TASK" :=
    h.type_iff "SERVICE_TASK"
  have hread := h.engine.outputsSchema.member rfl
  rw [Ne, ← h.outputsSchema_iff, ← htype]
  cases hsch : s.outputsSchema with
  | none => simp
  | some sch =>
    have hne : j.member "outputs_schema" ≠ .null := by
      rw [Ne, ← h.outputsSchema_iff, hsch]
      simp
    rw [hsch] at hread
    have hshape := validateSchemaShape_iff ("step " ++ quote s.id ++ " outputs_schema")
      h.spelled.outputsSchema hne hread
    simp [hshape]

include hchecked hids in
/-- A step has no error exactly if it keeps the rules that the modeller does not
    have. -/
theorem validateStep_iff (h : BothRead j ms s) (hms : ms ∈ md.steps) :
    validateStep d s = [] ↔ StepFits j := by
  have hname : s.name ≠ "" := by
    rw [h.alike.name]
    exact Modeller.ne_empty_of_not_blank (hchecked.step_name hms)
  have hvalid : s.type.valid = true := by
    rw [h.alike.type]
    cases ms.variant <;> rfl
  have hevents := validateBoundaryEvents_eq_nil hchecked hids h hms
  have hservice : s.type = .serviceTask ↔ j.member "type" = .str "SERVICE_TASK" :=
    h.type_iff "SERVICE_TASK"
  have htable : s.type ≠ .decisionTable ↔ j.member "type" ≠ .str "DECISION_TABLE" :=
    not_congr (h.type_iff "DECISION_TABLE")
  rw [validateStep_eq_nil_iff, validateByType_iff hchecked hids h hms, outputsSchema_fits_iff h,
    hservice, h.jobType_iff, htable, h.decisionTable_iff]
  constructor
  · rintro ⟨-, -, hjob, htable, hschema, -⟩
    exact ⟨hjob, htable, hschema⟩
  · intro hfits
    exact ⟨hname, hvalid, hfits.jobType, hfits.decisionTable, hfits.outputsSchema, hevents⟩

end Rules

end Step

/-! ## The steps of the two definitions -/

/-- With distinct ids, an id leads to its step. -/
theorem stepByID_of_mem {d : WorkflowDefinition} {s : WorkflowStep}
    (hnodup : (d.steps.map (·.id)).Nodup) (hs : s ∈ d.steps) (hne : s.id ≠ "") :
    stepByID d s.id = some s := by
  unfold stepByID
  cases hfind : d.steps.reverse.find? fun t => t.id == s.id && !t.id.isEmpty with
  | none =>
    have hnot := List.find?_eq_none.mp hfind s (List.mem_reverse.mpr hs)
    simp [hne] at hnot
  | some t =>
    have hid := List.find?_some hfind
    simp only [Bool.and_eq_true, beq_iff_eq] at hid
    have ht := List.mem_reverse.mp (List.mem_of_find?_eq_some hfind)
    rw [List.inj_on_of_nodup_map hnodup ht hs hid.1]

theorem validateStepIds_nil {steps : List WorkflowStep} :
    ∀ {i : Nat} {seen : List StepId}, (∀ s ∈ steps, s.id ≠ "" ∧ s.id ∉ seen) →
      (steps.map (·.id)).Nodup → validateStepIds i seen steps = [] := by
  induction steps with
  | nil => exact fun _ _ => rfl
  | cons s rest ih =>
    intro i seen hsteps hnodup
    obtain ⟨⟨hne, hnew⟩, hrest⟩ := List.forall_mem_cons.mp hsteps
    obtain ⟨hnot, hnodup⟩ := List.nodup_cons.mp hnodup
    rw [validateStepIds, if_neg (by simpa using hne), if_neg (by simpa using hnew)]
    refine ih (fun t ht => ⟨(hrest t ht).1, ?_⟩) hnodup
    intro hmem
    rcases List.mem_cons.mp hmem with heq | hmem
    · exact hnot (List.mem_map.mpr ⟨t, ht, heq⟩)
    · exact (hrest t ht).2 hmem

section Definition

variable {doc : Json} {md : Modeller.WorkflowDefinition} {d : WorkflowDefinition}

/-- The two definitions of one document. -/
structure BothDefine (doc : Json) (md : Modeller.WorkflowDefinition) (d : WorkflowDefinition) :
    Prop where
  spelled : DocumentSpelled doc
  alike : DefinitionAlike doc md d
  checked : Checked md

namespace BothDefine

variable (h : BothDefine doc md d)

include h

theorem steps : List.Forall₂ (fun ms s => ∃ j ∈ (doc.member "steps").items, BothRead j ms s)
    md.steps d.steps := by
  refine h.alike.steps.imp ?_
  intro ms s ⟨j, hj, hz, hread, halike⟩
  exact ⟨j, hj, h.spelled.steps j hj, hz, hread, halike⟩

theorem item {j : Json} (hj : j ∈ (doc.member "steps").items) :
    ∃ ms ∈ md.steps, ∃ s ∈ d.steps, BothRead j ms s := by
  obtain ⟨ms, hms, s, hs, hz, hread, halike⟩ := h.alike.items j hj
  exact ⟨ms, hms, s, hs, h.spelled.steps j hj, hz, hread, halike⟩

theorem ids : d.steps.map (·.id) = md.steps.map (·.id) := by
  have hids : List.Forall₂ (fun ms s => ms.id = s.id) md.steps d.steps := by
    refine h.steps.imp ?_
    intro ms s ⟨j, _, hboth⟩
    exact hboth.alike.id.symm
  have hmap : List.Forall₂ (· = ·) (md.steps.map (·.id)) (d.steps.map (·.id)) := by
    rw [List.forall₂_map_left_iff, List.forall₂_map_right_iff]
    exact hids
  exact (List.forall₂_eq_eq_eq ▸ hmap : md.steps.map (·.id) = d.steps.map (·.id)).symm

theorem steps_nonempty : ¬ d.steps.isEmpty = true := by
  intro hempty
  have hids := h.ids
  rw [List.isEmpty_iff.mp hempty] at hids
  exact h.checked.steps (List.map_eq_nil_iff.mp hids.symm)

theorem nodup : (d.steps.map (·.id)).Nodup := by
  rw [h.ids]
  exact h.checked.nodup

theorem id_ne_empty {s : WorkflowStep} (hs : s ∈ d.steps) : s.id ≠ "" := by
  have hid : s.id ∈ d.steps.map (·.id) := List.mem_map_of_mem hs
  rw [h.ids] at hid
  exact h.checked.id_ne_empty hid

theorem isSome_stepByID : ∀ t ∈ md.steps.map (·.id), (stepByID d t).isSome = true := by
  intro t ht
  rw [← h.ids] at ht
  obtain ⟨s, hs, rfl⟩ := List.mem_map.mp ht
  rw [stepByID_of_mem h.nodup hs (h.id_ne_empty hs)]
  rfl

/-! ## Paths -/

/-- An edge of the modeller's graph is one of the engine's. -/
theorem walkEdge {a b : StepId} (hab : Follows md a b) : WalkEdge d a b := by
  obtain ⟨hedge, hne⟩ := hab
  have hne : b ≠ "" := by simpa using hne
  change b ∈ md.successors allOutgoing a at hedge
  unfold Modeller.WorkflowDefinition.successors at hedge
  cases hindex : md.index a with
  | none =>
    rw [hindex] at hedge
    cases hedge
  | some ms =>
    rw [hindex] at hedge
    obtain ⟨hms, hid⟩ := Checked.of_index hindex
    obtain ⟨s, hs, j, -, hboth⟩ := (exists_of_forall₂ h.steps).1 ms hms
    have hsame : s.id = a := hboth.alike.id.trans hid
    refine ⟨s, ?_, hboth.walkRef hedge hne⟩
    rw [← hsame]
    exact stepByID_of_mem h.nodup hs (h.id_ne_empty hs)

theorem validateReachability_eq_nil : validateReachability d = [] := by
  obtain ⟨entry, rest, hsteps⟩ := List.exists_cons_of_ne_nil h.checked.steps
  obtain ⟨hall, id, ms, hpath, hindex, hend⟩ := h.checked.paths hsteps
  obtain ⟨first, tail, hd⟩ : ∃ first tail, d.steps = first :: tail := by
    refine List.exists_cons_of_ne_nil fun hnil => ?_
    have hids := h.ids
    rw [hnil, hsteps] at hids
    cases hids
  have hfirst : first.id = entry.id := by
    have hids := h.ids
    rw [hd, hsteps] at hids
    exact (List.cons.inj hids).1
  have hle : ReflTransGen (Follows md) ≤ ReflTransGen (WalkEdge d) :=
    ReflTransGen.mono fun a b hab => h.walkEdge hab
  have hreach : ∀ {id}, ReflTransGen (Follows md) entry.id id → Reaches d first.id id :=
    fun hpath => hfirst ▸ hle _ _ hpath
  rw [validateReachability_eq hd (h.id_ne_empty (hd ▸ List.mem_cons_self ..)),
    List.append_eq_nil_iff]
  constructor
  · refine List.filterMap_eq_nil_iff.mpr fun s hs => ?_
    have hmem : s.id ∈ md.steps.map (·.id) := h.ids ▸ List.mem_map_of_mem hs
    obtain ⟨ms, hms, hid⟩ := List.mem_map.mp hmem
    have hwalk := (mem_graphWalk_iff d first.id s.id).mpr (hid ▸ hreach (hall ms hms))
    simp [hwalk]
  · refine if_pos (List.any_eq_true.mpr ⟨id, (mem_graphWalk_iff d first.id id).mpr (hreach hpath), ?_⟩)
    obtain ⟨hms, hid⟩ := Checked.of_index hindex
    obtain ⟨s, hs, j, -, hboth⟩ := (exists_of_forall₂ h.steps).1 ms hms
    have hsame : s.id = id := hboth.alike.id.trans hid
    have htype : s.type = .endStep := hboth.alike.type.trans hend
    rw [← hsame, stepByID_of_mem h.nodup hs (h.id_ne_empty hs)]
    simp [htype]

/-! ## The definition -/

theorem validateTopLevel_iff : validateTopLevel d = [] ↔
    (doc.member "input_schema" ≠ .null → SchemaFits (doc.member "input_schema")) := by
  obtain ⟨hpattern, hlength⟩ := h.checked.id
  have hid : ¬ d.id.isEmpty = true := by
    rw [h.alike.id]
    intro hempty
    simp [Modeller.matchesIdPattern, hempty] at hpattern
  -- an id that matches is in ASCII, where bytes and code units are the same
  have hsize : ¬ d.id.utf8ByteSize > 256 := by
    have hascii := Modeller.ascii_of_matchesIdPattern hpattern
    rw [h.alike.id, Modeller.utf8ByteSize_ascii hascii, ← Modeller.utf16Length_ascii hascii]
    omega
  have hregexp : matchesIdRegexp d.id = true := by
    rw [h.alike.id]
    exact hpattern
  have hname : ¬ d.name.isEmpty = true := by
    rw [h.alike.name]
    simpa using Modeller.ne_empty_of_not_blank h.checked.name
  have hsteps := h.steps_nonempty
  have hauto : ¬ (d.autoStartNextWorkflow && d.nextWorkflowId.isEmpty) = true := by
    rw [h.alike.autoStartNextWorkflow, h.alike.nextWorkflowId]
    cases hstart : md.autoStartNextWorkflow with
    | none => simp
    | some b =>
      cases b with
      | false => simp
      | true =>
        obtain ⟨id, hnext, hblank⟩ := h.checked.nextWorkflow hstart
        simp [hnext, Modeller.ne_empty_of_not_blank hblank]
  have hread := h.alike.read.inputSchema.member (by rfl)
  have hnull : d.inputSchema = none ↔ doc.member "input_schema" = .null := decodePointer_eq_none hread
  unfold validateTopLevel
  rw [if_neg hid, if_neg hsize, if_pos hregexp, if_neg hname, if_neg hsteps, if_neg hauto, Ne, ← hnull]
  cases hsch : d.inputSchema with
  | none => simp
  | some sch =>
    have hne : doc.member "input_schema" ≠ .null := by
      rw [Ne, ← hnull, hsch]
      simp
    rw [hsch] at hread
    have hshape := validateSchemaShape_iff "input_schema" h.spelled.inputSchema hne hread
    simpa using hshape

/-- `Validate` looks at the rules that the modeller does not have, and finds no
    other fault. -/
theorem accepted_iff : Accepted d ↔ (∀ j ∈ (doc.member "steps").items, StepFits j) ∧
    (doc.member "input_schema" ≠ .null → SchemaFits (doc.member "input_schema")) := by
  have hsteps := h.steps_nonempty
  have hstepIds : validateStepIds 0 [] d.steps = [] :=
    validateStepIds_nil (fun s hs => ⟨h.id_ne_empty hs, List.not_mem_nil⟩) h.nodup
  have hfits : (d.steps.filter fun s => !s.id.isEmpty).flatMap (validateStep d) = [] ↔
      ∀ j ∈ (doc.member "steps").items, StepFits j := by
    rw [List.flatMap_eq_nil_iff]
    constructor
    · intro hnone j hj
      obtain ⟨ms, hms, s, hs, hboth⟩ := h.item hj
      refine (validateStep_iff h.checked h.isSome_stepByID hboth hms).mp (hnone s ?_)
      exact List.mem_filter.mpr ⟨hs, by simpa using h.id_ne_empty hs⟩
    · intro hall s hs
      obtain ⟨ms, hms, j, hj, hboth⟩ := (exists_of_forall₂ h.steps).2 s (List.mem_filter.mp hs).1
      exact (validateStep_iff h.checked h.isSome_stepByID hboth hms).mpr (hall j hj)
  unfold Accepted validate
  dsimp only
  rw [if_neg hsteps, hstepIds, h.validateReachability_eq_nil, List.append_nil, List.append_nil,
    List.append_eq_nil_iff, hfits, h.validateTopLevel_iff]
  exact and_comm

end BothDefine

end Definition

/-- `ParseBytes` succeeds and `Validate` returns nil. -/
def accepts (doc : Json) : Bool :=
  match parse doc with
  | .ok d => decide (Accepted d)
  | .error _ => false

theorem accepts_iff {doc : Json} : accepts doc = true ↔ ∃ d, parse doc = .ok d ∧ Accepted d := by
  unfold accepts
  cases hd : parse doc with
  | error e => simp
  | ok d => simp

/-- A task whose job type is `members`, and an end. -/
def chargeDocument (jobType : GoMap Json) : Json :=
  .obj [("id", .str "charge-to"), ("name", .str "Charge to"),
    ("steps", .arr [
      .obj ([("id", .str "charge"), ("name", .str "Charge"), ("type", .str "SERVICE_TASK"),
        ("nextStep", .str "end")] ++ jobType),
      .obj [("id", .str "end"), ("name", .str "End"), ("type", .str "END")]])]

/-- A grammar without an expression. -/
def noExpression (source : String) : Except String Modeller.Expr :=
  .error ("Expected expression but " ++ quote source ++ " found.")

end Rochallor
