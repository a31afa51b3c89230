import Rochallor.Modeller.Editing
import Rochallor.Modeller.Validate

/-! # The references of a step

    `references` has every place of a step that names another step, in the
    order of the source, and `frame` has everything else.  What the editing
    functions do is stated on these two.

    The members `then` and `defaultNextStep` of the format before 007 are
    neither: no edge is drawn for them, and the validator reports them.
-/

namespace Rochallor.Modeller

/-! ## References and frame -/

/-- A place that names a step. -/
inductive Site where
  | nextStep
  | boundaryEvent (i : Nat)
  | branch (expression : String)
  | parallel (i : Nat)
  | joinStep
  deriving DecidableEq, Inhabited, Repr

/-- The site as `findReferences` writes it. -/
def Site.text (id : StepId) : Site → String
  | .nextStep => id ++ ".nextStep"
  | .boundaryEvent i => id ++ ".boundaryEvents[" ++ toString i ++ "].targetStepId"
  | .branch expression => id ++ ".conditionalNextSteps[\"" ++ expression ++ "\"]"
  | .parallel i => id ++ ".parallelNextSteps[" ++ toString i ++ "]"
  | .joinStep => id ++ ".joinStep"

/-- The site without its index. -/
def Site.field : Site → Site
  | .boundaryEvent _ => .boundaryEvent 0
  | .parallel _ => .parallel 0
  | site => site

def nextSites (site : Site) (nextStep : Option StepId) : List (Site × StepId) :=
  (nextTargets nextStep).map fun id => (site, id)

def eventSites (events : Option (List BoundaryEvent)) : List (Site × StepId) :=
  (events.getD []).zipIdx.map fun e => (.boundaryEvent e.2, e.1.targetStepId)

/-- The references of a step.  An empty `nextStep` or `joinStep` is none. -/
def Variant.references : Variant → List (Site × StepId)
  | .serviceTask nextStep _ _ _ events | .userTask nextStep _ events =>
    nextSites .nextStep nextStep ++ eventSites events
  | .wait nextStep events => nextSites .nextStep (some nextStep) ++ eventSites events
  | .decision branches => branches.map fun b => (.branch b.1, b.2)
  | .decisionTable _ nextStep _ | .transformation nextStep _ | .joinGateway nextStep =>
    nextSites .nextStep (some nextStep)
  | .parallelGateway parallelNextSteps joinStep =>
    (parallelNextSteps.zipIdx.map fun t => (.parallel t.2, t.1)) ++
      nextSites .joinStep (some joinStep)
  | .endStep => []

def DecisionTable.frame (table : DecisionTable) : DecisionTable where
  rules := table.rules.map fun r => { r with extra := r.extra.filter fun e => e.1 != "then" }
  extra := table.extra.filter fun e => e.1 != "defaultNextStep"

/-- The step without its references. -/
def Variant.frame : Variant → Variant
  | .serviceTask nextStep jobType delegateClass retryCount events =>
    .serviceTask (nextStep.map fun _ => "") jobType delegateClass retryCount
      (events.map fun _ => [])
  | .userTask nextStep jobType events =>
    .userTask (nextStep.map fun _ => "") jobType (events.map fun _ => [])
  | .decision _ => .decision []
  | .decisionTable hitPolicy _ table => .decisionTable hitPolicy "" table.frame
  | .transformation _ transformations => .transformation "" transformations
  | .wait _ events => .wait "" (events.map fun _ => [])
  | .parallelGateway _ _ => .parallelGateway [] ""
  | .joinGateway _ => .joinGateway ""
  | .endStep => .endStep

def Step.references (step : Step) : List (Site × StepId) :=
  step.variant.references

def Step.frame (step : Step) : Step :=
  { step with variant := step.variant.frame }

/-! ## Sites -/

section Sites

variable {id : StepId} {site : Site} {nextStep : Option StepId}

theorem nextTargets_some (next : StepId) :
    nextTargets (some next) = if next = "" then [] else [next] := by
  by_cases h : next = ""
  · subst h
    rfl
  · have hnext : (!next.isEmpty) = true := by simpa using h
    rw [if_neg h, nextTargets, Option.filter, if_pos hnext]
    rfl

/-- A site that holds the id. -/
theorem nextSites_filter (hid : id ≠ "") :
    (nextSites site nextStep).filter (fun x => x.2 == id) =
      if nextStep = some id then [(site, id)] else [] := by
  cases nextStep with
  | none => rfl
  | some next =>
    rw [nextSites, nextTargets_some]
    by_cases hempty : next = ""
    · subst hempty
      rw [if_pos rfl, if_neg (by simpa using hid.symm)]
      rfl
    · rw [if_neg hempty]
      by_cases hnext : next = id
      · subst hnext
        simp
      · rw [if_neg (by simpa using hnext)]
        simp [hnext]

/-- Looking through a list that is numbered. -/
theorem filter_zipIdx_fst {α β : Type} (p : α → Bool) (f : α → β) (xs : List α) :
    (xs.zipIdx.filter fun x => p x.1).map (fun x => f x.1) = (xs.filter p).map f := by
  have hnumbered : xs.zipIdx.map Prod.fst = xs := List.zipIdx_map_fst ..
  conv_rhs => rw [← hnumbered, List.filter_map, List.map_map]
  rfl

end Sites

/-! ## What the dialog lists -/

/-- `findReferences` lists the references to an id that is not empty. -/
theorem stepReferences_eq (step : Step) {id : StepId} (hid : id ≠ "") :
    stepReferences step id =
      (step.references.filter fun x => x.2 == id).map fun x => x.1.text step.id := by
  have hnext : ∀ nextStep, nextReference step nextStep id =
      ((nextSites .nextStep nextStep).filter fun x => x.2 == id).map
        fun x => x.1.text step.id := by
    intro nextStep
    rw [nextSites_filter hid, nextReference]
    by_cases h : nextStep = some id
    · rw [if_pos h, if_pos h]
      rfl
    · rw [if_neg h, if_neg h]
      rfl
  have hevents : ∀ events, boundaryReferences step events id =
      ((eventSites events).filter fun x => x.2 == id).map fun x => x.1.text step.id := by
    intro events
    rw [boundaryReferences, eventSites, List.filter_map, List.map_map]
    rfl
  unfold stepReferences Step.references Variant.references
  cases step.variant with
  | serviceTask nextStep _ _ _ events =>
    dsimp only
    rw [List.filter_append, List.map_append, ← hnext, ← hevents]
  | userTask nextStep _ events =>
    dsimp only
    rw [List.filter_append, List.map_append, ← hnext, ← hevents]
  | wait nextStep events =>
    dsimp only
    rw [List.filter_append, List.map_append, ← hnext, ← hevents]
  | decision branches =>
    dsimp only
    rw [List.filter_map, List.map_map]
    rfl
  | decisionTable _ nextStep _ => exact hnext _
  | transformation nextStep _ => exact hnext _
  | joinGateway nextStep => exact hnext _
  | parallelGateway parallelNextSteps joinStep =>
    dsimp only
    rw [List.filter_append, List.map_append, List.filter_map, List.map_map, nextSites_filter hid]
    congr 1
    by_cases h : joinStep = id
    · subst h
      simp [Site.text]
    · rw [if_neg h, if_neg (by simpa using h)]
      rfl
  | endStep => rfl

/-! ## Mapping references -/

section Mapping

variable {f : StepId → StepId}

/-- The function keeps what is no reference. -/
def KeepsEmpty (f : StepId → StepId) : Prop :=
  ∀ id, f id = "" ↔ id = ""

theorem nextTargets_map (hf : KeepsEmpty f) (nextStep : Option StepId) :
    nextTargets (nextStep.map f) = (nextTargets nextStep).map f := by
  cases nextStep with
  | none => rfl
  | some next =>
    rw [Option.map_some, nextTargets_some, nextTargets_some]
    by_cases h : next = ""
    · rw [if_pos h, if_pos ((hf next).mpr h)]
      rfl
    · rw [if_neg h, if_neg (fun hnext => h ((hf next).mp hnext))]
      rfl

theorem nextSites_map (hf : KeepsEmpty f) (site : Site) (nextStep : Option StepId) :
    nextSites site (nextStep.map f) = (nextSites site nextStep).map fun x => (x.1, f x.2) := by
  rw [nextSites, nextTargets_map hf, List.map_map, nextSites, List.map_map]
  rfl

theorem eventSites_map (events : Option (List BoundaryEvent)) :
    eventSites (withRemappedBoundary f events) =
      (eventSites events).map fun x => (x.1, f x.2) := by
  cases events with
  | none => rfl
  | some events =>
    show (((events.map fun evt => { evt with targetStepId := f evt.targetStepId }).zipIdx).map _) =
      (events.zipIdx.map _).map _
    rw [List.zipIdx_map, List.map_map, List.map_map]
    rfl

/-- Mapping the references maps the references. -/
theorem references_mapRefs (hf : KeepsEmpty f) (v : Variant) :
    (v.mapRefs f).references = v.references.map fun x => (x.1, f x.2) := by
  cases v with
  | serviceTask nextStep _ _ _ events =>
    show nextSites _ (nextStep.map f) ++ eventSites (withRemappedBoundary f events) =
      (nextSites _ nextStep ++ eventSites events).map _
    rw [List.map_append, nextSites_map hf, eventSites_map]
  | userTask nextStep _ events =>
    show nextSites _ (nextStep.map f) ++ eventSites (withRemappedBoundary f events) =
      (nextSites _ nextStep ++ eventSites events).map _
    rw [List.map_append, nextSites_map hf, eventSites_map]
  | wait nextStep events =>
    show nextSites _ ((some nextStep).map f) ++ eventSites (withRemappedBoundary f events) =
      (nextSites _ (some nextStep) ++ eventSites events).map _
    rw [List.map_append, nextSites_map hf, eventSites_map]
  | decision branches =>
    show (branches.map fun b => (b.1, f b.2)).map _ = (branches.map _).map _
    rw [List.map_map, List.map_map]
    rfl
  | decisionTable _ nextStep _ => exact nextSites_map hf _ (some nextStep)
  | transformation nextStep _ => exact nextSites_map hf _ (some nextStep)
  | joinGateway nextStep => exact nextSites_map hf _ (some nextStep)
  | parallelGateway parallelNextSteps joinStep =>
    show (parallelNextSteps.map f).zipIdx.map _ ++ nextSites _ ((some joinStep).map f) =
      (parallelNextSteps.zipIdx.map _ ++ nextSites _ (some joinStep)).map _
    rw [List.map_append, nextSites_map hf, List.zipIdx_map, List.map_map, List.map_map]
    rfl
  | endStep => rfl

/-- Mapping the references changes nothing else. -/
theorem frame_mapRefs (v : Variant) : (v.mapRefs f).frame = v.frame := by
  have hevents : ∀ events : Option (List BoundaryEvent),
      (withRemappedBoundary f events).map (fun _ => ([] : List BoundaryEvent)) =
        events.map fun _ => [] := by
    rintro (_ | events)
    · rfl
    · rfl
  have hnext : ∀ nextStep : Option StepId,
      (nextStep.map f).map (fun _ => "") = nextStep.map fun _ => "" := by
    rintro (_ | nextStep)
    · rfl
    · rfl
  cases v with
  | serviceTask nextStep jobType delegateClass retryCount events =>
    simp only [Variant.mapRefs, Variant.frame, hevents, hnext]
  | userTask nextStep jobType events =>
    simp only [Variant.mapRefs, Variant.frame, hevents, hnext]
  | wait nextStep events => simp only [Variant.mapRefs, Variant.frame, hevents]
  | decision branches => rfl
  | decisionTable _ _ _ => rfl
  | transformation _ _ => rfl
  | joinGateway _ => rfl
  | parallelGateway _ _ => rfl
  | endStep => rfl

variable (f) in
theorem boundaryEvents_mapRefs (s : Step) :
    ({ s with variant := s.variant.mapRefs f } : Step).boundaryEvents =
      s.boundaryEvents.map fun e => { e with targetStepId := f e.targetStepId } := by
  have hevents : ∀ events : Option (List BoundaryEvent), (withRemappedBoundary f events).getD [] =
      (events.getD []).map fun e => { e with targetStepId := f e.targetStepId } := by
    rintro (_ | events)
    · rfl
    · rfl
  unfold Step.boundaryEvents
  dsimp only
  cases s.variant with
  | serviceTask _ _ _ _ events => exact hevents events
  | userTask _ _ events => exact hevents events
  | wait _ events => exact hevents events
  | _ => rfl

end Mapping

end Rochallor.Modeller
