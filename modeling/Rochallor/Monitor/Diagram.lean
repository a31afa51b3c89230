import Rochallor.Data.Decoded
import Rochallor.Definition.Restored
import Rochallor.Modeller.JavaScript

/-! # The execution diagram

    `ExecutionDiagram.tsx`: the monitor draws the steps of the definition an
    instance runs, from the document in the engine's own table.  Layout and
    markers are left to the browser; the edges are `buildEdges`.
-/

namespace Rochallor.Monitor

open Modeller (prop entries)

/-- A step of the document: what `JSON.parse` makes of it. -/
abbrev DiagramStep := GoMap Json

/-- A property the interface declares to be a string. -/
def DiagramStep.text (step : DiagramStep) (name : String) : String :=
  match prop step name with
  | some (.str s) => s
  | _ => ""

/-- `detail.definition.steps`. -/
def diagramSteps : Json → List DiagramStep
  | .obj members =>
    match prop members "steps" with
    | some (.arr items) => items.filterMap fun
      | .obj step => some step
      | _ => none
    | _ => []
  | _ => []

inductive EdgeVariant where
  | sequential
  | conditional
  | parallel
  | joinTarget
  | joinOut
  | boundary
  deriving DecidableEq, Repr

def EdgeVariant.text : EdgeVariant → String
  | .sequential => "sequential"
  | .conditional => "conditional"
  | .parallel => "parallel"
  | .joinTarget => "join-target"
  | .joinOut => "join-out"
  | .boundary => "boundary"

structure DiagramEdge where
  id : String
  source : String
  target : String
  sourceName : String
  targetName : String
  variant : EdgeVariant
  deriving DecidableEq, Repr

/-- `stepById`: a `Map` keeps the last step of an id. -/
def stepById (steps : List DiagramStep) (id : String) : Option DiagramStep :=
  steps.reverse.find? fun step => step.text "id" == id

section Edges

variable (steps : List DiagramStep)

/-- `addEdge`: nothing is drawn to a step that does not exist. -/
def addEdge (source : DiagramStep) (targetId : String) (variant : EdgeVariant)
    (discriminator : String) : List DiagramEdge :=
  match stepById steps targetId with
  | none => []
  | some target =>
    [{ id := source.text "id" ++ "--" ++ discriminator ++ "-->" ++ target.text "id"
       source := source.text "id"
       target := target.text "id"
       sourceName := source.text "name"
       targetName := target.text "name"
       variant := variant }]

/-- The edge of `nextStep`. -/
def nextEdges (step : DiagramStep) : List DiagramEdge :=
  let next := step.text "nextStep"
  if next.isEmpty then []
  else
    let variant :=
      if step.text "type" = "JOIN_GATEWAY" then .joinOut
      else if ((stepById steps next).map (·.text "type")) = some "JOIN_GATEWAY" then .joinTarget
      else .sequential
    addEdge steps step next variant variant.text

/-- The edges of the branches, which only a `DECISION` has drawn. -/
def conditionalEdges (step : DiagramStep) : List DiagramEdge :=
  if step.text "type" = "DECISION" then
    match prop step "conditionalNextSteps" with
    | some (.obj members) => (entries members).flatMap fun e =>
      match e.2 with
      | .str targetId => addEdge steps step targetId .conditional ("conditional:" ++ e.1)
      | _ => []
    | some (.arr items) => items.zipIdx.flatMap fun e =>
      match e.1 with
      | .str targetId => addEdge steps step targetId .conditional ("conditional:" ++ e.2.repr)
      | _ => []
    | _ => []
  else []

/-- The edges of the branches of a `PARALLEL_GATEWAY`. -/
def parallelEdges (step : DiagramStep) : List DiagramEdge :=
  if step.text "type" = "PARALLEL_GATEWAY" then
    match prop step "parallelNextSteps" with
    | some (.arr items) => items.zipIdx.flatMap fun e =>
      match e.1 with
      | .str targetId => addEdge steps step targetId .parallel ("parallel:" ++ e.2.repr)
      | _ => []
    | _ => []
  else []

/-- The edges of the timers. -/
def boundaryEdges (step : DiagramStep) : List DiagramEdge :=
  match prop step "boundaryEvents" with
  | some (.arr items) => items.zipIdx.flatMap fun e =>
    match e.1 with
    | .obj event =>
      match prop event "targetStepId" with
      | some (.str targetId) => addEdge steps step targetId .boundary ("boundary:" ++ e.2.repr)
      | _ => []
    | _ => []
  | _ => []

/-- `buildEdges`. -/
def buildEdges : List DiagramEdge :=
  steps.flatMap fun step =>
    nextEdges steps step ++ conditionalEdges steps step ++ parallelEdges steps step ++
      boundaryEdges steps step

/-- Some edge is drawn from one step to the other. -/
def Drawn (source target : String) : Prop :=
  ∃ e ∈ buildEdges steps, e.source = source ∧ e.target = target

variable {steps}

/-- What `addEdge` is called with for a step that exists is drawn. -/
theorem mem_addEdge (source : DiagramStep) {targetId : String}
    (htarget : ∃ step ∈ steps, step.text "id" = targetId) (variant : EdgeVariant)
    (discriminator : String) :
    ∃ e ∈ addEdge steps source targetId variant discriminator,
      e.source = source.text "id" ∧ e.target = targetId := by
  unfold addEdge
  cases hfind : stepById steps targetId with
  | none =>
    obtain ⟨step, hstep, hid⟩ := htarget
    have hnone := List.find?_eq_none.mp hfind step (List.mem_reverse.mpr hstep)
    simp [hid] at hnone
  | some target =>
    have hid := List.find?_some hfind
    exact ⟨_, List.mem_singleton_self _, rfl, by simpa using hid⟩

theorem drawn_next {step : DiagramStep} (hstep : step ∈ steps)
    (htarget : ∃ target ∈ steps, target.text "id" = step.text "nextStep")
    (hnext : step.text "nextStep" ≠ "") : Drawn steps (step.text "id") (step.text "nextStep") := by
  obtain ⟨e, he, hends⟩ := mem_addEdge step htarget _ _
  refine ⟨e, List.mem_flatMap.mpr ⟨step, hstep, ?_⟩, hends⟩
  refine List.mem_append_left _ (List.mem_append_left _ (List.mem_append_left _ ?_))
  unfold nextEdges
  simpa [hnext] using he

/-- A branch of a decision. -/
theorem drawn_conditional {step : DiagramStep} (hstep : step ∈ steps)
    (htype : step.text "type" = "DECISION") {members : GoMap Json}
    (hbranches : prop step "conditionalNextSteps" = some (.obj members)) {expression targetId : String}
    (hmem : members.last expression = some (.str targetId))
    (htarget : ∃ target ∈ steps, target.text "id" = targetId) :
    Drawn steps (step.text "id") targetId := by
  obtain ⟨e, he, hends⟩ := mem_addEdge step htarget .conditional
    ("conditional:" ++ expression)
  refine ⟨e, List.mem_flatMap.mpr ⟨step, hstep, ?_⟩, hends⟩
  refine List.mem_append_left _ (List.mem_append_left _ (List.mem_append_right _ ?_))
  unfold conditionalEdges
  rw [if_pos htype, hbranches]
  exact List.mem_flatMap.mpr ⟨(expression, .str targetId), Modeller.mem_entries.mpr hmem, he⟩

theorem exists_zipIdx {α : Type} {l : List α} {a : α} (h : a ∈ l) : ∃ n, (a, n) ∈ l.zipIdx := by
  obtain ⟨n, hn, rfl⟩ := List.getElem_of_mem h
  exact ⟨n, by simp [List.mem_zipIdx_iff_getElem?, hn]⟩

/-- A branch of a gateway. -/
theorem drawn_parallel {step : DiagramStep} (hstep : step ∈ steps)
    (htype : step.text "type" = "PARALLEL_GATEWAY") {items : List Json}
    (hbranches : prop step "parallelNextSteps" = some (.arr items)) {targetId : String}
    (hmem : .str targetId ∈ items) (htarget : ∃ target ∈ steps, target.text "id" = targetId) :
    Drawn steps (step.text "id") targetId := by
  obtain ⟨n, hn⟩ := exists_zipIdx hmem
  obtain ⟨e, he, hends⟩ := mem_addEdge step htarget .parallel ("parallel:" ++ n.repr)
  refine ⟨e, List.mem_flatMap.mpr ⟨step, hstep, ?_⟩, hends⟩
  refine List.mem_append_left _ (List.mem_append_right _ ?_)
  unfold parallelEdges
  rw [if_pos htype, hbranches]
  exact List.mem_flatMap.mpr ⟨(.str targetId, n), hn, he⟩

/-- The target of a timer. -/
theorem drawn_boundary {step : DiagramStep} (hstep : step ∈ steps) {items : List Json}
    (hevents : prop step "boundaryEvents" = some (.arr items)) {event : GoMap Json}
    (hmem : .obj event ∈ items) {targetId : String}
    (htargetId : prop event "targetStepId" = some (.str targetId))
    (htarget : ∃ target ∈ steps, target.text "id" = targetId) :
    Drawn steps (step.text "id") targetId := by
  obtain ⟨n, hn⟩ := exists_zipIdx hmem
  obtain ⟨e, he, hends⟩ := mem_addEdge step htarget .boundary ("boundary:" ++ n.repr)
  refine ⟨e, List.mem_flatMap.mpr ⟨step, hstep, ?_⟩, hends⟩
  refine List.mem_append_right _ ?_
  unfold boundaryEdges
  rw [hevents]
  exact List.mem_flatMap.mpr ⟨(.obj event, n), hn, by simpa [htargetId] using he⟩

end Edges

/-! ## The engine's document -/

/-- The members of a step in the column. -/
def stepMembers (s : WorkflowStep) : DiagramStep :=
  membersOf (sortKeys WorkflowStep.names) fun k => (s.member k).map Json.jsonb

theorem last_membersOf {keys : List String} (hkeys : keys.Nodup) (g : String → Option Json) {k : String}
    (hk : k ∈ keys) : GoMap.last (membersOf keys g) k = g k := by
  have hnodup : ((membersOf keys g).map (·.1)).Nodup := hkeys.sublist (membersOf_keys ..)
  have hreverse : ((membersOf keys g).reverse.map (·.1)).Nodup := by
    rw [List.map_reverse]
    exact List.nodup_reverse.mpr hnodup
  cases hg : g k with
  | some v =>
    exact GoMap.get_of_mem hreverse (List.mem_reverse.mpr ((mem_membersOf (m := (k, v))).mpr ⟨hk, hg⟩))
  | none =>
    cases hlast : GoMap.last (membersOf keys g) k with
    | none => rfl
    | some v =>
      have hmem := (mem_membersOf.mp (GoMap.mem_of_last hlast)).2
      rw [hg] at hmem
      cases hmem

theorem prop_stepMembers (s : WorkflowStep) {k : String} (hk : k ∈ WorkflowStep.names) :
    prop (stepMembers s) k = (s.member k).map Json.jsonb := by
  have hnodup : (sortKeys WorkflowStep.names).Nodup :=
    (sortKeys_perm _).nodup_iff.mpr (by decide)
  exact last_membersOf hnodup _ ((sortKeys_perm _).mem_iff.mpr hk)

@[simp] theorem text_id (s : WorkflowStep) : (stepMembers s).text "id" = s.id := by
  rw [DiagramStep.text, prop_stepMembers s (by decide)]
  rfl

@[simp] theorem text_type (s : WorkflowStep) : (stepMembers s).text "type" = s.type.text := by
  rw [DiagramStep.text, prop_stepMembers s (by decide)]
  rfl

@[simp] theorem text_nextStep (s : WorkflowStep) : (stepMembers s).text "nextStep" = s.nextStep := by
  rw [DiagramStep.text, prop_stepMembers s (by decide)]
  simp only [WorkflowStep.member, omitString]
  by_cases h : s.nextStep = ""
  · simp [h]
  · simp [h, Json.jsonb]

/-- The steps of a stored definition, as the monitor reads them. -/
theorem diagramSteps_column (d : WorkflowDefinition) :
    diagramSteps d.marshal.jsonb = d.steps.map stepMembers := by
  have hnodup : (sortKeys WorkflowDefinition.names).Nodup :=
    (sortKeys_perm _).nodup_iff.mpr (by decide)
  rw [WorkflowDefinition.marshal, jsonb_membersOf (by decide)]
  unfold diagramSteps
  have hsteps : prop (membersOf (sortKeys WorkflowDefinition.names) fun k =>
      (d.member k).map Json.jsonb) "steps" = some (.arr (d.steps.map fun s => s.marshal.jsonb)) := by
    rw [prop, last_membersOf hnodup _ ((sortKeys_perm _).mem_iff.mpr (by decide))]
    simp [WorkflowDefinition.member, Json.jsonb, jsonbItems_eq_map]
  simp only [hsteps, List.filterMap_map]
  rw [← List.filterMap_eq_map]
  refine List.filterMap_congr fun s _ => ?_
  simp only [Function.comp_apply, WorkflowStep.marshal]
  rw [jsonb_membersOf (by decide)]
  rfl

end Rochallor.Monitor
