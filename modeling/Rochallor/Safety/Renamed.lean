import Mathlib.Logic.Equiv.Basic
import Rochallor.Modeller.Renaming
import Rochallor.Safety.Deleted

/-! # Renaming a step

    A new id that the definition does not mention makes a renaming the exchange
    of two ids, which is a bijection.  Edges and diagnostics follow it, and
    renaming back undoes it.
-/

namespace Rochallor.Modeller

/-! ## Edges -/

/-- The edge between the mapped endpoints. -/
def GraphEdge.rename (f : StepId → StepId) (e : GraphEdge) : GraphEdge :=
  { e with id := edgeId (f e.source) (f e.target) e.variant, source := f e.source,
           target := f e.target }

section Edges

variable {f : StepId → StepId}

theorem boundaryEdges_map (id : StepId) (events : Option (List BoundaryEvent)) :
    boundaryEdges (f id) (withRemappedBoundary f events) =
      (boundaryEdges id events).map (GraphEdge.rename f) := by
  cases events with
  | none => rfl
  | some events =>
    show (((events.map fun evt => { evt with targetStepId := f evt.targetStepId }).zipIdx).map _) =
      (events.zipIdx.map _).map _
    rw [List.zipIdx_map, List.map_map, List.map_map]
    rfl

theorem stepEdges_mapIds (hf : KeepsEmpty f) (s : Step) :
    stepEdges (s.mapIds f) = (stepEdges s).map (GraphEdge.rename f) := by
  have hvariant : (s.mapIds f).variant = s.variant.mapRefs f := rfl
  have hid : (s.mapIds f).id = f s.id := rfl
  have hnext : ∀ nextStep : Option StepId,
      ((nextStep.map f).filter fun id => !id.isEmpty).toList.map
          (fun id => makeEdge (f s.id) id .sequential) =
        ((nextStep.filter fun id => !id.isEmpty).toList.map
          fun id => makeEdge s.id id .sequential).map (GraphEdge.rename f) := by
    intro nextStep
    have htargets := nextTargets_map hf nextStep
    rw [nextTargets, nextTargets] at htargets
    rw [htargets, List.map_map, List.map_map]
    rfl
  unfold stepEdges
  rw [hvariant, hid]
  cases s.variant with
  | serviceTask nextStep _ _ _ events =>
    dsimp only [Variant.mapRefs]
    rw [List.map_append, hnext, boundaryEdges_map]
  | userTask nextStep _ events =>
    dsimp only [Variant.mapRefs]
    rw [List.map_append, hnext, boundaryEdges_map]
  | wait nextStep events =>
    dsimp only [Variant.mapRefs]
    rw [List.map_cons, boundaryEdges_map]
    rfl
  | decision branches =>
    dsimp only [Variant.mapRefs]
    rw [List.map_map, List.map_map]
    rfl
  | parallelGateway parallelNextSteps _ =>
    dsimp only [Variant.mapRefs]
    rw [List.zipIdx_map, List.map_map, List.map_map]
    rfl
  | _ => rfl

theorem toEdges_mapIds (hf : KeepsEmpty f) (d : WorkflowDefinition) :
    toEdges (d.mapIds f) = (toEdges d).map (GraphEdge.rename f) := by
  show (d.steps.map (Step.mapIds f)).flatMap stepEdges = (d.steps.flatMap stepEdges).map _
  rw [List.flatMap_map, List.map_flatMap]
  exact congrArg (List.flatMap · d.steps) (funext fun s => stepEdges_mapIds hf s)

end Edges

/-! ## Maps that agree -/

section Congr

variable {f g : StepId → StepId}

/-- Only the ids a step mentions matter. -/
theorem mapRefs_congr {v : Variant} (hempty : f "" = g "")
    (h : ∀ x ∈ v.references, f x.2 = g x.2) : v.mapRefs f = v.mapRefs g := by
  have hnext : ∀ {site nextStep}, (∀ x ∈ nextSites site nextStep, f x.2 = g x.2) →
      nextStep.map f = nextStep.map g := by
    intro site nextStep h
    cases nextStep with
    | none => rfl
    | some next =>
      refine congrArg some ?_
      by_cases hnext : next = ""
      · rw [hnext, hempty]
      · rw [nextSites, nextTargets_some, if_neg hnext] at h
        exact h _ (List.mem_singleton.mpr rfl)
  have hevents : ∀ {events}, (∀ x ∈ eventSites events, f x.2 = g x.2) →
      withRemappedBoundary f events = withRemappedBoundary g events := by
    intro events h
    cases events with
    | none => rfl
    | some events =>
      refine congrArg some (List.map_congr_left fun e he => ?_)
      rw [← List.zipIdx_map_fst 0 events] at he
      obtain ⟨x, hx, rfl⟩ := List.mem_map.mp he
      rw [h _ (List.mem_map_of_mem hx)]
  cases v with
  | serviceTask nextStep jobType delegateClass retryCount events =>
    have hparts := List.forall_mem_append.mp h
    rw [Variant.mapRefs, Variant.mapRefs, hnext hparts.1, hevents hparts.2]
  | userTask nextStep jobType events =>
    have hparts := List.forall_mem_append.mp h
    rw [Variant.mapRefs, Variant.mapRefs, hnext hparts.1, hevents hparts.2]
  | wait nextStep events =>
    have hparts := List.forall_mem_append.mp h
    rw [Variant.mapRefs, Variant.mapRefs, Option.some.inj (hnext hparts.1), hevents hparts.2]
  | decision branches =>
    rw [Variant.mapRefs, Variant.mapRefs]
    refine congrArg Variant.decision (List.map_congr_left fun b hb => ?_)
    rw [h _ (List.mem_map_of_mem hb)]
  | decisionTable hitPolicy nextStep table =>
    rw [Variant.mapRefs, Variant.mapRefs, Option.some.inj (hnext h)]
  | transformation nextStep transformations =>
    rw [Variant.mapRefs, Variant.mapRefs, Option.some.inj (hnext h)]
  | joinGateway nextStep =>
    rw [Variant.mapRefs, Variant.mapRefs, Option.some.inj (hnext h)]
  | parallelGateway parallelNextSteps joinStep =>
    have hparts := List.forall_mem_append.mp h
    rw [Variant.mapRefs, Variant.mapRefs, Option.some.inj (hnext hparts.2)]
    refine congrArg (Variant.parallelGateway · (g joinStep)) (List.map_congr_left fun t ht => ?_)
    rw [← List.zipIdx_map_fst 0 parallelNextSteps] at ht
    obtain ⟨x, hx, rfl⟩ := List.mem_map.mp ht
    exact hparts.1 _ (List.mem_map_of_mem hx)
  | endStep => rfl

theorem mapRefs_mapRefs (v : Variant) : (v.mapRefs f).mapRefs g = v.mapRefs (g ∘ f) := by
  have hevents : ∀ events : Option (List BoundaryEvent),
      withRemappedBoundary g (withRemappedBoundary f events) =
        withRemappedBoundary (g ∘ f) events := by
    rintro (_ | events)
    · rfl
    · exact congrArg some (List.map_map ..)
  cases v with
  | serviceTask nextStep jobType delegateClass retryCount events =>
    simp only [Variant.mapRefs, hevents, Option.map_map]
  | userTask nextStep jobType events =>
    simp only [Variant.mapRefs, hevents, Option.map_map]
  | wait nextStep events =>
    simp only [Variant.mapRefs, hevents, Function.comp_apply]
  | decision branches =>
    simp only [Variant.mapRefs, List.map_map]
    rfl
  | parallelGateway parallelNextSteps joinStep =>
    simp only [Variant.mapRefs, List.map_map, Function.comp_apply]
  | _ => rfl

theorem mapRefs_id (v : Variant) : v.mapRefs (fun id => id) = v := by
  have hevents : ∀ events : Option (List BoundaryEvent),
      withRemappedBoundary (fun id => id) events = events := by
    rintro (_ | events)
    · rfl
    · exact congrArg some (List.map_id _)
  cases v with
  | serviceTask nextStep jobType delegateClass retryCount events =>
    rw [Variant.mapRefs, hevents, Option.map_id']
  | userTask nextStep jobType events =>
    rw [Variant.mapRefs, hevents, Option.map_id']
  | wait nextStep events => rw [Variant.mapRefs, hevents]
  | decision branches => exact congrArg Variant.decision (List.map_id _)
  | parallelGateway parallelNextSteps joinStep =>
    exact congrArg (Variant.parallelGateway · joinStep) (List.map_id _)
  | _ => rfl

end Congr

/-! ## The renaming -/

/-- The step under its new id: its references are mapped and, these apart,
    nothing else is changed. -/
structure StepRenamed (oldId newId : StepId) (s s' : Step) : Prop where
  id : s'.id = remap oldId newId s.id
  references : s'.references = s.references.map fun x => (x.1, remap oldId newId x.2)
  others : { s' with id := s.id, variant := s'.variant.mapRefs fun _ => "" } =
    { s with variant := s.variant.mapRefs fun _ => "" }

/-- The definition does not mention the id. -/
structure Unmentioned (d : WorkflowDefinition) (id : StepId) : Prop where
  ids : ∀ s ∈ d.steps, s.id ≠ id
  refs : ∀ s ∈ d.steps, ∀ x ∈ s.references, x.2 ≠ id

section Rename

variable {d : WorkflowDefinition} {oldId newId : StepId}

theorem stepRenamed (hold : oldId ≠ "") (hnew : newId ≠ "") (s : Step) :
    StepRenamed oldId newId s (s.mapIds (remap oldId newId)) where
  id := rfl
  references := references_mapRefs (keepsEmpty_remap hold hnew) s.variant
  others := by
    show ({ s with variant := (s.variant.mapRefs _).mapRefs fun _ => "" } : Step) = _
    rw [mapRefs_mapRefs]
    rfl

theorem remap_eq_swap {id : StepId} (h : id ≠ newId) :
    remap oldId newId id = Equiv.swap oldId newId id := by
  rw [remap]
  by_cases hid : id = oldId
  · rw [if_pos hid, hid, Equiv.swap_apply_left]
  · rw [if_neg hid, Equiv.swap_apply_of_ne_of_ne hid h]

theorem remap_remap {id : StepId} (h : id ≠ newId) :
    remap newId oldId (remap oldId newId id) = id := by
  rw [remap, remap]
  by_cases hid : id = oldId
  · rw [if_pos hid, if_pos rfl, hid]
  · rw [if_neg hid, if_neg h]

/-- On a definition that does not mention the new id, a renaming is the
    exchange of the two ids. -/
theorem renamesIds (hold : blank oldId = false) (hnew : blank newId = false)
    (hd : Unmentioned d newId) :
    RenamesIds (remap oldId newId) (Equiv.swap oldId newId) d where
  keepsEmpty := by
    intro id
    have hold' := ne_empty_of_not_blank hold
    have hnew' := ne_empty_of_not_blank hnew
    rw [Equiv.swap_apply_eq_iff, Equiv.swap_apply_of_ne_of_ne hold'.symm hnew'.symm]
  keepsBlank := by
    intro id
    by_cases hid : id = oldId
    · rw [hid, Equiv.swap_apply_left, hold, hnew]
    · by_cases hid' : id = newId
      · rw [hid', Equiv.swap_apply_right, hold, hnew]
      · rw [Equiv.swap_apply_of_ne_of_ne hid hid']
  empty := if_neg (ne_empty_of_not_blank hold).symm
  ids := fun s hs => remap_eq_swap (hd.ids s hs)
  refs := fun s hs x hx => remap_eq_swap (hd.refs s hs x hx)

theorem mapIds_remap (hold : blank oldId = false) (hnew : blank newId = false)
    (hd : Unmentioned d newId) :
    d.mapIds (remap oldId newId) = d.mapIds (Equiv.swap oldId newId) := by
  have h := renamesIds hold hnew hd
  refine congrArg (fun steps => { d with steps := steps }) (List.map_congr_left fun s hs => ?_)
  have hvariant : s.variant.mapRefs (remap oldId newId) =
      s.variant.mapRefs (Equiv.swap oldId newId) :=
    mapRefs_congr (h.empty.trans ((h.keepsEmpty "").mpr rfl).symm) (h.refs s hs)
  rw [Step.mapIds, Step.mapIds, h.ids s hs, hvariant]

/-- Renaming back. -/
theorem mapIds_back (hnew : newId ≠ "") (hd : Unmentioned d newId) :
    (d.mapIds (remap oldId newId)).mapIds (remap newId oldId) = d := by
  have hsteps : ∀ s ∈ d.steps, (s.mapIds (remap oldId newId)).mapIds (remap newId oldId) = s := by
    intro s hs
    have hvariant : (s.variant.mapRefs (remap oldId newId)).mapRefs (remap newId oldId) =
        s.variant := by
      rw [mapRefs_mapRefs]
      refine (mapRefs_congr ?_ fun x hx => ?_).trans (mapRefs_id s.variant)
      · show remap newId oldId (remap oldId newId "") = ""
        exact remap_remap hnew.symm
      · exact remap_remap (hd.refs s hs x hx)
    show ({ s with id := remap newId oldId (remap oldId newId s.id),
                   variant := (s.variant.mapRefs (remap oldId newId)).mapRefs
                     (remap newId oldId) } : Step) = s
    rw [hvariant, remap_remap (hd.ids s hs)]
  show ({ d with steps := (d.steps.map _).map _ } : WorkflowDefinition) = d
  rw [List.map_map]
  have hself : d.steps.map (Step.mapIds (remap newId oldId) ∘ Step.mapIds (remap oldId newId)) =
      d.steps := (List.map_congr_left hsteps).trans (List.map_id' _)
  rw [hself]

end Rename

/-- Nothing is parsed. -/
def parseNothing (_ : String) : Except String Expr :=
  .error "not parsed"

/-- A task that leads nowhere yet, and an end without an id. -/
def openTask : WorkflowDefinition :=
  drawing [
    { id := "pay", name := "pay", description := none, extra := [],
      variant := .userTask (some "") none none },
    { id := "", name := "end", description := none, extra := [], variant := .endStep }]

end Rochallor.Modeller
