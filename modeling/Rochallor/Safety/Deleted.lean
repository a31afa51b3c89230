import Rochallor.Modeller.References

/-! # Deleting a step

    `scrubRefs` and `rewriteRefs` each go through the references on their own.
    A deletion leaves no reference to the step and keeps the others in their
    order; a replacement redirects them, so that the deletion that follows finds
    none to scrub.
-/

namespace Rochallor.Modeller

/-! ## Scrubbing -/

/-- The step without its references to the id. -/
structure Scrubbed (id : StepId) (s s' : Step) : Prop where
  frame : s'.frame = s.frame
  events : s'.boundaryEvents = s.boundaryEvents.filter fun e => e.targetStepId != id
  references : s'.references.map (fun x => (x.1.field, x.2)) =
    (s.references.filter fun x => x.2 != id).map fun x => (x.1.field, x.2)

/-- The step with its references to one id leading to another. -/
structure Redirected (oldId newId : StepId) (s s' : Step) : Prop where
  frame : s'.frame = s.frame
  events : s'.boundaryEvents = s.boundaryEvents.map fun e =>
    { e with targetStepId := remap oldId newId e.targetStepId }
  references : s'.references = s.references.map fun x => (x.1, remap oldId newId x.2)

section Scrub

variable {id : StepId}

theorem filter_set {m : GoMap Json} (k : String) (v : Json) :
    ((m.set k v).filter fun e => e.1 != k) = m.filter fun e => e.1 != k := by
  rw [GoMap.set]
  by_cases h : (m.any fun e => e.1 == k) = true
  · rw [if_pos h]
    clear h
    induction m with
    | nil => rfl
    | cons e rest ih =>
      rw [List.map_cons]
      by_cases he : e.1 = k
      · rw [if_pos (by simpa using he), List.filter_cons_of_neg (by simp),
          List.filter_cons_of_neg (by simp [he])]
        exact ih
      · rw [if_neg (by simpa using he), List.filter_cons_of_pos (by simpa using he),
          List.filter_cons_of_pos (by simpa using he), ih]
  · rw [if_neg h, List.filter_append, List.filter_cons_of_neg (by simp)]
    exact List.append_nil _

/-- The table is left alone but for the members of the old format. -/
theorem scrubTable_frame (table : DecisionTable) : (scrubTable id table).frame = table.frame := by
  have hrules : ∀ r : DecisionTableRule,
      ({ scrubRule id r with
          extra := (scrubRule id r).extra.filter fun e => e.1 != "then" } : DecisionTableRule) =
        { r with extra := r.extra.filter fun e => e.1 != "then" } := by
    intro r
    unfold scrubRule
    split
    · rw [filter_set]
    · rfl
  have hextra : ((scrubTable id table).extra.filter fun e => e.1 != "defaultNextStep") =
      table.extra.filter fun e => e.1 != "defaultNextStep" := by
    rw [scrubTable, List.filter_append, List.filter_filter]
    simp only [Bool.and_self]
    refine (congrArg _ ?_).trans (List.append_nil _)
    refine List.filter_eq_nil_iff.mpr fun e he => ?_
    split at he
    · split at he
      · rw [List.mem_singleton.mp he]
        simp
      · cases he
    · cases he
  rw [DecisionTable.frame, DecisionTable.frame, hextra]
  congr 1
  rw [scrubTable, List.map_map]
  exact List.map_congr_left fun r _ => hrules r

theorem scrub_frame (v : Variant) : (v.scrub id).frame = v.frame := by
  have hevents : ∀ events : Option (List BoundaryEvent),
      (scrubEvents id events).map (fun _ => ([] : List BoundaryEvent)) =
        events.map fun _ => [] := by
    rintro (_ | events)
    · rfl
    · rfl
  have hnext : ∀ nextStep : Option StepId,
      (nextStep.map (scrubNext id)).map (fun _ => "") = nextStep.map fun _ => "" := by
    rintro (_ | nextStep)
    · rfl
    · rfl
  cases v with
  | serviceTask nextStep jobType delegateClass retryCount events =>
    simp only [Variant.scrub, Variant.frame, hevents, hnext]
  | userTask nextStep jobType events =>
    simp only [Variant.scrub, Variant.frame, hevents, hnext]
  | wait nextStep events => simp only [Variant.scrub, Variant.frame, hevents]
  | decision branches => rfl
  | decisionTable hitPolicy nextStep table =>
    show Variant.decisionTable hitPolicy "" (scrubTable id table).frame = _
    rw [scrubTable_frame]
    rfl
  | transformation _ _ => rfl
  | joinGateway _ => rfl
  | parallelGateway _ _ => rfl
  | endStep => rfl

theorem nextSites_scrub (site : Site) (nextStep : Option StepId) :
    nextSites site (nextStep.map (scrubNext id)) =
      (nextSites site nextStep).filter fun x => x.2 != id := by
  cases nextStep with
  | none => rfl
  | some next =>
    show nextSites site (some (scrubNext id next)) = _
    rw [nextSites, nextSites, nextTargets_some, nextTargets_some, scrubNext]
    by_cases hnext : next = id
    · rw [if_pos hnext, if_pos rfl]
      by_cases hempty : next = ""
      · rw [if_pos hempty]
        rfl
      · rw [if_neg hempty]
        simp [hnext]
    · rw [if_neg hnext]
      by_cases hempty : next = ""
      · rw [if_pos hempty]
        rfl
      · rw [if_neg hempty]
        simp [hnext]

theorem eventSites_scrub (events : Option (List BoundaryEvent)) :
    (eventSites (scrubEvents id events)).map (fun x => (x.1.field, x.2)) =
      ((eventSites events).filter fun x => x.2 != id).map fun x => (x.1.field, x.2) := by
  have hnumbered : ∀ es : List BoundaryEvent,
      (eventSites (some es)).map (fun x => (x.1.field, x.2)) =
        es.map fun e => (Site.boundaryEvent 0, e.targetStepId) := by
    intro es
    conv_rhs => rw [← List.zipIdx_map_fst 0 es, List.map_map]
    rw [eventSites, List.map_map]
    rfl
  cases events with
  | none => rfl
  | some events =>
    show (eventSites (some (events.filter _))).map _ = _
    rw [hnumbered, eventSites, List.filter_map, List.map_map]
    exact (filter_zipIdx_fst (fun e : BoundaryEvent => e.targetStepId != id)
      (fun e => (Site.boundaryEvent 0, e.targetStepId)) events).symm

/-- Scrubbing takes the references to the id away, and no others. -/
theorem scrubbed (s : Step) : Scrubbed id s { s with variant := s.variant.scrub id } where
  frame := by
    show ({ s with variant := (s.variant.scrub id).frame } : Step) = _
    rw [scrub_frame]
    rfl
  events := by
    have hevents : ∀ events : Option (List BoundaryEvent),
        (scrubEvents id events).getD [] = (events.getD []).filter fun e => e.targetStepId != id := by
      rintro (_ | events)
      · rfl
      · rfl
    unfold Step.boundaryEvents
    dsimp only
    cases s.variant with
    | serviceTask _ _ _ _ events => exact hevents events
    | userTask _ _ events => exact hevents events
    | wait _ events => exact hevents events
    | _ => rfl
  references := by
    unfold Step.references
    dsimp only
    cases s.variant with
    | serviceTask nextStep _ _ _ events =>
      show (nextSites _ (nextStep.map (scrubNext id)) ++ eventSites (scrubEvents id events)).map _ =
        ((nextSites _ nextStep ++ eventSites events).filter _).map _
      rw [List.map_append, List.filter_append, List.map_append, nextSites_scrub, eventSites_scrub]
    | userTask nextStep _ events =>
      show (nextSites _ (nextStep.map (scrubNext id)) ++ eventSites (scrubEvents id events)).map _ =
        ((nextSites _ nextStep ++ eventSites events).filter _).map _
      rw [List.map_append, List.filter_append, List.map_append, nextSites_scrub, eventSites_scrub]
    | wait nextStep events =>
      show (nextSites _ ((some nextStep).map (scrubNext id)) ++
          eventSites (scrubEvents id events)).map _ =
        ((nextSites _ (some nextStep) ++ eventSites events).filter _).map _
      rw [List.map_append, List.filter_append, List.map_append, nextSites_scrub, eventSites_scrub]
    | decision branches =>
      show ((branches.filter _).map _).map _ = ((branches.map _).filter _).map _
      rw [List.filter_map]
      rfl
    | decisionTable _ nextStep _ =>
      exact congrArg (List.map _) (nextSites_scrub .nextStep (some nextStep))
    | transformation nextStep _ =>
      exact congrArg (List.map _) (nextSites_scrub .nextStep (some nextStep))
    | joinGateway nextStep =>
      exact congrArg (List.map _) (nextSites_scrub .nextStep (some nextStep))
    | parallelGateway parallelNextSteps joinStep =>
      show ((parallelNextSteps.filter _).zipIdx.map _ ++
          nextSites _ ((some joinStep).map (scrubNext id))).map _ =
        ((parallelNextSteps.zipIdx.map _ ++ nextSites _ (some joinStep)).filter _).map _
      rw [List.map_append, List.filter_append, List.map_append, nextSites_scrub, List.filter_map,
        List.map_map, List.map_map]
      congr 1
      have hnumbered : ∀ xs : List StepId, xs.zipIdx.map (fun t => (Site.parallel 0, t.1)) =
          xs.map fun t => (Site.parallel 0, t) := by
        intro xs
        conv_rhs => rw [← List.zipIdx_map_fst 0 xs, List.map_map]
        rfl
      exact (hnumbered _).trans (filter_zipIdx_fst (fun t : StepId => t != id)
        (fun t => (Site.parallel 0, t)) parallelNextSteps).symm
    | endStep => rfl

/-- Where no reference leads to the id, only the old format is scrubbed. -/
theorem scrub_of_unreferenced (hid : id ≠ "") {v : Variant} (h : ∀ x ∈ v.references, x.2 ≠ id) :
    v.scrub id = v ∨ ∃ hitPolicy nextStep table, v = .decisionTable hitPolicy nextStep table ∧
      v.scrub id = .decisionTable hitPolicy nextStep (scrubTable id table) := by
  have hnext : ∀ {site nextStep}, (∀ x ∈ nextSites site nextStep, x.2 ≠ id) →
      nextStep.map (scrubNext id) = nextStep := by
    intro site nextStep h
    cases nextStep with
    | none => rfl
    | some next =>
      have hne : next ≠ id := by
        rintro rfl
        rw [nextSites, nextTargets_some, if_neg hid] at h
        exact h _ (List.mem_singleton.mpr rfl) rfl
      rw [Option.map_some, scrubNext, if_neg hne]
  have hevents : ∀ {events}, (∀ x ∈ eventSites events, x.2 ≠ id) →
      scrubEvents id events = events := by
    intro events h
    cases events with
    | none => rfl
    | some events =>
      refine congrArg some (List.filter_eq_self.mpr fun e he => ?_)
      rw [← List.zipIdx_map_fst 0 events] at he
      obtain ⟨x, hx, rfl⟩ := List.mem_map.mp he
      simpa using h _ (List.mem_map_of_mem hx)
  cases v with
  | serviceTask nextStep jobType delegateClass retryCount events =>
    have hparts := List.forall_mem_append.mp h
    left
    show Variant.serviceTask (nextStep.map (scrubNext id)) _ _ _ (scrubEvents id events) = _
    rw [hnext hparts.1, hevents hparts.2]
  | userTask nextStep jobType events =>
    have hparts := List.forall_mem_append.mp h
    left
    show Variant.userTask (nextStep.map (scrubNext id)) _ (scrubEvents id events) = _
    rw [hnext hparts.1, hevents hparts.2]
  | wait nextStep events =>
    have hparts := List.forall_mem_append.mp h
    left
    show Variant.wait (scrubNext id nextStep) (scrubEvents id events) = _
    rw [Option.some.inj (hnext hparts.1), hevents hparts.2]
  | decision branches =>
    left
    show Variant.decision (branches.filter _) = _
    rw [List.filter_eq_self.mpr fun b hb => by simpa using h _ (List.mem_map_of_mem hb)]
  | decisionTable hitPolicy nextStep table =>
    right
    refine ⟨hitPolicy, nextStep, table, rfl, ?_⟩
    show Variant.decisionTable _ (scrubNext id nextStep) _ = _
    rw [Option.some.inj (hnext h)]
  | transformation nextStep transformations =>
    left
    show Variant.transformation (scrubNext id nextStep) _ = _
    rw [Option.some.inj (hnext h)]
  | joinGateway nextStep =>
    left
    show Variant.joinGateway (scrubNext id nextStep) = _
    rw [Option.some.inj (hnext h)]
  | parallelGateway parallelNextSteps joinStep =>
    have hparts := List.forall_mem_append.mp h
    have htargets : ∀ t ∈ parallelNextSteps, t ≠ id := by
      intro t ht
      rw [← List.zipIdx_map_fst 0 parallelNextSteps] at ht
      obtain ⟨x, hx, rfl⟩ := List.mem_map.mp ht
      exact hparts.1 _ (List.mem_map_of_mem hx)
    left
    show Variant.parallelGateway (parallelNextSteps.filter _) (scrubNext id joinStep) = _
    rw [Option.some.inj (hnext hparts.2),
      List.filter_eq_self.mpr fun t ht => by simpa using htargets t ht]
  | endStep => exact .inl rfl

end Scrub

/-! ## Replacing -/

section Replace

variable {oldId newId : StepId}

theorem keepsEmpty_remap (hold : oldId ≠ "") (hnew : newId ≠ "") :
    KeepsEmpty (remap oldId newId) := by
  intro id
  rw [remap]
  by_cases h : id = oldId
  · rw [if_pos h]
    exact iff_of_false hnew fun hid => hold (h.symm.trans hid)
  · rw [if_neg h]

theorem remap_ne (hne : newId ≠ oldId) (id : StepId) : remap oldId newId id ≠ oldId := by
  rw [remap]
  by_cases h : id = oldId
  · rw [if_pos h]
    exact hne
  · rw [if_neg h]
    exact h

/-- After a replacement the deletion finds no reference to scrub. -/
theorem redirected (hold : oldId ≠ "") (hnew : newId ≠ "") (hne : newId ≠ oldId) (s : Step) :
    Redirected oldId newId s
      { rewriteRefs s oldId newId with
        variant := (rewriteRefs s oldId newId).variant.scrub oldId } := by
  have hrefs : (s.variant.mapRefs (remap oldId newId)).references =
      s.variant.references.map fun x => (x.1, remap oldId newId x.2) :=
    references_mapRefs (keepsEmpty_remap hold hnew) s.variant
  have hunreferenced : ∀ x ∈ (s.variant.mapRefs (remap oldId newId)).references, x.2 ≠ oldId := by
    intro x hx
    rw [hrefs] at hx
    obtain ⟨y, -, rfl⟩ := List.mem_map.mp hx
    exact remap_ne hne y.2
  refine ⟨?_, ?_, ?_⟩
  · show ({ s with variant := ((s.variant.mapRefs _).scrub oldId).frame } : Step) = _
    rw [scrub_frame, frame_mapRefs]
    rfl
  · refine Eq.trans ?_ (boundaryEvents_mapRefs (remap oldId newId) s)
    show ({ s with variant := (s.variant.mapRefs (remap oldId newId)).scrub oldId } :
      Step).boundaryEvents = _
    rcases scrub_of_unreferenced hold hunreferenced with h | ⟨hitPolicy, nextStep, table, hv, h⟩
    · rw [h]
    · rw [h, hv]
      rfl
  · refine Eq.trans ?_ hrefs
    show ((s.variant.mapRefs (remap oldId newId)).scrub oldId).references = _
    rcases scrub_of_unreferenced hold hunreferenced with h | ⟨hitPolicy, nextStep, table, hv, h⟩
    · rw [h]
    · rw [h, hv]
      rfl

end Replace

/-! ## The whole definition -/

/-- A definition with these steps. -/
def drawing (steps : List Step) : WorkflowDefinition where
  id := "order"
  version := none
  name := "order"
  description := none
  autoStartNextWorkflow := none
  nextWorkflowId := none
  steps := steps
  metadata := none
  extra := []

/-- A payment with a timer beside it; both go on to the ledger entry. -/
def payment : WorkflowDefinition :=
  drawing [
    { id := "pay", name := "pay", description := none, extra := [],
      variant := .userTask (some "book") none (some [⟨"TIMER", "PT1H", true, "book", []⟩]) },
    { id := "book", name := "book", description := none, extra := [],
      variant := .transformation "end" [("booked", .bool true)] },
    { id := "end", name := "end", description := none, extra := [], variant := .endStep }]

/-- The members of the old format that name a step. -/
def Step.oldReferences (s : Step) : List String :=
  match s.variant with
  | .decisionTable _ _ table =>
    (table.rules.filterMap fun r => prop r.extra "then").filterMap zString ++
      ((prop table.extra "defaultNextStep").bind zString).toList
  | _ => []

/-- A table of the old format: its rule goes to the step itself. -/
def oldTable : WorkflowDefinition :=
  drawing [
    { id := "grade", name := "grade", description := none, extra := [],
      variant := .decisionTable "F" "end"
        { rules := [{ conditions := [], outputs := [], extra := [("then", .str "book")] }],
          extra := [] } },
    { id := "book", name := "book", description := none, extra := [],
      variant := .transformation "end" [("booked", .bool true)] },
    { id := "end", name := "end", description := none, extra := [], variant := .endStep }]

/-- A join that does not lead on yet, and an end without an id. -/
def openJoin : WorkflowDefinition :=
  drawing [
    { id := "join", name := "join", description := none, extra := [],
      variant := .joinGateway "" },
    { id := "", name := "end", description := none, extra := [], variant := .endStep }]

end Rochallor.Modeller
