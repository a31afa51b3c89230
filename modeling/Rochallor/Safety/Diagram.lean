import Rochallor.Monitor.Diagram
import Rochallor.Safety.Trails
import Rochallor.Safety.Uploads

/-! # The diagram shows where an instance can go

    The monitor reads the definition from the engine's table and draws what the
    steps name: their next steps, the branches of decisions and gateways, the
    targets of timers.  The engine goes where its handlers lead.  Wherever it
    has gone, the diagram has a node, and an edge from a node it came from;
    except that a service task, a user task or a wait may have conditional
    branches too, which the engine follows and the monitor does not draw.
-/

namespace Rochallor

open Monitor (DiagramStep Drawn diagramSteps stepMembers)

/-- The definition has conditional branches where the monitor draws them. -/
structure Drawable (d : WorkflowDefinition) : Prop where
  ids : ∀ s ∈ d.steps, s.id ≠ ""
  branches : ∀ s ∈ d.steps, s.type ≠ .decision → ConditionalBranches.len s.conditionalNextSteps = 0

section Edges

variable {d : WorkflowDefinition} {s : WorkflowStep} {t : StepId}

theorem node_of_step (hs : s ∈ d.steps) :
    ∃ node ∈ diagramSteps d.marshal.jsonb, node.text "id" = s.id := by
  rw [Monitor.diagramSteps_column]
  exact ⟨stepMembers s, List.mem_map_of_mem hs, Monitor.text_id s⟩

theorem stepMembers_mem (hs : s ∈ d.steps) : stepMembers s ∈ diagramSteps d.marshal.jsonb := by
  rw [Monitor.diagramSteps_column]
  exact List.mem_map_of_mem hs

theorem drawn_nextStep (hs : s ∈ d.steps) (hnode : ∃ node ∈ diagramSteps d.marshal.jsonb,
    node.text "id" = s.nextStep) (hne : s.nextStep ≠ "") :
    Drawn (diagramSteps d.marshal.jsonb) s.id s.nextStep := by
  have hdrawn := Monitor.drawn_next (stepMembers_mem hs) (by simpa using hnode) (by simpa using hne)
  simpa using hdrawn

theorem drawn_branch (hs : s ∈ d.steps) (htype : s.stored.type = .decision)
    {c : ConditionalBranches} (hc : s.conditionalNextSteps = some c) {e : String}
    (he : e ∈ c.stored.exprs) (hnode : ∃ node ∈ diagramSteps d.marshal.jsonb,
      node.text "id" = c.stored.target e) :
    Drawn (diagramSteps d.marshal.jsonb) s.id (c.stored.target e) := by
  have htext : (stepMembers s).text "type" = "DECISION" := by
    rw [Monitor.text_type, ← StepType.text_ofText s.type.text]
    exact congrArg StepType.text htype
  have hprop : Modeller.prop (stepMembers s) "conditionalNextSteps" =
      some (.obj (c.stored.targets.map fun m => (m.1, .str m.2))) := by
    rw [Monitor.prop_stepMembers s (by decide)]
    simp only [WorkflowStep.member, hc, Option.map_some, marshalJSON_jsonb]
  have hpair : (e, c.stored.target e) ∈ c.stored.targets := by
    have hpairs : c.stored.pairs = c.stored.targets := c.stored_pairs
    rw [← hpairs]
    exact List.mem_map_of_mem he
  have hlast : GoMap.last (c.stored.targets.map fun m => (m.1, Json.str m.2)) e =
      some (.str (c.stored.target e)) := by
    refine GoMap.get_of_mem ?_ (List.mem_reverse.mpr (List.mem_map_of_mem hpair))
    rw [List.map_reverse, List.map_map, List.nodup_reverse]
    exact c.stored_targets_nodup
  have hdrawn := Monitor.drawn_conditional (stepMembers_mem hs) htext hprop hlast hnode
  simpa using hdrawn

theorem drawn_parallelStep (hs : s ∈ d.steps) (htype : s.stored.type = .parallelGateway)
    (ht : t ∈ s.parallelNextSteps) (hnode : ∃ node ∈ diagramSteps d.marshal.jsonb,
      node.text "id" = t) : Drawn (diagramSteps d.marshal.jsonb) s.id t := by
  have htext : (stepMembers s).text "type" = "PARALLEL_GATEWAY" := by
    rw [Monitor.text_type, ← StepType.text_ofText s.type.text]
    exact congrArg StepType.text htype
  have hprop : Modeller.prop (stepMembers s) "parallelNextSteps" =
      some (.arr (s.parallelNextSteps.map .str)) := by
    rw [Monitor.prop_stepMembers s (by decide)]
    cases hsteps : s.parallelNextSteps with
    | nil =>
      rw [hsteps] at ht
      cases ht
    | cons a rest => simp [WorkflowStep.member, omitItems, hsteps, Json.jsonb, jsonbItems_eq_map]
  have hdrawn := Monitor.drawn_parallel (stepMembers_mem hs) htext hprop (List.mem_map_of_mem ht) hnode
  simpa using hdrawn

theorem drawn_timer (hs : s ∈ d.steps) {be : BoundaryEvent} (hbe : be ∈ s.boundaryEvents)
    (hnode : ∃ node ∈ diagramSteps d.marshal.jsonb, node.text "id" = be.targetStepId) :
    Drawn (diagramSteps d.marshal.jsonb) s.id be.targetStepId := by
  have hprop : Modeller.prop (stepMembers s) "boundaryEvents" =
      some (.arr (s.boundaryEvents.map fun be => be.marshal.jsonb)) := by
    rw [Monitor.prop_stepMembers s (by decide)]
    cases hevents : s.boundaryEvents with
    | nil =>
      rw [hevents] at hbe
      cases hbe
    | cons a rest => simp [WorkflowStep.member, omitItems, hevents, Json.jsonb, jsonbItems_eq_map]
  have hnodup : (sortKeys ["type", "duration", "interrupting", "targetStepId"]).Nodup :=
    (sortKeys_perm _).nodup_iff.mpr (by decide)
  have hevent : be.marshal.jsonb = .obj (membersOf
      (sortKeys ["type", "duration", "interrupting", "targetStepId"]) fun k =>
        (be.member k).map Json.jsonb) := by
    rw [BoundaryEvent.marshal, jsonb_membersOf (by decide)]
  have htarget : Modeller.prop (membersOf (sortKeys ["type", "duration", "interrupting",
      "targetStepId"]) fun k => (be.member k).map Json.jsonb) "targetStepId" =
        some (.str be.targetStepId) := by
    rw [Modeller.prop, Monitor.last_membersOf hnodup _ ((sortKeys_perm _).mem_iff.mpr (by decide))]
    rfl
  have hdrawn := Monitor.drawn_boundary (stepMembers_mem hs) hprop
    (hevent ▸ List.mem_map_of_mem hbe) htarget hnode
  simpa using hdrawn

/-- Where a step of the running definition leads, an edge is drawn in the
    document it was read from. -/
theorem drawn_of_leads (hs : s ∈ d.steps) (hbranches : s.stored.type ≠ .decision →
      ConditionalBranches.len s.stored.conditionalNextSteps = 0) (hlead : t ∈ s.stored.leads)
    (hne : t ≠ "") (hnode : ∃ node ∈ diagramSteps d.marshal.jsonb, node.text "id" = t) :
    Drawn (diagramSteps d.marshal.jsonb) s.id t := by
  have hnext : t = s.nextStep → Drawn (diagramSteps d.marshal.jsonb) s.id t := by
    rintro rfl
    exact drawn_nextStep hs hnode hne
  rcases List.mem_append.mp hlead with honward | htimer
  · unfold WorkflowStep.onward at honward
    split at honward
    · -- a step that waits goes on to its next step
      rename_i hext
      have hlen : ConditionalBranches.len s.stored.conditionalNextSteps = 0 := by
        refine hbranches fun htype => ?_
        rw [htype] at hext
        cases hext
      unfold WorkflowStep.successors at honward
      split at honward
      · rename_i c hc
        rw [hc] at hlen
        have hempty : c.exprs = [] := List.length_eq_zero_iff.mp hlen
        rw [hempty] at honward
        exact hnext (List.mem_singleton.mp honward)
      · exact hnext (List.mem_singleton.mp honward)
    · unfold WorkflowStep.automaticTargets at honward
      split at honward
      · rename_i htype
        cases hc : s.conditionalNextSteps with
        | none => simp [WorkflowStep.stored, hc] at honward
        | some c =>
          simp only [WorkflowStep.stored, hc, Option.map_some, Option.elim_some] at honward
          obtain ⟨e, he, rfl⟩ := List.mem_map.mp honward
          exact drawn_branch hs htype hc he hnode
      · exact hnext (List.mem_singleton.mp honward)
      · exact hnext (List.mem_singleton.mp honward)
      · exact hnext (List.mem_singleton.mp honward)
      · rename_i htype
        exact drawn_parallelStep hs htype honward hnode
      · cases honward
  · obtain ⟨be, hbe, rfl⟩ := List.mem_map.mp htimer
    have hmem := List.mem_of_mem_filter hbe
    simp only [WorkflowStep.stored] at hmem
    obtain ⟨be₀, hbe₀, rfl⟩ := List.mem_map.mp hmem
    have htarget : be₀.stored.targetStepId = be₀.targetStepId := rfl
    rw [htarget] at hnode ⊢
    exact drawn_timer hs hbe₀ hnode

end Edges

/-! ## Runs -/

/-- A step of the running definition is one of the document's. -/
theorem stored_step {d : WorkflowDefinition} {v : Int} {stepID : StepId} {step : WorkflowStep}
    (h : findStep { d.stored with version := v } stepID = some step) :
    ∃ s ∈ d.steps, step = s.stored ∧ s.id = stepID := by
  have hmem : step ∈ d.steps.map (·.stored) := findStep_mem h
  have hid : step.id = stepID := findStep_id h
  obtain ⟨s, hs, rfl⟩ := List.mem_map.mp hmem
  exact ⟨s, hs, rfl, hid⟩

/-- How the diagram shows an execution of the instance. -/
structure Shown (nodes : List DiagramStep) (i : Nat) (db : Db) (se : StepExecution) : Prop where
  node : ∃ node ∈ nodes, node.text "id" = se.stepID
  /-- It is at the first node, has been executed before, or an edge leads to it
      from the node of an earlier execution. -/
  edge : se.stepID = (nodes.map (·.text "id")).headD "" ∨
    ∃ before ∈ db.stepExecutions, before.instanceID = i ∧ before.id < se.id ∧
      (before.stepID = se.stepID ∨ Drawn nodes before.stepID se.stepID)
  /-- Edges lead to it from the first node. -/
  path : Relation.ReflTransGen (Drawn nodes) ((nodes.map (·.text "id")).headD "") se.stepID

/-- In every run, every execution of an instance has a node in the diagram the
    monitor draws from the stored document, and edges lead to it. -/
theorem executions_shown (svc : Service) (store : DefinitionStore)
    (hsvc : svc.defRepo = store.repository) (calls : List Call) (inst : WorkflowInstance)
    (hinst : inst ∈ (run svc calls).instances) (row : DefinitionRow) (hrow : row ∈ store.rows)
    (hkey : row.id = inst.definitionID ∧ row.version = inst.definitionVersion)
    (hdrawable : ∀ d, Runs svc inst d → Drawable d) (se : StepExecution)
    (hse : se ∈ (run svc calls).stepExecutions) (hown : se.instanceID = inst.id) :
    Shown (diagramSteps row.rawJson) inst.id (run svc calls) se := by
  have hwf := wf_run svc calls
  obtain ⟨d, hrange, hid, hraw⟩ := store.holds row hrow
  -- the instance runs what the row holds
  have hruns : Runs svc inst { d.stored with version := row.version } := by
    unfold Runs
    rw [hsvc, ← hkey.1, ← hkey.2]
    show orMessage "" (store.getVersion row.id row.version) = _
    rw [store.getVersion_of_mem hrow, DefinitionStore.scan_ok hrange hraw]
    rfl
  have hdraw := hdrawable _ hruns
  have howns : Owns svc { d.stored with version := row.version } inst.id (run svc calls) := by
    intro inst' hinst' hid'
    obtain rfl := hwf.instance_eq hinst' hinst hid'
    exact hruns
  have htrail := trail_run calls howns
  have hnodes : (diagramSteps row.rawJson).map (·.text "id") = d.steps.map (·.id) := by
    rw [hraw, Monitor.diagramSteps_column, List.map_map]
    exact List.map_congr_left fun s _ => Monitor.text_id s
  have hfirst : (d.stored.steps.map (·.id)).headD "" =
      ((diagramSteps row.rawJson).map (·.text "id")).headD "" := by
    rw [hnodes, WorkflowDefinition.stored, List.map_map]
    rfl
  -- what has been executed is a step of the document
  have hnode : ∀ k ∈ (run svc calls).stepKeys, k.instanceID = inst.id → k.stepID ≠ "" ∧
      ∃ node ∈ diagramSteps row.rawJson, node.text "id" = k.stepID := by
    intro k hk hinstID
    obtain ⟨e, he, hid', d', hd', step, hfind, -⟩ := hwf.shape.step_instance k hk
    obtain ⟨inst', hinst', rfl⟩ := List.mem_map.mp he
    obtain rfl := hwf.instance_eq hinst' hinst (hid'.trans hinstID)
    obtain rfl : d' = { d.stored with version := row.version } :=
      Except.ok.inj (hd'.symm.trans hruns)
    obtain ⟨s, hs, rfl, hsid⟩ := stored_step hfind
    refine ⟨?_, ?_⟩
    · rw [← hsid]
      exact hdraw.ids s.stored (findStep_mem hfind)
    · rw [← hsid, hraw]
      exact node_of_step hs
  have hedge : ∀ {a b : StepId}, b ∈ WorkflowDefinition.leads { d.stored with version := row.version } a →
      (∃ k ∈ (run svc calls).stepKeys, k.instanceID = inst.id ∧ k.stepID = b) →
      Drawn (diagramSteps row.rawJson) a b := by
    rintro a b hlead ⟨k, hk, hinstID, rfl⟩
    unfold WorkflowDefinition.leads at hlead
    cases hfind : findStep { d.stored with version := row.version } a with
    | none => simp [hfind] at hlead
    | some step =>
      rw [hfind, Option.elim_some] at hlead
      obtain ⟨s, hs, rfl, hsid⟩ := stored_step hfind
      obtain ⟨hne, hat⟩ := hnode k hk hinstID
      rw [hraw] at hat ⊢
      rw [← hsid]
      exact drawn_of_leads hs (hdraw.branches s.stored (findStep_mem hfind)) hlead hne hat
  have hmem : se.key ∈ (run svc calls).stepKeys := List.mem_map_of_mem hse
  refine ⟨(hnode se.key hmem hown).2, ?_, ?_⟩
  · rcases htrail.steps se.key hmem hown with hstart | ⟨k, hk, hinstID, hlt, hsame | hlead⟩
    · exact .inl (hstart.trans hfirst)
    · obtain ⟨before, hbefore, rfl⟩ := List.mem_map.mp hk
      exact .inr ⟨before, hbefore, hinstID, hlt, .inl hsame⟩
    · obtain ⟨before, hbefore, rfl⟩ := List.mem_map.mp hk
      exact .inr ⟨before, hbefore, hinstID, hlt, .inr (hedge hlead ⟨se.key, hmem, hown, rfl⟩)⟩
  · rw [← hfirst]
    exact (htrail.reaches hmem hown).lift id fun a b hab => hedge hab.1 hab.2

theorem shipOrder_inRange : shipOrder.InRange := ⟨by decide, by decide⟩

/-- The table with one definition. -/
def shipOrderStore : DefinitionStore :=
  DefinitionStore.empty.insert shipOrder shipOrder_inRange

/-- Its row. -/
def shipOrderRow : DefinitionRow :=
  ⟨"ship-order", 1, "ship order", shipOrder.marshal.jsonb⟩

/-- A service that reads its definitions from the table. -/
def shippingService : Service :=
  { Service.ofList [] with defRepo := shipOrderStore.repository }

theorem executions_shown_shipOrder :
    (run shippingService [shipOrder.start]).stepExecutions.map (·.stepID) =
      ["fork", "charge", "review"] ∧
    ∀ se ∈ (run shippingService [shipOrder.start]).stepExecutions,
      Shown (diagramSteps shipOrderRow.rawJson) 0 (run shippingService [shipOrder.start]) se := by
  obtain ⟨inst, hinst, hid, hkey⟩ : ∃ inst ∈ (run shippingService [shipOrder.start]).instances,
      inst.id = 0 ∧ shipOrderRow.id = inst.definitionID ∧
        shipOrderRow.version = inst.definitionVersion := by
    decide +kernel
  have hone : ∀ se ∈ (run shippingService [shipOrder.start]).stepExecutions, se.instanceID = 0 := by
    decide +kernel
  have hrow : shipOrderRow ∈ shipOrderStore.rows := List.mem_singleton_self _
  have hdrawable : ∀ d, Runs shippingService inst d → Drawable d := by
    intro d hd
    unfold Runs at hd
    rw [← hkey.1, ← hkey.2] at hd
    change orMessage "" (shipOrderStore.getVersion shipOrderRow.id shipOrderRow.version) = _ at hd
    have hstored : shipOrderStore.getVersion shipOrderRow.id shipOrderRow.version = .ok d :=
      orMessage_eq_ok hd
    rw [shipOrderStore.getVersion_of_mem hrow,
      DefinitionStore.scan_ok shipOrder_inRange rfl] at hstored
    obtain rfl := Except.ok.inj hstored
    exact ⟨by decide, by decide⟩
  refine ⟨by decide +kernel, fun se hse => ?_⟩
  rw [← hid]
  exact executions_shown shippingService shipOrderStore rfl [shipOrder.start] inst hinst
    shipOrderRow hrow hkey hdrawable se hse ((hone se hse).trans hid.symm)

end Rochallor
