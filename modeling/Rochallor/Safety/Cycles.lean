import Rochallor.Modeller.Validate

/-! # The modeller warns of exactly the cycles

    The modeller draws an edge from a step to each target its members and its
    boundary events name, and leaves out a target that is no step.  The search
    of `checkGraphCycle` shares one list of findings and returns early once the
    list has an entry, which leaves steps gray.  Still it ends on every
    definition, it warns exactly when the edges have a cycle, and the step it
    names lies on one.
-/

namespace Rochallor.Modeller

open Relation (TransGen)

/-- A step of the definition names another one as a target. -/
def StepEdge (d : WorkflowDefinition) (a b : StepId) : Prop :=
  (∃ step ∈ d.steps, step.id = a ∧ b ∈ allOutgoing step) ∧ b ∈ d.steps.map (·.id)

/-- The edges lead from the step back to it. -/
def OnCycle (d : WorkflowDefinition) (id : StepId) : Prop :=
  TransGen (StepEdge d) id id

section Index

variable {d : WorkflowDefinition}

/-- Where no id occurs twice, every step is the one the index has for its id. -/
theorem index_of_mem (hids : (d.steps.map (·.id)).Nodup) {step : Step} (hstep : step ∈ d.steps) :
    d.index step.id = some step := by
  have hfound : (d.index step.id).isSome = true := by
    rw [WorkflowDefinition.index, List.find?_isSome]
    exact ⟨step, List.mem_reverse.mpr hstep, by simp⟩
  obtain ⟨other, hother⟩ := Option.isSome_iff_exists.mp hfound
  have hmem : other ∈ d.steps := List.mem_reverse.mp (List.mem_of_find?_eq_some hother)
  have hid : other.id = step.id := by
    have hmatch := List.find?_some hother
    exact beq_iff_eq.mp hmatch
  rw [hother, List.inj_on_of_nodup_map hids hmem hstep hid]

/-- The search follows the edges between the steps. -/
theorem nodeEdge_iff (hids : (d.steps.map (·.id)).Nodup) (a b : StepId) :
    Search.NodeEdge (d.successors allOutgoing) (d.steps.map (·.id)) a b ↔ StepEdge d a b := by
  refine and_congr_left fun _ => ?_
  show b ∈ d.successors allOutgoing a ↔ _
  unfold WorkflowDefinition.successors
  constructor
  · intro hb
    cases hindex : d.index a with
    | none =>
      rw [hindex] at hb
      cases hb
    | some step =>
      rw [hindex] at hb
      have hid : step.id = a := by
        have hmatch := List.find?_some hindex
        exact beq_iff_eq.mp hmatch
      exact ⟨step, List.mem_reverse.mp (List.mem_of_find?_eq_some hindex), hid, hb⟩
  · rintro ⟨step, hstep, rfl, hb⟩
    rw [index_of_mem hids hstep]
    exact hb

theorem onCycle_iff (hids : (d.steps.map (·.id)).Nodup) (id : StepId) :
    TransGen (Search.NodeEdge (d.successors allOutgoing) (d.steps.map (·.id))) id id ↔
      OnCycle d id := by
  have hedges : Search.NodeEdge (d.successors allOutgoing) (d.steps.map (·.id)) = StepEdge d := by
    funext a b
    exact propext (nodeEdge_iff hids a b)
  rw [hedges]
  exact Iff.rfl

end Index

/-- What the search leaves decides the warning: the first entry, if there is
    one. -/
theorem checkGraphCycle_cases {d : WorkflowDefinition} {m : Search.Marking StepId}
    (h : findCycle d (d.steps.length + 1) = some m) :
    m.onCycle.head? = none ∧ checkGraphCycle d = [] ∨
    ∃ c x, m.onCycle.head? = some c ∧ checkGraphCycle d = [x] ∧ x.code = .graphCycle ∧
      x.severity = .warning ∧ x.nodeId = some c := by
  unfold checkGraphCycle
  rw [h, Option.bind_some]
  cases m.onCycle.head? with
  | none => exact .inl ⟨rfl, rfl⟩
  | some c => exact .inr ⟨c, _, rfl, rfl, rfl, rfl, rfl⟩

/-- The search ends, whatever depth it is given beyond the number of steps, with
    what `checkGraphCycle` reads; there is a warning if and only if there is a
    cycle, and it names a step on one. -/
theorem graph_cycle_iff (d : WorkflowDefinition) (hids : (d.steps.map (·.id)).Nodup) :
    (∃ m, ∀ depth, d.steps.length < depth → findCycle d depth = some m) ∧
    ((∃ x ∈ checkGraphCycle d, x.code = .graphCycle) ↔ ∃ id, OnCycle d id) ∧
    ∀ x ∈ checkGraphCycle d, x.code = .graphCycle ∧ x.severity = .warning ∧
      ∃ id, x.nodeId = some id ∧ OnCycle d id := by
  obtain ⟨m, hm⟩ := Search.dfsAll_total (d.successors allOutgoing) (d.steps.map (·.id))
  rw [List.length_map] at hm
  have hends : findCycle d (d.steps.length + 1) = some m := hm _ (Nat.lt_succ_self _)
  have hon : ∀ c, m.onCycle.head? = some c → OnCycle d c :=
    fun c hc => (onCycle_iff hids c).mp (Search.dfsAll_sound hends hc)
  refine ⟨⟨m, hm⟩, ?_⟩
  rcases checkGraphCycle_cases hends with ⟨hnone, hcheck⟩ | ⟨c, x, hc, hcheck, hcode, hsev, hnode⟩
  · -- no entry: a cycle would have left one
    have hacyclic : ∀ id, ¬ OnCycle d id := by
      intro id hcycle
      obtain ⟨c, hc⟩ := Search.dfsAll_complete hends ((onCycle_iff hids id).mpr hcycle)
      rw [hnone] at hc
      cases hc
    rw [hcheck]
    exact ⟨⟨by simp, fun ⟨id, hcycle⟩ => absurd hcycle (hacyclic id)⟩, by simp⟩
  · rw [hcheck]
    refine ⟨⟨fun _ => ⟨c, hon c hc⟩, fun _ => ⟨x, List.mem_singleton_self x, hcode⟩⟩, ?_⟩
    intro y hy
    obtain rfl := List.mem_singleton.mp hy
    exact ⟨hcode, hsev, c, hnode, hon c hc⟩

/-- A payment whose timer leads to a wait, and the wait back to the payment.
    The search leaves the wait gray, and still turns the payment black. -/
def reminder : WorkflowDefinition :=
  { id := "reminder", version := none, name := "reminder", description := none,
    autoStartNextWorkflow := none, nextWorkflowId := none, metadata := none, extra := [],
    steps := [
      { id := "pay", name := "pay", description := none, extra := [],
        variant := .serviceTask (some "done") (some "pay") none none
          (some [{ type := "TIMER", duration := "P7D", interrupting := true,
                   targetStepId := "wait", extra := [] }]) },
      { id := "wait", name := "wait", description := none, extra := [],
        variant := .wait "pay" none },
      { id := "done", name := "done", description := none, extra := [], variant := .endStep }] }

theorem graph_cycle_iff_reminder :
    (checkGraphCycle reminder).map (·.nodeId) = [some "pay"] ∧ ∃ id, OnCycle reminder id := by
  have hwarned : ∃ x ∈ checkGraphCycle reminder, x.code = .graphCycle := by decide +kernel
  have hids : (reminder.steps.map (·.id)).Nodup := by decide +kernel
  exact ⟨by decide +kernel, (graph_cycle_iff reminder hids).2.1.mp hwarned⟩

end Rochallor.Modeller
