import Rochallor.Safety.Attempts
import Rochallor.Safety.Delivery
import Rochallor.Safety.References
import Rochallor.Safety.Termination

/-! # Branches and their join

    A `JOIN_GATEWAY` counts the completed executions of the steps that its
    gateway lists.  This is the number of branches that have come to the join
    as long as each branch is one step: a completed execution of the step is
    then followed by a dispatch of the join, in the same transaction, and
    nothing else brings one about.
-/

namespace Rochallor

/-! ## Gateways whose branches are single steps -/

/-- The steps a step can go on to. -/
def WorkflowStep.onward (step : WorkflowStep) : List StepId :=
  if step.type.external then step.successors else step.automaticTargets

/-- A completed execution of the step is followed by a dispatch of `target`. -/
def WorkflowStep.LeadsTo (step : WorkflowStep) (target : StepId) : Prop :=
  match step.type with
  | .serviceTask | .userTask | .wait =>
    step.nextStep = target ∧ ConditionalBranches.len step.conditionalNextSteps = 0
  | .decision | .transformation | .decisionTable => ∀ t ∈ step.automaticTargets, t = target
  | _ => False

/-- Each branch of the gateway is one step, which leads to the join, and
    nothing else leads to the join or into a branch. -/
structure Straight (d : WorkflowDefinition) (g : WorkflowStep) : Prop where
  gateway : findStep d g.id = some g
  found : findParallelGatewayFor d g.joinStep = some g
  join : ∃ join, findStep d g.joinStep = some join ∧ join.type = .joinGateway
  joinStep : g.joinStep ≠ ""
  branches : g.parallelNextSteps ≠ []
  nodup : g.parallelNextSteps.Nodup
  branch : ∀ b ∈ g.parallelNextSteps, ∃ step, findStep d b = some step ∧ step.LeadsTo g.joinStep
  onward : ∀ step ∈ d.steps, ∀ t ∈ step.onward,
    (t = g.joinStep → step.id ∈ g.parallelNextSteps) ∧ (t ∈ g.parallelNextSteps → step.id = g.id)
  timers : ∀ step ∈ d.steps, ∀ be ∈ step.timers,
    be.targetStepId ≠ g.joinStep ∧ be.targetStepId ∉ g.parallelNextSteps
  first : (d.steps.map (·.id)).headD "" ≠ g.joinStep ∧
    (d.steps.map (·.id)).headD "" ∉ g.parallelNextSteps

section Targets

variable {svc : Service} {now : Time} {d : WorkflowDefinition} {tx tx' : Tx}
  {step : WorkflowStep} {next : List StepId}

theorem Dispatched.onward (h : Dispatched svc now d tx step tx' next) :
    ∀ t ∈ next, t ∈ step.onward := by
  intro t ht
  have hauto := h.automatic.subset ht
  by_cases hext : step.type.external = true
  · unfold WorkflowStep.automaticTargets at hauto
    cases htype : step.type <;> simp_all [StepType.external]
  · rwa [WorkflowStep.onward, if_neg hext]

theorem Advanced.onward (h : Advanced now d tx step tx' next) (hext : step.type.external = true) :
    next.length ≤ 1 ∧ ∀ t ∈ next, t ∈ step.onward := by
  rw [WorkflowStep.onward, if_pos hext]
  cases h with
  | on target htarget hnext => exact ⟨Nat.le_refl 1, by simpa using htarget⟩
  | stop hnext hlen => simp
  | fail reason => simp

/-- A decision, a transformation or a decision table goes on unless it fails
    the instance. -/
theorem Dispatched.routed (h : Dispatched svc now d tx step tx' next)
    (htype : step.type = .decision ∨ step.type = .transformation ∨ step.type = .decisionTable) :
    if routingFails svc now tx.inst.vars step then next = [] else ∃ t, next = [t] := by
  cases h with
  | route g vars next _ hpass _ =>
    rw [hpass]
    exact ⟨next, rfl⟩
  | transform g vars _ hpass =>
    rw [hpass]
    exact ⟨_, rfl⟩
  | fail reason _ hfails =>
    rw [hfails]
    rfl
  | service job rows ht => simp [ht] at htype
  | user rows ht => simp [ht] at htype
  | wait rows ht => simp [ht] at htype
  | fork ht => simp [ht] at htype
  | hold gateway ht => simp [ht] at htype
  | join gateway ht => simp [ht] at htype
  | finish chains ht => simp [ht] at htype

theorem Dispatched.parked_next (h : Dispatched svc now d tx step tx' next)
    (hext : step.type.external = true) : next = [] := by
  refine List.eq_nil_iff_forall_not_mem.mpr fun t ht => ?_
  have hauto := h.automatic.subset ht
  unfold WorkflowStep.automaticTargets at hauto
  cases htype : step.type <;> simp_all [StepType.external]

theorem Dispatched.forked (h : Dispatched svc now d tx step tx' next)
    (htype : step.type = .parallelGateway) : next = step.parallelNextSteps := by
  cases h with
  | fork _ => rfl
  | service job rows ht => simp [ht] at htype
  | user rows ht => simp [ht] at htype
  | wait rows ht => simp [ht] at htype
  | route g vars next ht => simp [htype] at ht
  | transform g vars ht => simp [ht] at htype
  | hold gateway ht => simp [ht] at htype
  | join gateway ht => simp [ht] at htype
  | finish chains ht => simp [ht] at htype
  | fail reason ht => simp [htype] at ht

/-- An external step of a branch goes on to the join, whatever its variables. -/
theorem WorkflowStep.LeadsTo.external {target : StepId} (h : step.LeadsTo target)
    (hext : step.type.external = true) : step.nextStep = target ∧
      step.successors = [target] ∧ ∀ svc vars, advanceFails svc vars step = false := by
  have hlead : step.nextStep = target ∧
      ConditionalBranches.len step.conditionalNextSteps = 0 := by
    unfold LeadsTo at h
    cases htype : step.type <;> simp_all [StepType.external]
  obtain ⟨hnext, hlen⟩ := hlead
  unfold WorkflowStep.successors advanceFails
  cases hc : step.conditionalNextSteps with
  | none => exact ⟨hnext, by simp [hnext], fun _ _ => rfl⟩
  | some c =>
    have hempty : c.exprs.isEmpty = true := by
      simpa [hc, ConditionalBranches.len] using hlen
    exact ⟨hnext, by simp [hempty, hnext], fun _ _ => by simp [hempty]⟩

end Targets

/-! ## The branches of an instance -/

/-- The branch has come to its join in the instance. -/
def Db.arrived (db : Db) (i : Nat) (stepID : StepId) : Bool :=
  (db.attempts i stepID).any fun r => decide (r.status = .completed)

/-- Where the branches of the gateway are.  Every attempt of a branch but the
    last has failed, and a branch about to be entered has only failed attempts;
    so each branch comes to the join at most once, and the join has been
    dispatched, or is about to be, once for each branch that has come to it. -/
structure Merging (g : WorkflowStep) (db : Db) (i : Nat) (pending : List StepId) : Prop where
  numbered : Numbered db i
  spent : ∀ b ∈ g.parallelNextSteps, ∀ r ∈ (db.attempts i b).dropLast, r.status = .failed
  once : ∀ b ∈ g.parallelNextSteps, pending.count b ≤ 1
  failed : ∀ b ∈ g.parallelNextSteps, b ∈ pending → ∀ r ∈ db.attempts i b, r.status = .failed
  unentered : db.attempts i g.id = [] →
    ∀ b ∈ g.parallelNextSteps, db.attempts i b = [] ∧ b ∉ pending
  joined : ∀ r ∈ db.attempts i g.joinStep, r.status = .completed
  arrivals : (db.attempts i g.joinStep).length + pending.count g.joinStep =
    g.parallelNextSteps.countP (db.arrived i)
  last : g.joinStep ∉ pending.tail

section Arrived

variable {db db' : Db} {i : Nat} {b : StepId}

theorem arrived_iff : db.arrived i b = true ↔
    ∃ r ∈ db.stepExecutions, r.instanceID = i ∧ r.stepID = b ∧ r.status = .completed := by
  unfold Db.arrived
  rw [List.any_eq_true]
  constructor
  · rintro ⟨r, hr, hs⟩
    obtain ⟨hmem, hi, hb⟩ := mem_attempts.mp hr
    exact ⟨r, hmem, hi, hb, of_decide_eq_true hs⟩
  · rintro ⟨r, hmem, hi, hb, hs⟩
    exact ⟨r, mem_attempts.mpr ⟨hmem, hi, hb⟩, decide_eq_true hs⟩

theorem Untouched.arrived (hu : Untouched i db db') : db'.arrived i = db.arrived i := by
  funext b
  rw [Db.arrived, Db.arrived, hu.attempts]

/-- Rewriting rows without completing one of the branch. -/
theorem arrived_update {p : StepExecution → Bool} {f : StepExecution → StepExecution}
    (hrows : db'.stepExecutions = Table.update p f db.stepExecutions)
    (hkey : ∀ r, (f r).key = r.key)
    (hb : ∀ r ∈ db.stepExecutions, p r = true → r.instanceID = i → r.stepID = b →
      ((f r).status = .completed ↔ r.status = .completed)) :
    db'.arrived i b = db.arrived i b := by
  have hat : db'.attempts i b = (db.attempts i b).map fun r => if p r then f r else r := by
    refine attempts_map hrows fun r => ?_
    split
    · exact hkey r
    · rfl
  rw [Db.arrived, hat, List.any_map, Db.arrived, Bool.eq_iff_iff, List.any_eq_true, List.any_eq_true]
  refine exists_congr fun r => and_congr_right fun hr => ?_
  obtain ⟨hmem, hi, hs⟩ := mem_attempts.mp hr
  simp only [Function.comp_apply, decide_eq_true_eq]
  split
  · rename_i hp
    exact hb r hmem hp hi hs
  · exact Iff.rfl

end Arrived

/-- One more element with the property. -/
theorem countP_flip {α : Type} {p q : α → Bool} {l : List α} {a : α} (hnd : l.Nodup) (ha : a ∈ l)
    (hq : q a = true) (hp : p a = false) (hother : ∀ b ∈ l, b ≠ a → q b = p b) :
    l.countP q = l.countP p + 1 := by
  induction l with
  | nil => cases ha
  | cons b rest ih =>
    obtain ⟨hnot, hnd⟩ := List.nodup_cons.mp hnd
    rcases List.mem_cons.mp ha with rfl | ha
    · have hsame : rest.countP q = rest.countP p := by
        refine List.countP_congr fun c hc => ?_
        rw [hother c (List.mem_cons_of_mem _ hc) fun heq => hnot (heq ▸ hc)]
      rw [List.countP_cons_of_pos hq, List.countP_cons_of_neg (by simp [hp]), hsame]
    · have hne : b ≠ a := fun heq => hnot (heq ▸ ha)
      have ih := ih hnd ha fun c hc => hother c (List.mem_cons_of_mem _ hc)
      rw [List.countP_cons, List.countP_cons, ih, hother b (List.mem_cons_self ..) hne]
      omega

namespace Entered

variable {db db' : Db} {i : Nat} {stepID : StepId} {row : StepExecution}

theorem arrived (he : Entered db db' i stepID row) {b : StepId}
    (hb : b ≠ stepID ∨ row.status ≠ .completed) : db'.arrived i b = db.arrived i b := by
  by_cases hs : b = stepID
  · subst hs
    have hstatus := hb.resolve_left (not_not_intro rfl)
    rw [Db.arrived, he.self, Db.arrived, List.any_append]
    simp [hstatus]
  · rw [Db.arrived, he.other b hs, Db.arrived]

end Entered

namespace Merging

variable {svc : Service} {now : Time} {d : WorkflowDefinition} {g : WorkflowStep} {db db' : Db}
  {i : Nat} {pending : List StepId}

theorem untouched (hu : Untouched i db db') (h : Merging g db i pending) :
    Merging g db' i pending := by
  have hat : ∀ stepID, db'.attempts i stepID = db.attempts i stepID := fun _ => hu.attempts
  constructor
  · exact h.numbered.untouched hu
  · simpa only [hat] using h.spent
  · exact h.once
  · simpa only [hat] using h.failed
  · simpa only [hat] using h.unentered
  · simpa only [hat] using h.joined
  · simpa only [hat, hu.arrived] using h.arrivals
  · exact h.last

/-- A new instance. -/
theorem fresh (hnone : ∀ r ∈ db.stepExecutions, r.instanceID ≠ i) {first : StepId}
    (hfirst : first ≠ g.joinStep ∧ first ∉ g.parallelNextSteps) : Merging g db i [first] := by
  have hat : ∀ stepID, db.attempts i stepID = [] := by
    intro stepID
    refine List.eq_nil_iff_forall_not_mem.mpr fun r hr => ?_
    obtain ⟨hmem, hi, -⟩ := mem_attempts.mp hr
    exact hnone r hmem hi
  have hne : ∀ b ∈ g.parallelNextSteps, b ∉ [first] := by
    intro b hb hmem
    exact hfirst.2 (List.mem_singleton.mp hmem ▸ hb)
  have harrived : g.parallelNextSteps.countP (db.arrived i) = 0 := by
    rw [List.countP_eq_zero]
    intro b _
    simp [Db.arrived, hat]
  constructor
  · exact ⟨fun _ => by simp [hat], fun _ => by simp [hat]⟩
  · simp [hat]
  · intro b hb
    rw [List.count_eq_zero_of_not_mem (hne b hb)]
    exact Nat.zero_le 1
  · simp [hat]
  · exact fun _ b hb => ⟨hat b, hne b hb⟩
  · simp [hat]
  · rw [hat, harrived, List.count_eq_zero_of_not_mem (by simpa using hfirst.1.symm)]
    rfl
  · simp

/-- What an operation does before its dispatches: it closes running executions,
    and is about to enter one step at most.  A branch is entered again only if
    all its attempts have failed. -/
theorem opened (h : Merging g db i []) (hrw : Rewritten db.stepExecutions db'.stepExecutions)
    {steps : List StepId} (hsteps : steps.length ≤ 1)
    (hentered : ∀ b ∈ g.parallelNextSteps, b ∈ steps →
      db.attempts i b ≠ [] ∧ ∀ r ∈ db.attempts i b, r.status = .failed)
    (hsum : g.parallelNextSteps.countP (db'.arrived i) =
      g.parallelNextSteps.countP (db.arrived i) + steps.count g.joinStep) :
    Merging g db' i steps := by
  have hnumbered := h.numbered.rewritten hrw
  obtain ⟨f, hrows, hf, hclosed⟩ := hrw
  have hat : ∀ stepID, db'.attempts i stepID = (db.attempts i stepID).map f :=
    fun _ => attempts_map hrows fun r => (hf r).1
  -- a closed attempt is as it was
  have hkept : ∀ {stepID r}, r ∈ db.attempts i stepID → r.status ≠ .running → f r = r :=
    fun hr hne => hclosed _ (mem_attempts.mp hr).1 hne
  constructor
  · exact hnumbered
  · intro b hb r hr
    rw [hat, ← List.map_dropLast] at hr
    obtain ⟨r₀, hr₀, rfl⟩ := List.mem_map.mp hr
    have hstatus := h.spent b hb r₀ hr₀
    rwa [hkept (List.mem_of_mem_dropLast hr₀) (by simp [hstatus])]
  · exact fun b _ => (List.count_le_length ..).trans hsteps
  · intro b hb hmem r hr
    rw [hat] at hr
    obtain ⟨r₀, hr₀, rfl⟩ := List.mem_map.mp hr
    have hstatus := (hentered b hb hmem).2 r₀ hr₀
    rwa [hkept hr₀ (by simp [hstatus])]
  · intro hnone b hb
    rw [hat, List.map_eq_nil_iff] at hnone
    have hempty := (h.unentered hnone b hb).1
    refine ⟨by rw [hat, hempty, List.map_nil], fun hmem => ?_⟩
    exact (hentered b hb hmem).1 hempty
  · intro r hr
    rw [hat] at hr
    obtain ⟨r₀, hr₀, rfl⟩ := List.mem_map.mp hr
    have hstatus := h.joined r₀ hr₀
    rwa [hkept hr₀ (by simp [hstatus])]
  · have harrivals := h.arrivals
    rw [List.count_nil, Nat.add_zero] at harrivals
    rw [hat, List.length_map, harrivals, hsum]
  · cases steps with
    | nil => simp
    | cons t rest =>
      have hrest : rest = [] := by simpa using hsteps
      simp [hrest]

section Step

variable {stepID : StepId} {row : StepExecution} {next : List StepId}

/-- The step is no branch and not the gateway, and goes on to neither the join
    nor a branch; it may be the join itself. -/
theorem passed (h : Merging g db i (stepID :: pending)) (hn : Numbered db' i)
    (he : Entered db db' i stepID row)
    (hbranch : stepID ∉ g.parallelNextSteps) (hgateway : stepID ≠ g.id)
    (hjoin : stepID = g.joinStep → row.status = .completed)
    (hnext : ∀ t ∈ next, t ≠ g.joinStep ∧ t ∉ g.parallelNextSteps) :
    Merging g db' i (next ++ pending) := by
  have hother : ∀ b ∈ g.parallelNextSteps, b ≠ stepID := fun b hb heq => hbranch (heq ▸ hb)
  have hnot : ∀ b ∈ g.parallelNextSteps, b ∉ next := fun b hb hmem => (hnext b hmem).2 hb
  have hnojoin : g.joinStep ∉ next := fun hmem => (hnext _ hmem).1 rfl
  have harrived : g.parallelNextSteps.countP (db'.arrived i) =
      g.parallelNextSteps.countP (db.arrived i) :=
    List.countP_congr fun b hb => by rw [he.arrived (.inl (hother b hb))]
  constructor
  · exact hn
  · intro b hb
    rw [he.other b (hother b hb)]
    exact h.spent b hb
  · intro b hb
    rw [List.count_append, List.count_eq_zero_of_not_mem (hnot b hb), Nat.zero_add]
    exact (List.count_le_count_cons ..).trans (h.once b hb)
  · intro b hb hmem
    rw [he.other b (hother b hb)]
    rcases List.mem_append.mp hmem with hmem | hmem
    · exact absurd hmem (hnot b hb)
    · exact h.failed b hb (List.mem_cons_of_mem _ hmem)
  · intro hnone b hb
    rw [he.other g.id (Ne.symm hgateway)] at hnone
    obtain ⟨hempty, hpending⟩ := h.unentered hnone b hb
    refine ⟨by rw [he.other b (hother b hb), hempty], fun hmem => ?_⟩
    rcases List.mem_append.mp hmem with hmem | hmem
    · exact hnot b hb hmem
    · exact hpending (List.mem_cons_of_mem _ hmem)
  · intro r hr
    by_cases hs : stepID = g.joinStep
    · rw [← hs, he.self] at hr
      rcases List.mem_append.mp hr with hr | hr
      · exact h.joined r (hs ▸ hr)
      · rw [List.mem_singleton.mp hr]
        exact hjoin hs
    · rw [he.other g.joinStep (Ne.symm hs)] at hr
      exact h.joined r hr
  · have harrivals := h.arrivals
    rw [harrived, ← harrivals, List.count_append, List.count_eq_zero_of_not_mem hnojoin]
    by_cases hs : stepID = g.joinStep
    · -- one pending dispatch less, one execution more
      rw [← hs, he.self, List.length_append, List.length_singleton, List.count_cons_self]
      omega
    · rw [he.other g.joinStep (Ne.symm hs), List.count_cons_of_ne hs, Nat.zero_add]
  · intro hmem
    rcases List.mem_append.mp (List.mem_of_mem_tail hmem) with hmem | hmem
    · exact hnojoin hmem
    · exact h.last hmem

/-- The gateway enters each of its branches for the first time. -/
theorem forked (h : Merging g db i (g.id :: pending)) (hn : Numbered db' i)
    (he : Entered db db' i g.id row)
    (hnodup : g.parallelNextSteps.Nodup) (hjoin : g.joinStep ∉ g.parallelNextSteps)
    (hself : g.id ∉ g.parallelNextSteps) (hne : g.id ≠ g.joinStep)
    (hfirst : db.attempts i g.id = []) : Merging g db' i (g.parallelNextSteps ++ pending) := by
  have hother : ∀ b ∈ g.parallelNextSteps, b ≠ g.id := fun b hb heq => hself (heq ▸ hb)
  have hempty : ∀ b ∈ g.parallelNextSteps, db'.attempts i b = [] := by
    intro b hb
    rw [he.other b (hother b hb)]
    exact (h.unentered hfirst b hb).1
  have hpending : ∀ b ∈ g.parallelNextSteps, b ∉ pending := fun b hb hmem =>
    (h.unentered hfirst b hb).2 (List.mem_cons_of_mem _ hmem)
  have harrived : g.parallelNextSteps.countP (db'.arrived i) =
      g.parallelNextSteps.countP (db.arrived i) :=
    List.countP_congr fun b hb => by rw [he.arrived (.inl (hother b hb))]
  constructor
  · exact hn
  · intro b hb r hr
    rw [hempty b hb] at hr
    cases hr
  · intro b hb
    rw [List.count_append, List.count_eq_zero_of_not_mem (hpending b hb)]
    exact List.nodup_iff_count_le_one.mp hnodup b
  · intro b hb _ r hr
    rw [hempty b hb] at hr
    cases hr
  · intro hnone
    rw [he.self] at hnone
    simp at hnone
  · rw [he.other g.joinStep (Ne.symm hne)]
    exact h.joined
  · rw [harrived, ← h.arrivals, he.other g.joinStep (Ne.symm hne), List.count_append,
      List.count_eq_zero_of_not_mem hjoin, List.count_cons_of_ne hne, Nat.zero_add]
  · intro hmem
    rcases List.mem_append.mp (List.mem_of_mem_tail hmem) with hmem | hmem
    · exact hjoin hmem
    · exact h.last hmem

/-- A branch is entered: it waits or fails, or it goes on to the join at once. -/
theorem branched (h : Merging g db i (stepID :: pending)) (hn : Numbered db' i)
    (he : Entered db db' i stepID row)
    (hnodup : g.parallelNextSteps.Nodup) (hbranch : stepID ∈ g.parallelNextSteps)
    (hgateway : stepID ≠ g.id) (hjoin : g.joinStep ∉ g.parallelNextSteps)
    (hnext : (row.status ≠ .completed ∧ next = []) ∨
      (row.status = .completed ∧ next = [g.joinStep])) :
    Merging g db' i (next ++ pending) := by
  have hne : stepID ≠ g.joinStep := fun heq => hjoin (heq ▸ hbranch)
  have hgone : stepID ∉ pending := by
    have hcount := h.once stepID hbranch
    rw [List.count_cons_self] at hcount
    exact List.count_eq_zero.mp (by omega)
  have hfailed := h.failed stepID hbranch (List.mem_cons_self ..)
  have hnot : ∀ b ∈ g.parallelNextSteps, b ∉ next := by
    intro b hb hmem
    rcases hnext with ⟨-, rfl⟩ | ⟨-, rfl⟩
    · cases hmem
    · exact hjoin (List.mem_singleton.mp hmem ▸ hb)
  constructor
  · exact hn
  · intro b hb
    by_cases hs : b = stepID
    · -- the old attempts have all failed
      subst hs
      rw [he.self, List.dropLast_concat]
      exact hfailed
    · rw [he.other b hs]
      exact h.spent b hb
  · intro b hb
    rw [List.count_append, List.count_eq_zero_of_not_mem (hnot b hb), Nat.zero_add]
    exact (List.count_le_count_cons ..).trans (h.once b hb)
  · intro b hb hmem
    rcases List.mem_append.mp hmem with hmem | hmem
    · exact absurd hmem (hnot b hb)
    · have hs : b ≠ stepID := fun heq => hgone (heq ▸ hmem)
      rw [he.other b hs]
      exact h.failed b hb (List.mem_cons_of_mem _ hmem)
  · intro hnone
    rw [he.other g.id (Ne.symm hgateway)] at hnone
    exact absurd (List.mem_cons_self ..) (h.unentered hnone stepID hbranch).2
  · rw [he.other g.joinStep (Ne.symm hne)]
    exact h.joined
  · have harrivals := h.arrivals
    rw [List.count_cons_of_ne hne] at harrivals
    rw [he.other g.joinStep (Ne.symm hne), List.count_append]
    rcases hnext with ⟨hstatus, rfl⟩ | ⟨hstatus, rfl⟩
    · have harrived : g.parallelNextSteps.countP (db'.arrived i) =
          g.parallelNextSteps.countP (db.arrived i) :=
        List.countP_congr fun b _ => by rw [he.arrived (.inr hstatus)]
      rw [harrived, ← harrivals, List.count_nil, Nat.zero_add]
    · -- the branch comes to the join
      have hnow : db'.arrived i stepID = true := by
        rw [Db.arrived, he.self, List.any_append]
        simp [hstatus]
      have hbefore : db.arrived i stepID = false := by
        rw [Db.arrived, List.any_eq_false]
        intro r hr
        simp [hfailed r hr]
      rw [countP_flip hnodup hbranch hnow hbefore fun b _ hb => he.arrived (.inl hb), ← harrivals,
        List.count_singleton_self]
      omega
  · intro hmem
    rcases hnext with ⟨-, rfl⟩ | ⟨-, rfl⟩
    · exact h.last (List.mem_of_mem_tail hmem)
    · exact h.last hmem

end Step

end Merging

/-! ## Dispatches -/

namespace Straight

variable {d : WorkflowDefinition} {g : WorkflowStep}

theorem type (h : Straight d g) : g.type = .parallelGateway := by
  have hfound := List.find?_some h.found
  simp only [Bool.and_eq_true, beq_iff_eq] at hfound
  exact hfound.1

theorem joinStep_not_mem (h : Straight d g) : g.joinStep ∉ g.parallelNextSteps := by
  intro hmem
  obtain ⟨join, hjoin, htype⟩ := h.join
  obtain ⟨step, hstep, hleads⟩ := h.branch _ hmem
  obtain rfl : join = step := Option.some.inj (hjoin.symm.trans hstep)
  simp [WorkflowStep.LeadsTo, htype] at hleads

theorem id_not_mem (h : Straight d g) : g.id ∉ g.parallelNextSteps := by
  intro hmem
  obtain ⟨step, hstep, hleads⟩ := h.branch _ hmem
  obtain rfl : g = step := Option.some.inj (h.gateway.symm.trans hstep)
  simp [WorkflowStep.LeadsTo, h.type] at hleads

theorem id_ne_joinStep (h : Straight d g) : g.id ≠ g.joinStep := by
  intro heq
  obtain ⟨join, hjoin, htype⟩ := h.join
  rw [← heq] at hjoin
  obtain rfl : g = join := Option.some.inj (h.gateway.symm.trans hjoin)
  rw [h.type] at htype
  cases htype

end Straight

section Dispatches

variable {svc : Service} {now : Time} {d : WorkflowDefinition} {g : WorkflowStep} {tx tx' : Tx}
  {step : WorkflowStep} {next pending : List StepId}

/-- A dispatch moves the branches of a gateway on, provided that it does not
    enter the gateway again. -/
theorem Dispatched.merging (h : Dispatched svc now d tx step tx' next) (hwf : TxWF svc d tx)
    (hfind : findStep d step.id = some step) (hd : Straight d g)
    (hfirst : step.id = g.id → tx.db.attempts tx.inst.id g.id = [])
    (hm : Merging g tx.db tx.inst.id (step.id :: pending)) :
    Merging g tx'.db tx.inst.id (next ++ pending) := by
  obtain ⟨row, he, -, -, hstatus⟩ := h.entered hwf hfind
  have hn := hm.numbered.dispatched h hwf hfind
  by_cases hgateway : step.id = g.id
  · have hg : step = g := by
      rw [hgateway] at hfind
      exact Option.some.inj (hfind.symm.trans hd.gateway)
    subst hg
    rw [h.forked hd.type]
    exact hm.forked hn he hd.nodup hd.joinStep_not_mem hd.id_not_mem hd.id_ne_joinStep (hfirst rfl)
  by_cases hbranch : step.id ∈ g.parallelNextSteps
  · refine hm.branched hn he hd.nodup hbranch hgateway hd.joinStep_not_mem ?_
    obtain ⟨step', hstep', hleads⟩ := hd.branch _ hbranch
    obtain rfl : step = step' := Option.some.inj (hfind.symm.trans hstep')
    by_cases hext : step.type.external = true
    · rw [if_pos hext] at hstatus
      exact .inl ⟨by simp [hstatus], h.parked_next hext⟩
    · rw [if_neg hext] at hstatus
      have htype : step.type = .decision ∨ step.type = .transformation ∨
          step.type = .decisionTable := by
        unfold WorkflowStep.LeadsTo at hleads
        cases htype : step.type <;> simp_all [StepType.external]
      have hrouted := h.routed htype
      have htargets : ∀ t ∈ next, t = g.joinStep := by
        intro t ht
        have hauto := h.automatic.subset ht
        unfold WorkflowStep.LeadsTo at hleads
        rcases htype with htype | htype | htype <;> rw [htype] at hleads <;> exact hleads t hauto
      unfold closedStatus at hstatus
      cases hfails : routingFails svc now tx.inst.vars step with
      | true =>
        simp only [hfails, if_true] at hrouted hstatus
        exact .inl ⟨by simp [hstatus], hrouted⟩
      | false =>
        simp only [hfails, Bool.false_eq_true, if_false] at hrouted hstatus
        obtain ⟨t, rfl⟩ := hrouted
        exact .inr ⟨hstatus, by rw [htargets t (List.mem_singleton_self t)]⟩
  · refine hm.passed hn he hbranch hgateway ?_ ?_
    · intro hjoin
      obtain ⟨join, hfound, htype⟩ := hd.join
      obtain rfl : step = join := by
        rw [hjoin] at hfind
        exact Option.some.inj (hfind.symm.trans hfound)
      have hpass : routingFails svc now tx.inst.vars step = false :=
        Dispatched.routingFails_eq_false (by simp [htype]) _
      rw [hstatus, closedStatus, hpass]
      simp [htype, StepType.external]
    · intro t ht
      have honward := hd.onward step (findStep_mem hfind) t (h.onward t ht)
      exact ⟨fun heq => hbranch (honward.1 heq), fun hmem => hgateway (honward.2 hmem)⟩

end Dispatches

/-! ## Openings -/

namespace Merging

variable {svc : Service} {now : Time} {d : WorkflowDefinition} {g : WorkflowStep} {db db' : Db}
  {i : Nat} {stepID : StepId} {p : StepExecution → Bool} {f : StepExecution → StepExecution}

/-- An execution of a branch that has not failed is the only one. -/
theorem eq_of_unfailed (h : Merging g db i []) (hbranch : stepID ∈ g.parallelNextSteps)
    {r r' : StepExecution} (hr : r ∈ db.attempts i stepID) (hr' : r' ∈ db.attempts i stepID)
    (hs : r.status ≠ .failed) (hs' : r'.status ≠ .failed) : r = r' := by
  have hlast : ∀ {r}, r ∈ db.attempts i stepID → r.status ≠ .failed →
      (db.attempts i stepID).getLast? = some r := by
    intro r hr hs
    have hne := List.ne_nil_of_mem hr
    rw [List.getLast?_eq_some_getLast hne]
    rw [← List.dropLast_append_getLast hne] at hr
    rcases List.mem_append.mp hr with hr | hr
    · exact absurd (h.spent stepID hbranch r hr) hs
    · rw [List.mem_singleton.mp hr]
  exact Option.some.inj ((hlast hr hs).symm.trans (hlast hr' hs'))

/-- Closing executions of a step that is no branch. -/
theorem countP_other (hstep : stepID ∉ g.parallelNextSteps)
    (hrows : db'.stepExecutions = Table.update p f db.stepExecutions)
    (hkey : ∀ r, (f r).key = r.key)
    (hp : ∀ r ∈ db.stepExecutions, p r = true → r.instanceID = i → r.stepID = stepID) :
    g.parallelNextSteps.countP (db'.arrived i) = g.parallelNextSteps.countP (db.arrived i) := by
  refine List.countP_congr fun b hb => ?_
  rw [arrived_update hrows hkey]
  intro r hr hpr hi hs
  exact absurd ((hp r hr hpr hi).symm.trans hs ▸ hb) hstep

/-- Failing executions that run. -/
theorem countP_failed (hrows : db'.stepExecutions = Table.update p f db.stepExecutions)
    (hkey : ∀ r, (f r).key = r.key) (hf : ∀ r, (f r).status = .failed)
    (hp : ∀ r ∈ db.stepExecutions, p r = true → r.status = .running) :
    g.parallelNextSteps.countP (db'.arrived i) = g.parallelNextSteps.countP (db.arrived i) := by
  refine List.countP_congr fun b _ => ?_
  rw [arrived_update hrows hkey]
  intro r hr hpr _ _
  simp [hf, hp r hr hpr]

/-- The running execution of a branch is completed. -/
theorem countP_completed (h : Merging g db i []) (hnodup : g.parallelNextSteps.Nodup)
    (hbranch : stepID ∈ g.parallelNextSteps)
    (hrows : db'.stepExecutions = Table.update p f db.stepExecutions)
    (hkey : ∀ r, (f r).key = r.key) (hf : ∀ r, (f r).status = .completed)
    (hp : ∀ r ∈ db.stepExecutions, p r = true →
      r.instanceID = i ∧ r.stepID = stepID ∧ r.status = .running)
    (hsome : ∃ r ∈ db.stepExecutions, p r = true) :
    g.parallelNextSteps.countP (db'.arrived i) =
      g.parallelNextSteps.countP (db.arrived i) + 1 := by
  obtain ⟨r, hr, hpr⟩ := hsome
  obtain ⟨hi, hs, hrun⟩ := hp r hr hpr
  refine countP_flip hnodup hbranch ?_ ?_ ?_
  · have hid : (f r).instanceID = r.instanceID := congrArg StepKey.instanceID (hkey r)
    have hstep : (f r).stepID = r.stepID := congrArg StepKey.stepID (hkey r)
    refine arrived_iff.mpr ⟨f r, ?_, hid.trans hi, hstep.trans hs, hf r⟩
    rw [hrows]
    exact Table.mem_update_of hr hpr
  · rw [Bool.eq_false_iff]
    intro harrived
    obtain ⟨r', hr', hi', hs', hdone⟩ := arrived_iff.mp harrived
    have heq := h.eq_of_unfailed hbranch (mem_attempts.mpr ⟨hr, hi, hs⟩)
      (mem_attempts.mpr ⟨hr', hi', hs'⟩) (by simp [hrun]) (by simp [hdone])
    rw [heq, hdone] at hrun
    cases hrun
  · intro b _ hb
    refine arrived_update hrows hkey fun r' hr' hpr' _ hs' => ?_
    exact absurd (hs'.symm.trans (hp r' hr' hpr').2.1) hb

/-- An external step is completed, and the instance advances past it. -/
theorem completed (h : Merging g db i []) (hd : Straight d g) {step : WorkflowStep}
    (hfind : findStep d stepID = some step) (hext : step.type.external = true) {tx tx' : Tx}
    {next : List StepId} (hadv : Advanced now d tx step tx' next) {vars : Json}
    (hfails : tx'.inst.status = .failed → advanceFails svc vars step = true)
    (hrw : Rewritten db.stepExecutions tx'.db.stepExecutions)
    (hrows : tx.db.stepExecutions = Table.update p f db.stepExecutions)
    (hkey : ∀ r, (f r).key = r.key) (hf : ∀ r, (f r).status = .completed)
    (hp : ∀ r ∈ db.stepExecutions, p r = true →
      r.instanceID = i ∧ r.stepID = stepID ∧ r.status = .running)
    (hsome : ∃ r ∈ db.stepExecutions, p r = true) : Merging g tx'.db i next := by
  obtain ⟨hlength, honward⟩ := hadv.onward hext
  have hid := findStep_id hfind
  have hnot : ∀ t ∈ next, t ∉ g.parallelNextSteps := by
    intro t ht hmem
    have hgateway := (hd.onward step (findStep_mem hfind) t (honward t ht)).2 hmem
    rw [← hid, hgateway, hd.gateway] at hfind
    rw [← Option.some.inj hfind, hd.type] at hext
    cases hext
  refine h.opened hrw hlength (fun b hb hmem => absurd hb (hnot b hmem)) ?_
  by_cases hbranch : stepID ∈ g.parallelNextSteps
  · obtain ⟨step', hstep', hleads⟩ := hd.branch _ hbranch
    obtain rfl : step = step' := Option.some.inj (hfind.symm.trans hstep')
    obtain ⟨hnext, hsuccessors, hroutes⟩ := hleads.external hext
    have hcompleted : g.parallelNextSteps.countP (tx.db.arrived i) =
        g.parallelNextSteps.countP (db.arrived i) + 1 :=
      h.countP_completed hd.nodup hbranch hrows hkey hf hp hsome
    cases hadv with
    | on target htarget _ =>
      rw [hsuccessors] at htarget
      obtain rfl := List.mem_singleton.mp htarget
      rw [List.count_singleton_self]
      exact hcompleted
    | stop hnone _ => exact absurd (hnext.symm.trans hnone) hd.joinStep
    | fail reason =>
      rw [hroutes] at hfails
      cases hfails rfl
  · have hjoin : g.joinStep ∉ next := by
      intro hmem
      refine hbranch (hid ▸ (hd.onward step (findStep_mem hfind) _ (honward _ hmem)).1 rfl)
    rw [List.count_eq_zero_of_not_mem hjoin, Nat.add_zero]
    have hclosed : g.parallelNextSteps.countP (tx.db.arrived i) =
        g.parallelNextSteps.countP (db.arrived i) :=
      countP_other hbranch hrows hkey fun r hr hpr _ => (hp r hr hpr).2.1
    cases hadv with
    | on target _ _ => exact hclosed
    | stop _ _ => exact hclosed
    | fail reason =>
      have hfailed : g.parallelNextSteps.countP
          ((failInstance now (advanced d tx step) step.id reason).db.arrived i) =
            g.parallelNextSteps.countP (tx.db.arrived i) := by
        refine countP_other hbranch rfl (fun _ => rfl) ?_
        intro r _ hr _
        simp only [Db.runningAt, Bool.and_eq_true, decide_eq_true_eq] at hr
        exact hr.1.2.trans hid
      exact hfailed.trans hclosed

end Merging

/-- The steps a plan is about to dispatch. -/
def Plan.steps (p : Plan) : List StepId :=
  (p.agenda.map (·.2.2)).getD []

/-- What an operation on an instance of the definition does to its branches. -/
theorem Opened.merging {svc : Service} {now : Time} {db : Db} {d : WorkflowDefinition}
    {g : WorkflowStep} {op : Op} {p : Plan} (h : Opened svc now db op p) (hwf : db.WF svc)
    (hdel : Delivery db) (hsourced : Sourced svc db) (hd : Straight d g)
    {inst : WorkflowInstance} (hinst : inst ∈ db.instances) (hruns : Runs svc inst d)
    (hi : op.subject db = some inst.id) (hm : Merging g db inst.id []) :
    Merging g p.tables inst.id p.steps := by
  have hrw := h.rewritten hwf
  have hold : db.nextId ≠ inst.id :=
    Nat.ne_of_gt (hwf.shape.instance_ids.lt inst.id
      (List.mem_map_of_mem (List.mem_map_of_mem hinst)))
  -- the instance that was read, and its definition
  have hread : ∀ {inst' : WorkflowInstance}, db.getInstance inst'.id = some inst' →
      inst'.id = inst.id → inst' = inst :=
    fun hget hid => hwf.instance_eq (getInstance_mem hget) hinst hid
  have hcallback : ∀ {jobID job se inst'}, Callback db jobID job se inst' →
      (db.getJob jobID).map (·.instanceID) = some inst.id → inst' = inst := by
    intro jobID job se inst' hcb hsub
    rw [hcb.job_eq, Option.map_some, ← getInstance_id hcb.inst_eq] at hsub
    exact hread hcb.read_inst (Option.some.inj hsub)
  have hsame : ∀ {d' : WorkflowDefinition}, Runs svc inst d' → d' = d :=
    fun hd' => Except.ok.inj (hd'.symm.trans hruns)
  -- a commit that completes nothing, or fails an execution that runs
  have hkept : p.tables.stepExecutions = db.stepExecutions → p.steps = [] →
      Merging g p.tables inst.id p.steps := by
    intro hrows hsteps
    have harrived : p.tables.arrived inst.id = db.arrived inst.id := by
      funext b
      rw [Db.arrived, Db.attempts, hrows]
      rfl
    rw [hsteps]
    exact hm.opened hrw (Nat.zero_le 1) (fun _ _ hmem => by cases hmem) (by rw [harrived]; rfl)
  have hfails : ∀ {se : StepExecution} {f : StepExecution → StepExecution},
      se ∈ db.stepExecutions → se.status = .running →
      p.tables.stepExecutions =
        Table.update (fun r => decide (r.id = se.id)) f db.stepExecutions →
      (∀ r, (f r).key = r.key) → (∀ r, (f r).status = .failed) →
      g.parallelNextSteps.countP (p.tables.arrived inst.id) =
        g.parallelNextSteps.countP (db.arrived inst.id) := by
    intro se f hse hrun hrows hkey hf
    refine Merging.countP_failed hrows hkey hf fun r hr hid => ?_
    rw [hwf.step_eq hr hse (of_decide_eq_true hid)]
    exact hrun
  have htimer : ∀ {eventID : Nat} {event : BoundaryEventSchedule},
      db.boundaryEvents.find? (Db.dueEvent now eventID inst.id) = some event →
      event.targetStepID ≠ g.joinStep ∧ event.targetStepID ∉ g.parallelNextSteps := by
    intro eventID event hevent
    obtain ⟨inst', hinst', hid', d', hd', step, hstep, be, hbe, htarget⟩ :=
      hsourced event (List.mem_of_find?_eq_some hevent)
    have hdue := dueEvent_iff.mp (List.find?_some hevent)
    obtain rfl := hwf.instance_eq hinst' hinst (hid'.trans hdue.2.1)
    obtain rfl := hsame hd'
    rw [← htarget]
    exact hd.timers step hstep be hbe
  cases h with
  | ignored op hrefused => exact hkept rfl rfl
  | started definitionID version vars businessKey d' json key hd' hsteps =>
    exact absurd (Option.some.inj hi) hold
  | chainStarted source d' json key hd' hsteps hclaim =>
    exact absurd (Option.some.inj hi) hold
  | outputsRejected jobID workerID vars job se inst' violations hcb hacc =>
    refine hm.opened hrw (Nat.zero_le 1) (fun _ _ hmem => by cases hmem) ?_
    exact hfails (getStepExecution_mem hcb.se_eq) (alive_of_acceptsCallback hacc).1.2 rfl
      (fun _ => rfl) fun _ => rfl
  | jobCompleted jobID workerID vars job se inst' d' step g' hcb hacc hd' hfind hnext =>
    obtain rfl := hcallback hcb hi
    obtain rfl := hsame hd'
    refine hm.opened hrw (Nat.zero_le 1) (fun _ _ hmem => by cases hmem) ?_
    have hbranch : se.stepID ∉ g.parallelNextSteps := by
      intro hmem
      obtain ⟨step', hstep', hleads⟩ := hd.branch _ hmem
      obtain rfl : step = step' := Option.some.inj (hfind.symm.trans hstep')
      have hext : step.type.external = true := by
        simp [hcb.step_type hwf hd' hfind, StepType.external]
      exact hd.joinStep ((hleads.external hext).1.symm.trans hnext)
    refine Merging.countP_other hbranch rfl (fun _ => rfl) fun r hr hid _ => ?_
    rw [hcb.step_unique hwf r hr hid]
  | jobAdvanced jobID workerID vars job se inst' d' step g' json tx next hcb hacc hd' hfind hadv
      hleaves hjson hfailed =>
    obtain rfl := hcallback hcb hi
    obtain rfl := hsame hd'
    have hext : step.type.external = true := by
      simp [hcb.step_type hwf hd' hfind, StepType.external]
    refine hm.completed hd hfind hext hadv hfailed hrw rfl (fun _ => rfl) (fun _ => rfl) ?_ ?_
    · intro r hr hid
      rw [hcb.step_unique hwf r hr hid]
      exact ⟨(hcb.service hwf).2, rfl, (alive_of_acceptsCallback hacc).1.2⟩
    · exact ⟨se, getStepExecution_mem hcb.se_eq, by simp⟩
  | jobRetried jobID workerID errorMessage job se inst' hcb hacc hretries =>
    exact hkept (by simp [Plan.tables]) rfl
  | jobFailed jobID workerID errorMessage retryable job se inst' hcb hacc =>
    refine hm.opened hrw (Nat.zero_le 1) (fun _ _ hmem => by cases hmem) ?_
    exact hfails (getStepExecution_mem hcb.se_eq) (alive_of_acceptsCallback hacc).1.2 rfl
      (fun _ => rfl) fun _ => rfl
  | jobReplaced op jobID job se inst' hop hcb halive hlocked =>
    exact hkept (by simp [Plan.tables]) rfl
  | leaseExtended later jobID workerID seconds lease job se inst' hcb halive hlocked howner hvalid =>
    exact hkept rfl rfl
  | polled workerID jobTypes max seconds lease rowLocked =>
    exact hkept (by simp [Plan.tables]) rfl
  | userTaskCompleted stepID vars inst' d' step result merged g' tx next hinst' hflight hd' hfind
      htype hrows hadv hmerged hfailed =>
    obtain rfl := hread hinst' (Option.some.inj hi)
    obtain rfl := hsame hd'
    refine hm.completed hd hfind (by simp [htype, StepType.external]) hadv hfailed hrw rfl
      (fun _ => rfl) (fun _ => rfl) ?_ ?_
    · intro r _ hr
      simp only [Db.runningAt, Bool.and_eq_true, decide_eq_true_eq] at hr
      exact ⟨hr.1.1, hr.1.2, hr.2⟩
    · -- the open task belongs to an execution that runs at the step
      obtain ⟨u, hu, hopen⟩ := List.countP_pos_iff.mp (Nat.pos_of_ne_zero hrows)
      simp only [Db.openAt, Bool.and_eq_true, decide_eq_true_eq] at hopen
      obtain ⟨se, hse, hid, hrun⟩ := hdel.opened u hu hopen.2
      have hkey := hwf.task_step_of_id hu hse hid
      have hsi : se.instanceID = u.instanceID := congrArg StepKey.instanceID hkey
      have hss : se.stepID = u.stepID := congrArg StepKey.stepID hkey
      exact ⟨se, hse, by simp [Db.runningAt, hsi, hss, hopen.1.1, hopen.1.2, hrun]⟩
  | waitSignalled stepID vars inst' d' step merged g' tx next hinst' hflight hd' hfind htype hrows
      hadv hmerged hfailed =>
    obtain rfl := hread hinst' (Option.some.inj hi)
    obtain rfl := hsame hd'
    refine hm.completed hd hfind (by simp [htype, StepType.external]) hadv hfailed hrw rfl
      (fun _ => rfl) (fun _ => rfl) ?_ ?_
    · intro r _ hr
      simp only [Db.runningAt, Bool.and_eq_true, decide_eq_true_eq] at hr
      exact ⟨hr.1.1, hr.1.2, hr.2⟩
    · exact List.countP_pos_iff.mp (Nat.pos_of_ne_zero hrows)
  | timerConsumed eventID inst' event hinst' hevent hdead => exact hkept rfl rfl
  | timerInterrupts eventID inst' event se d' hinst' hevent hinterrupting hse halive hd' =>
    obtain rfl := hread hinst' (Option.some.inj hi)
    have htarget := htimer hevent
    refine hm.opened hrw (Nat.le_refl 1) ?_ ?_
    · intro b hb hmem
      exact absurd (List.mem_singleton.mp hmem ▸ hb) htarget.2
    · rw [hfails (getStepExecution_mem hse) halive.2 rfl (fun _ => rfl) fun _ => rfl]
      exact (Nat.add_zero _).symm.trans (congrArg _ (List.count_eq_zero_of_not_mem
        (by simpa [Plan.steps, Plan.agenda] using htarget.1.symm)).symm)
  | timerForks eventID inst' event se d' hinst' hevent hinterrupting hse halive hd' =>
    obtain rfl := hread hinst' (Option.some.inj hi)
    have htarget := htimer hevent
    refine hm.opened hrw (Nat.le_refl 1) ?_ ?_
    · intro b hb hmem
      exact absurd (List.mem_singleton.mp hmem ▸ hb) htarget.2
    · exact (Nat.add_zero _).symm.trans (congrArg _ (List.count_eq_zero_of_not_mem
        (by simpa [Plan.steps, Plan.agenda] using htarget.1.symm)).symm)
  | housekept retention => exact hkept rfl rfl
  | cancelled inst' reason hinst' hflight => exact hkept rfl rfl
  | stepRetried inst' stepID patch d' g' json hinst' hfailed hlatest hd' step hfind =>
    obtain rfl := hread hinst' (Option.some.inj hi)
    rw [latestStatus_eq, hm.numbered.latest] at hlatest
    obtain ⟨r, hlast, hstatus⟩ : ∃ r, (db.attempts inst'.id stepID).getLast? = some r ∧
        r.status = .failed := by
      cases hlast : (db.attempts inst'.id stepID).getLast? with
      | none => simp [hlast] at hlatest
      | some r =>
        rw [hlast] at hlatest
        exact ⟨r, rfl, Except.ok.inj hlatest⟩
    have hmem := List.mem_of_getLast? hlast
    refine hm.opened hrw (Nat.le_refl 1) ?_ ?_
    · -- all attempts of a branch have failed if the last one has
      intro b hb hb'
      obtain rfl : b = stepID := List.mem_singleton.mp hb'
      refine ⟨List.ne_nil_of_mem hmem, fun r' hr' => ?_⟩
      by_contra hne
      have hne' := List.ne_nil_of_mem hr'
      rw [← List.dropLast_append_getLast hne'] at hr'
      rcases List.mem_append.mp hr' with hr' | hr'
      · exact hne (hm.spent b hb r' hr')
      · rw [List.getLast?_eq_some_getLast hne'] at hlast
        rw [List.mem_singleton.mp hr', Option.some.inj hlast] at hne
        exact hne hstatus
    · -- the join never fails
      have hjoin : g.joinStep ∉ [stepID] := by
        intro hmem'
        obtain rfl := List.mem_singleton.mp hmem'
        rw [hm.joined r hmem] at hstatus
        cases hstatus
      exact (Nat.add_zero _).symm.trans (congrArg _ (List.count_eq_zero_of_not_mem hjoin).symm)

end Rochallor
