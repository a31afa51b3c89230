import Rochallor.Definition.Validator
import Rochallor.Framework.Halting
import Rochallor.Safety.Rule

/-! # How many dispatches a transaction makes

    A step that waits for nobody goes on within the transaction that entered
    it.  Nothing counts these dispatches: the recursion ends because it comes
    to a step that waits, to `END`, to an error, or to a failure.  It need not:
    the validator accepts a cycle of such steps as long as `END` can be reached
    in the graph.  Without such a cycle, the number of dispatches is bounded by
    the definition alone; and a recursion that does not end goes round a cycle.
-/

namespace Rochallor

/-! ## The automatic graph -/

/-- The steps a step can go on to in the transaction that enters it. -/
def WorkflowStep.automaticTargets (step : WorkflowStep) : List StepId :=
  match step.type with
  | .decision => (step.conditionalNextSteps.elim [] fun c => c.exprs.map c.target)
  | .transformation | .decisionTable | .joinGateway => [step.nextStep]
  | .parallelGateway => step.parallelNextSteps
  | _ => []

/-- The same by step id; there are none if the step does not exist. -/
def WorkflowDefinition.automaticTargets (d : WorkflowDefinition) (stepID : StepId) : List StepId :=
  (findStep d stepID).elim [] (·.automaticTargets)

/-- An edge of the automatic graph. -/
def WorkflowDefinition.AutomaticEdge (d : WorkflowDefinition) (stepID target : StepId) : Prop :=
  target ∈ d.automaticTargets stepID

section Dispatches

variable {svc : Service} {now : Time} {d : WorkflowDefinition} {tx tx' : Tx} {step : WorkflowStep}
  {next : List StepId}

/-- A dispatch goes on along the edges of the automatic graph. -/
theorem Dispatched.automatic (h : Dispatched svc now d tx step tx' next) :
    next.Subperm step.automaticTargets := by
  cases h with
  | service job rows htype hrows hids => exact List.nil_subperm
  | user rows htype hrows hids => exact List.nil_subperm
  | wait rows htype hrows hids => exact List.nil_subperm
  | route g vars next htype hpass hnext =>
    rw [List.singleton_subperm_iff]
    rcases hnext with ⟨htable, rfl⟩ | ⟨hdecision, c, e, hc, he, rfl⟩
    · simp [WorkflowStep.automaticTargets, htable]
    · simp only [WorkflowStep.automaticTargets, hdecision, hc, Option.elim_some]
      exact List.mem_map_of_mem he
  | fork htype =>
    simp only [WorkflowStep.automaticTargets, htype]
    exact List.Subperm.refl _
  | transform g vars htype hpass => simp [WorkflowStep.automaticTargets, htype]
  | hold gateway htype hgateway hcount => exact List.nil_subperm
  | join gateway htype hgateway hcount => simp [WorkflowStep.automaticTargets, htype]
  | finish chains htype ids hids hchains => exact List.nil_subperm
  | fail reason htype hfails => exact List.nil_subperm

theorem dispatchStep_follows : Agenda.Follows d.automaticTargets (dispatchStep svc now d) := by
  intro tx stepID tx' next h
  obtain ⟨step, hfind, hdisp⟩ := dispatchStep_dispatched h
  rw [WorkflowDefinition.automaticTargets, hfind]
  exact hdisp.automatic

theorem mem_of_findStep {stepID : StepId} (h : findStep d stepID = some step) :
    stepID ∈ d.steps.map (·.id) := by
  rw [← findStep_id h]
  exact List.mem_map_of_mem (findStep_mem h)

theorem WorkflowDefinition.AutomaticEdge.source_mem {stepID target : StepId}
    (h : d.AutomaticEdge stepID target) : stepID ∈ d.steps.map (·.id) := by
  unfold WorkflowDefinition.AutomaticEdge WorkflowDefinition.automaticTargets at h
  cases hfind : findStep d stepID with
  | none =>
    rw [hfind] at h
    cases h
  | some step => exact mem_of_findStep hfind

/-- No statement says that the dispatches are unfinished. -/
theorem scheduleBoundaryEvents_ne_unfinished {instanceID seID : Nat} {events : List BoundaryEvent}
    {db : Db} : scheduleBoundaryEvents now instanceID seID events db ≠ .error .unfinished := by
  induction events generalizing db with
  | nil => simp [scheduleBoundaryEvents]
  | cons be rest ih =>
    rw [scheduleBoundaryEvents]
    split
    · split
      · simp
      · exact ih
    · exact ih

theorem updateInstanceVariablesPartial_ne_unfinished {db : Db} {instanceID : Nat}
    {patch : GoMap Value} : db.updateInstanceVariablesPartial instanceID patch ≠
      .error .unfinished := by
  unfold Db.updateInstanceVariablesPartial
  split
  · simp
  · split <;> simp

theorem bind_ne_unfinished {α β : Type} {x : Except EngineError α}
    {f : α → Except EngineError β} (hx : x ≠ .error .unfinished)
    (hf : ∀ a, f a ≠ .error .unfinished) : x >>= f ≠ .error .unfinished := by
  intro h
  rcases bind_eq_error h with h | ⟨a, -, h⟩
  · exact hx h
  · exact hf a h

theorem dispatchStep_ne_unfinished (tx : Tx) (stepID : StepId) :
    dispatchStep svc now d tx stepID ≠ .error .unfinished := by
  unfold dispatchStep
  split
  · simp
  · rename_i step hfind
    generalize enterStep tx step stepID = entered
    unfold routeStep
    split
    · exact bind_ne_unfinished scheduleBoundaryEvents_ne_unfinished fun _ h => by cases h
    · exact bind_ne_unfinished scheduleBoundaryEvents_ne_unfinished fun _ h => by cases h
    · unfold handleDecision
      split
      · simp
      · simp only
        split <;> simp
    · unfold handleTransformation
      split
      · simp
      · split
        · simp
        · simp
        · split
          · simp
          · exact bind_ne_unfinished updateInstanceVariablesPartial_ne_unfinished
              fun _ h => by cases h
    · exact bind_ne_unfinished scheduleBoundaryEvents_ne_unfinished fun _ h => by cases h
    · simp [handleParallelGateway]
    · unfold handleJoinGateway
      split
      · simp
      · simp only
        split <;> simp
    · unfold handleEnd
      simp only
      split <;> simp
    · unfold handleDecisionTable
      split
      · simp
      · split
        · simp
        · split
          · simp
          · split
            · simp
            · exact bind_ne_unfinished updateInstanceVariablesPartial_ne_unfinished
                fun _ h => by cases h
    · simp

end Dispatches

/-! ## Termination -/

/-- The steps dispatched, in order, when `stepID` is dispatched and the
    recursion may make `fuel` dispatches. -/
def dispatchedSteps (svc : Service) (now : Time) (d : WorkflowDefinition) (fuel : Nat) (tx : Tx)
    (stepID : StepId) : List StepId :=
  (Agenda.trace (dispatchStep svc now d) fuel tx [stepID]).map (·.item)

/-- The recursion that starts with the dispatch of `stepID` returns after at
    most `n` dispatches. -/
def ReturnsWithin (svc : Service) (now : Time) (d : WorkflowDefinition) (tx : Tx)
    (stepID : StepId) (n : Nat) : Prop :=
  dispatchAll svc now d n tx [stepID] ≠ .error .unfinished ∧
    ∀ fuel, (dispatchedSteps svc now d fuel tx stepID).length ≤ n

/-- The step lies on a cycle of automatic steps and is dispatched more often
    than any number. -/
def GoesRound (svc : Service) (now : Time) (d : WorkflowDefinition) (tx : Tx)
    (stepID onCycle : StepId) : Prop :=
  Relation.ReflTransGen d.AutomaticEdge stepID onCycle ∧
    Relation.TransGen d.AutomaticEdge onCycle onCycle ∧
    ∀ n, ∃ fuel, n ≤ (dispatchedSteps svc now d fuel tx stepID).count onCycle

section Termination

variable {svc : Service} {now : Time} {d : WorkflowDefinition} {tx : Tx} {stepID : StepId}

theorem returnsWithin_of_bound {n : Nat}
    (h : ∀ fuel, (Agenda.trace (dispatchStep svc now d) fuel tx [stepID]).length ≤ n) :
    ReturnsWithin svc now d tx stepID n := by
  refine ⟨Agenda.run_ne_stuck dispatchStep_ne_unfinished h, fun fuel => ?_⟩
  rw [dispatchedSteps, List.length_map]
  exact h fuel

/-- From every state, the recursion ends or goes round a cycle of automatic
    steps; without such a cycle, one number bounds its dispatches from every
    state and with every evaluator. -/
theorem dispatches_finite (d : WorkflowDefinition) (stepID : StepId) :
    (∀ svc now tx, (∃ n, ReturnsWithin svc now d tx stepID n) ∨
      ∃ onCycle, GoesRound svc now d tx stepID onCycle) ∧
    (Agenda.Acyclic d.AutomaticEdge stepID →
      ∃ n, ∀ svc now tx, ReturnsWithin svc now d tx stepID n) := by
  refine ⟨?_, ?_⟩
  · intro svc now tx
    by_cases hhalts : Agenda.Halts (dispatchStep svc now d) tx [stepID]
    · obtain ⟨n, hn⟩ := Agenda.halts_iff.mp hhalts
      exact .inl ⟨n, returnsWithin_of_bound hn⟩
    · refine .inr (Agenda.exists_cycle_of_not_halts (d.steps.map (·.id)) ?_ ?_ hhalts)
      · exact fun h _ hb => (dispatchStep_follows h).subset hb
      · intro tx stepID r h
        obtain ⟨step, hfind, -⟩ := dispatchStep_dispatched h
        exact mem_of_findStep hfind
  · intro hacyclic
    have hacc := Agenda.acc_of_acyclic (fun h => h.source_mem) hacyclic
    obtain ⟨n, hn⟩ := Agenda.exists_bound hacc
    exact ⟨n, fun svc now tx => returnsWithin_of_bound (hn _ dispatchStep_follows tx)⟩

end Termination

/-- A check that is made again as long as it holds. -/
def checkAgain : WorkflowDefinition where
  id := "check-again"
  version := 1
  name := "check again"
  steps := [
    { id := "check", name := "check", type := .decision,
      conditionalNextSteps := some ⟨["true", "false"], [("true", "check"), ("false", "end")]⟩ },
    { id := "end", name := "end", type := .endStep }]

/-- The check goes on to itself and leaves the variables alone. -/
theorem checkAgain_step {now : Time} {tx : Tx} {m : GoMap Value}
    (h : variablesToMap tx.inst.vars = .ok m) :
    ∃ tx', dispatchStep (.ofList [checkAgain]) now checkAgain tx "check" = .ok (tx', ["check"]) ∧
      tx'.inst.vars = tx.inst.vars := by
  refine ⟨closeByStep now (enterStep tx checkAgain.steps.head! "check") checkAgain.steps.head!,
    ?_, rfl⟩
  simp [dispatchStep, findStep, checkAgain, routeStep, handleDecision, h, chooseBranch,
    Service.ofList, ConditionalBranches.target, GoMap.get]

/-- Whatever number of dispatches it may make, the recursion makes them all. -/
theorem checkAgain_endless {now : Time} {m : GoMap Value} (fuel : Nat) :
    ∀ tx : Tx, variablesToMap tx.inst.vars = .ok m →
      (dispatchedSteps (.ofList [checkAgain]) now checkAgain fuel tx "check").length = fuel := by
  induction fuel with
  | zero => exact fun _ _ => rfl
  | succ n ih =>
    intro tx h
    obtain ⟨tx', hstep, hvars⟩ := @checkAgain_step now tx m h
    have hrest := ih tx' (by rw [hvars, h])
    rw [dispatchedSteps, Agenda.trace_cons hstep, List.map_cons, List.length_cons]
    rw [dispatchedSteps] at hrest
    exact congrArg (· + 1) hrest

theorem checkAgain_accepted : Accepted checkAgain := by
  decide +kernel

/-- Starting the accepted workflow never returns. -/
theorem checkAgain_never_returns :
    ¬ ∀ svc : Service, svc.Uploaded Accepted → ∀ d, Accepted d → ∀ stepID ∈ d.steps.map (·.id),
      ∀ now tx, ∃ n, ReturnsWithin svc now d tx stepID n := by
  intro h
  have hup : (Service.ofList [checkAgain]).Uploaded Accepted :=
    Service.uploaded_ofList (by simpa using checkAgain_accepted)
  obtain ⟨n, -, hn⟩ := h _ hup checkAgain checkAgain_accepted "check" (by decide) 0
    (startTx {} checkAgain (.obj []) none)
  have hlength := @checkAgain_endless 0 [] (n + 1)
    (startTx {} checkAgain (.obj []) none) rfl
  have := hn (n + 1)
  omega

end Rochallor
