import Rochallor.Data.Range
import Rochallor.Definition.Validator
import Rochallor.Engine
import Rochallor.Safety.HitPolicies

/-! # Data errors

    A step that evaluates expressions meets a data error in one of two ways:
    `failInstance` records it and the transaction commits, or the handler
    returns it and the transaction is rolled back, the callback that led to the
    step included.  `handleDecision` never returns one.  The other two handlers
    return an error over numbers: `handleTransformation` when it cannot decode
    the variables or a value of the step, and both when a value they have
    computed has no JSON form.
-/

namespace Rochallor

/-! ## Steps -/

/-- The step evaluates expressions when it is dispatched. -/
def WorkflowStep.evaluates (step : WorkflowStep) : Bool :=
  step.type == .decision || step.type == .transformation || step.type == .decisionTable

/-- The document is an object, or null, with numbers in range. -/
def mapInRange : Json → Bool
  | .obj members => membersInRange members
  | .null => true
  | _ => false

/-- The numbers the handler meets on the variables can be read and written. -/
def WorkflowStep.NumbersFit (svc : Service) (now : Time) (step : WorkflowStep) (raw : Json) :
    Prop :=
  match step.type with
  | .transformation => mapInRange raw = true ∧ ∀ vars, variablesToMap raw = .ok vars →
      -- a value is decoded once the entries before it are evaluated
      (∀ done k value rest, step.transformations = done ++ (k, value) :: rest →
        (∃ r, runTransformations svc now done vars [] = .ok r) → value.inRange = true) ∧
      ∀ vars' delta, runTransformations svc now step.transformations vars [] = .ok (vars', delta) →
        ∀ e ∈ delta, e.2.finite = true
  | .decisionTable => ∀ vars outputs, variablesToMap raw = .ok vars →
      evaluateDecisionTable svc now vars step = .ok outputs → ∀ e ∈ outputs, e.2.finite = true
  | _ => True

section Steps

variable {svc : Service} {now : Time} {d : WorkflowDefinition} {tx tx' : Tx} {step : WorkflowStep}
  {stepID : StepId} {raw : Json} {vars vars' delta outputs : GoMap Value}

theorem variablesToMap_isSome (raw : Json) :
    (variablesToMap raw).toOption.isSome = mapInRange raw := by
  unfold variablesToMap
  split
  · rw [isSome_bind_pure]
    exact isSome_toMembers _
  · rfl
  · rename_i hobj hnull
    cases raw with
    | obj members => exact absurd rfl (hobj members)
    | null => exact absurd rfl hnull
    | bool _ | num _ _ | str _ | arr _ => rfl

theorem finite_of_stable {v : Value} (h : v.Stable) : v.finite = true := by
  obtain ⟨j, hj, -⟩ := h
  rw [← isSome_json, Value.json, hj]
  rfl

/-- The merged variables can be written if the new values can. -/
theorem isSome_overlay (hstable : ∀ e ∈ vars, e.2.Stable) {m : GoMap Value}
    (hm : (m.map (·.1)).Nodup) (hget : ∀ k, m.get k = (delta.last k).or (vars.get k))
    (hdelta : ∀ e ∈ delta, e.2.finite = true) : ∃ j, (Value.obj m).marshal = .ok j := by
  have hfinite : (Value.obj m).finite = true := by
    rw [Value.finite, membersFinite_iff]
    intro e he
    have hk := GoMap.get_of_mem hm he
    rw [hget] at hk
    rcases Option.or_eq_some_iff.mp hk with hk | ⟨-, hk⟩
    · exact hdelta _ (GoMap.mem_of_last hk)
    · exact finite_of_stable (hstable _ (GoMap.mem_of_get hk))
  rw [← isSome_json] at hfinite
  obtain ⟨j, hj⟩ := Option.isSome_iff_exists.mp hfinite
  exact ⟨j, toOption_eq_some.mp hj⟩

/-- Where the loop of a transformation aborts. -/
theorem runTransformations_abort {ts : GoMap Json} {text : String}
    (h : runTransformations svc now ts vars delta = .error (.abort text)) :
    ∃ done k value rest, ts = done ++ (k, value) :: rest ∧
      (∃ r, runTransformations svc now done vars delta = .ok r) ∧ value.inRange = false := by
  induction ts generalizing vars delta with
  | nil => cases h
  | cons e rest ih =>
    obtain ⟨k, value⟩ := e
    rw [runTransformations] at h
    cases hv : value.toValue with
    | error text' =>
      refine ⟨[], k, value, rest, rfl, ⟨_, rfl⟩, ?_⟩
      rw [← isSome_toValue, hv]
      rfl
    | ok v₀ =>
      rw [hv] at h
      simp only at h
      cases hr : resolveTemplate svc now vars v₀ with
      | error text' =>
        rw [hr] at h
        cases h
      | ok v =>
        rw [hr] at h
        obtain ⟨done, k', value', rest', hsplit, ⟨r, hrun⟩, hrange⟩ := ih h
        refine ⟨(k, value) :: done, k', value', rest', by rw [hsplit]; rfl, ⟨r, ?_⟩, hrange⟩
        rw [runTransformations, hv]
        simp only [hr]
        exact hrun

/-- And only there. -/
theorem runTransformations_reads {done : GoMap Json} (k : String) (rest : GoMap Json)
    {value : Json} {r : GoMap Value × GoMap Value}
    (hdone : runTransformations svc now done vars delta = .ok r)
    (hrange : value.inRange = false) :
    ∃ text, runTransformations svc now (done ++ (k, value) :: rest) vars delta =
      .error (.abort text) := by
  induction done generalizing vars delta with
  | nil =>
    rw [← isSome_toValue] at hrange
    rw [List.nil_append, runTransformations]
    cases hv : value.toValue with
    | error text => exact ⟨_, rfl⟩
    | ok v =>
      rw [hv] at hrange
      cases hrange
  | cons e done ih =>
    obtain ⟨key, v₁⟩ := e
    rw [runTransformations] at hdone
    rw [List.cons_append, runTransformations]
    cases hv : v₁.toValue with
    | error text =>
      rw [hv] at hdone
      cases hdone
    | ok v₀ =>
      rw [hv] at hdone
      simp only at hdone ⊢
      cases hr : resolveTemplate svc now vars v₀ with
      | error text =>
        rw [hr] at hdone
        cases hdone
      | ok v =>
        rw [hr] at hdone
        exact ih hdone

/-- A loop that does not abort has come to no value out of range. -/
theorem inRange_of_run {ts : GoMap Json}
    (h : ∀ text, runTransformations svc now ts vars [] ≠ .error (.abort text)) :
    ∀ done k value rest, ts = done ++ (k, value) :: rest →
      (∃ r, runTransformations svc now done vars [] = .ok r) → value.inRange = true := by
  rintro done k value rest rfl ⟨r, hr⟩
  cases hrange : value.inRange with
  | true => rfl
  | false =>
    obtain ⟨text, htext⟩ := runTransformations_reads k rest hr hrange
    exact absurd htext (h text)

theorem handleTransformation_ok_iff (htype : step.type = .transformation) {seID : Nat} :
    (∃ r, handleTransformation svc now tx step seID = .ok r) ↔
      step.NumbersFit svc now tx.inst.vars := by
  have hmap := variablesToMap_isSome tx.inst.vars
  unfold handleTransformation WorkflowStep.NumbersFit
  simp only [htype]
  cases hvars : variablesToMap tx.inst.vars with
  | error e =>
    rw [hvars] at hmap
    refine iff_of_false (by rintro ⟨r, hr⟩; cases hr) fun h => ?_
    rw [← hmap] at h
    exact absurd h.1 (by simp [Except.toOption])
  | ok vars =>
    rw [hvars] at hmap
    simp only [← hmap]
    cases hrun : runTransformations svc now step.transformations vars [] with
    | error e =>
      cases e with
      | abort text =>
        refine iff_of_false (by rintro ⟨r, hr⟩; cases hr) fun h => ?_
        obtain ⟨done, k, value, rest, hsplit, hdone, hrange⟩ := runTransformations_abort hrun
        rw [(h.2 vars rfl).1 done k value rest hsplit hdone] at hrange
        cases hrange
      | fail reason =>
        refine iff_of_true ⟨_, rfl⟩ ⟨rfl, ?_⟩
        rintro vars' ⟨⟩
        refine ⟨inRange_of_run fun text htext => ?_, fun vars' delta h => ?_⟩
        · rw [hrun] at htext
          cases htext
        · rw [hrun] at h
          cases h
    | ok r =>
      obtain ⟨vars', delta⟩ := r
      simp only
      by_cases hfinite : ∀ e ∈ delta, e.2.finite = true
      · obtain ⟨hnodup, hget⟩ := runTransformations_overlay hrun (variablesToMap_ok hvars).1
          List.nodup_nil fun _ => rfl
        obtain ⟨merged, hmerged⟩ := isSome_overlay (variablesToMap_stable hvars) hnodup hget hfinite
        obtain ⟨p, hp⟩ := marshalMembers_isOk fun e he => (isSome_json e.2).trans (hfinite e he)
        refine iff_of_true ?_ ⟨rfl, ?_⟩
        · simp only [hmerged, updateInstanceVariablesPartial_eq hp]
          exact ⟨_, rfl⟩
        · rintro vars' ⟨⟩
          refine ⟨inRange_of_run fun text htext => ?_, fun vars'' delta' h => ?_⟩
          · rw [hrun] at htext
            cases htext
          · rw [hrun] at h
            cases h
            exact hfinite
      · refine iff_of_false ?_ fun h => hfinite ((h.2 vars rfl).2 vars' delta hrun)
        rintro ⟨r, hr⟩
        refine hfinite fun e he => ?_
        split at hr
        · cases hr
        · -- the patch of the row is written too
          obtain ⟨db, hdb, -⟩ := bind_eq_ok hr
          obtain ⟨g, p, -, hp, -⟩ := updateInstanceVariablesPartial_ok hdb
          exact (isSome_json e.2).symm.trans (json_of_marshalMembers hp e he)

theorem handleDecisionTable_ok_iff (htype : step.type = .decisionTable) :
    (∃ r, handleDecisionTable svc now tx step = .ok r) ↔ step.NumbersFit svc now tx.inst.vars := by
  unfold handleDecisionTable WorkflowStep.NumbersFit
  simp only [htype]
  cases hvars : variablesToMap tx.inst.vars with
  | error e => exact iff_of_true ⟨_, rfl⟩ fun vars outputs h => by cases h
  | ok vars =>
    simp only
    cases heval : evaluateDecisionTable svc now vars step with
    | error reason =>
      refine iff_of_true ⟨_, rfl⟩ ?_
      rintro vars' outputs ⟨⟩ h
      rw [heval] at h
      cases h
    | ok outputs =>
      simp only
      by_cases hfinite : ∀ e ∈ outputs, e.2.finite = true
      · refine iff_of_true ?_ ?_
        · by_cases hempty : outputs.isEmpty = true
          · simp only [hempty, if_true]
            exact ⟨_, rfl⟩
          · obtain ⟨merged, hmerged⟩ := isSome_overlay (variablesToMap_stable hvars)
              (overlay_nodup (variablesToMap_nodup hvars)) (GoMap.get_overlay vars outputs) hfinite
            obtain ⟨p, hp⟩ :=
              marshalMembers_isOk fun e he => (isSome_json e.2).trans (hfinite e he)
            simp only [hempty, Bool.false_eq_true, if_false, hmerged,
              updateInstanceVariablesPartial_eq hp]
            exact ⟨_, rfl⟩
        · rintro vars' outputs' ⟨⟩ h
          rw [heval] at h
          cases h
          exact hfinite
      · refine iff_of_false ?_ fun h => hfinite (h vars outputs rfl heval)
        rintro ⟨r, hr⟩
        refine hfinite fun e he => ?_
        have hempty : outputs.isEmpty = false :=
          List.isEmpty_eq_false_iff.mpr (List.ne_nil_of_mem he)
        simp only [hempty, Bool.false_eq_true, if_false] at hr
        split at hr
        · cases hr
        · obtain ⟨db, hdb, -⟩ := bind_eq_ok hr
          obtain ⟨g, p, -, hp, -⟩ := updateInstanceVariablesPartial_ok hdb
          exact (isSome_json e.2).symm.trans (json_of_marshalMembers hp e he)

theorem handleDecision_ok (tx : Tx) (step : WorkflowStep) :
    ∃ r, handleDecision svc now tx step = .ok r := by
  unfold handleDecision
  split
  · exact ⟨_, rfl⟩
  · simp only
    split
    · exact ⟨_, rfl⟩
    · exact ⟨_, rfl⟩
    · exact ⟨_, rfl⟩

/-- The dispatch of a step that evaluates expressions returns an error exactly
    over numbers that do not fit. -/
theorem dispatchStep_ok_iff (hfind : findStep d stepID = some step)
    (heval : step.evaluates = true) :
    (∃ r, dispatchStep svc now d tx stepID = .ok r) ↔
      step.NumbersFit svc now tx.inst.vars := by
  have hvars : (enterStep tx step stepID).inst.vars = tx.inst.vars := rfl
  simp only [dispatchStep, hfind, routeStep]
  simp only [WorkflowStep.evaluates, Bool.or_eq_true, beq_iff_eq] at heval
  rcases heval with (htype | htype) | htype
  · simp only [htype, WorkflowStep.NumbersFit, iff_true]
    exact handleDecision_ok _ _
  · simp only [htype]
    rw [handleTransformation_ok_iff htype, hvars]
  · simp only [htype]
    rw [handleDecisionTable_ok_iff htype, hvars]

/-- Where it goes on to no step, it has failed the instance. -/
theorem dispatchStep_fails (hfind : findStep d stepID = some step)
    (heval : step.evaluates = true) (h : dispatchStep svc now d tx stepID = .ok (tx', [])) :
    ∃ reason, tx' = failInstance now (enterStep tx step stepID) step.id reason := by
  simp only [dispatchStep, hfind, routeStep] at h
  simp only [WorkflowStep.evaluates, Bool.or_eq_true, beq_iff_eq] at heval
  rcases heval with (htype | htype) | htype
  · simp only [htype, handleDecision] at h
    split at h
    · cases h
      exact ⟨_, rfl⟩
    · split at h
      · cases h
        exact ⟨_, rfl⟩
      · cases h
        exact ⟨_, rfl⟩
      · cases h
  · simp only [htype, handleTransformation] at h
    split at h
    · cases h
    · split at h
      · cases h
      · cases h
        exact ⟨_, rfl⟩
      · split at h
        · cases h
        · obtain ⟨db, -, h⟩ := bind_eq_ok h
          cases h
  · simp only [htype, handleDecisionTable] at h
    split at h
    · cases h
      exact ⟨_, rfl⟩
    · split at h
      · cases h
        exact ⟨_, rfl⟩
      · split at h
        · cases h
        · split at h
          · cases h
          · obtain ⟨db, -, h⟩ := bind_eq_ok h
            cases h

end Steps

/-! ## Calls -/

/-- The call dispatches a step that evaluates expressions. -/
structure Evaluates (svc : Service) (db : Db) (call : Call) (m : Dispatch) (step : WorkflowStep) :
    Prop where
  attempted : m ∈ attempts svc db call
  found : findStep m.definition m.stepID = some step
  evaluates : step.evaluates = true

/-- The data errors of the call end the instance: none is returned to the
    caller, and where an evaluation comes to nothing `failInstance` has been
    called. -/
structure DataErrorsEnd (svc : Service) (db : Db) (call : Call) : Prop where
  noError : ∀ e, transact svc db call = .error e → ∀ m step, Evaluates svc db call m step →
    dispatchStep svc m.now m.definition m.tx m.stepID ≠ .error e
  fails : ∀ m step tx', Evaluates svc db call m step →
    dispatchStep svc m.now m.definition m.tx m.stepID = .ok (tx', []) →
      ∃ reason, tx' = failInstance m.now (enterStep m.tx step m.stepID) step.id reason

/-- A dispatch that returns an error rolls the call back with it. -/
theorem transact_of_error {svc : Service} {db : Db} {call : Call} {m : Dispatch} {e : EngineError}
    (hm : m ∈ attempts svc db call)
    (he : dispatchStep svc m.now m.definition m.tx m.stepID = .error e) :
    transact svc db call = .error e := by
  unfold attempts at hm
  unfold transact
  cases hp : plan svc call.now db call.op with
  | error e' => simp [hp] at hm
  | ok p =>
    simp only [hp, Plan.dispatches] at hm
    cases p with
    | commit db' reply => simp [Plan.agenda] at hm
    | dispatch d tx steps =>
      obtain ⟨x, hx, rfl⟩ := List.mem_map.mp hm
      show (do let tx ← dispatchAll svc call.now d call.fuel tx steps; _) = _
      rw [dispatchAll, Agenda.run_of_error hx he]
      rfl
    | chain d tx steps source =>
      obtain ⟨x, hx, rfl⟩ := List.mem_map.mp hm
      show (do let tx ← dispatchAll svc call.now d call.fuel tx steps; _) = _
      rw [dispatchAll, Agenda.run_of_error hx he]
      rfl

/-- The data errors of a call end the instance if and only if the numbers of
    every step the call evaluates can be read and written. -/
theorem data_errors_end_iff (svc : Service) (db : Db) (call : Call) :
    DataErrorsEnd svc db call ↔
      ∀ m step, Evaluates svc db call m step → step.NumbersFit svc m.now m.tx.inst.vars := by
  constructor
  · intro h m step hm
    rw [← dispatchStep_ok_iff hm.found hm.evaluates]
    cases hs : dispatchStep svc m.now m.definition m.tx m.stepID with
    | ok r => exact ⟨r, rfl⟩
    | error e => exact absurd hs (h.noError e (transact_of_error hm.attempted hs) m step hm)
  · intro h
    constructor
    · intro e _ m step hm he
      obtain ⟨r, hr⟩ := (dispatchStep_ok_iff hm.found hm.evaluates).mpr (h m step hm)
      rw [he] at hr
      cases hr
    · exact fun m step tx' hm hs => dispatchStep_fails hm.found hm.evaluates hs

/-- A service task, and a transformation by the given expression after it. -/
def chargeAndCompute (expr : String) : WorkflowDefinition where
  id := "charge-and-compute"
  version := 1
  name := "charge and compute"
  steps := [
    { id := "charge", name := "charge", type := .serviceTask, jobType := "charge",
      nextStep := "compute" },
    { id := "compute", name := "compute", type := .transformation, nextStep := "end",
      transformations := [("share", .str ("$\x7b" ++ expr ++ "\x7d"))] },
    { id := "end", name := "end", type := .endStep }]

/-- A service that divides one by zero. -/
def Service.dividing (rows : List WorkflowDefinition) : Service :=
  { Service.ofList rows with
    evaluateExpr := fun expr _ =>
      if expr = "1 / 0" then .ok (.float .posInf) else .error "unknown name" }

/-- The completion of the job in front of an infinite quotient is rolled
    back. -/
theorem infinite_quotient_rolls_back :
    ¬ ∀ svc : Service, svc.Uploaded Accepted → ∀ calls jobID workerID vars now fuel,
      DataErrorsEnd svc (run svc calls) ⟨.completeJob jobID workerID vars, now, fuel⟩ := by
  intro h
  have hup : (Service.ofList [chargeAndCompute "1 / 0"]).Uploaded Accepted :=
    Service.uploaded_ofList (by decide +kernel)
  have hend := h (.dividing [chargeAndCompute "1 / 0"]) hup [(chargeAndCompute "1 / 0").start] 2 "worker" [] 1 16
  have hany : (attempts (.dividing [chargeAndCompute "1 / 0"])
      (run (.dividing [chargeAndCompute "1 / 0"]) [(chargeAndCompute "1 / 0").start])
      ⟨.completeJob 2 "worker" [], 1, 16⟩).any (fun m =>
        (findStep m.definition m.stepID).any (·.evaluates) &&
          !(dispatchStep (.dividing [chargeAndCompute "1 / 0"]) m.now m.definition m.tx
            m.stepID).isOk) = true := by
    decide +kernel
  obtain ⟨m, hm, hbad⟩ := List.any_eq_true.mp hany
  rw [Bool.and_eq_true, Option.any_eq_true] at hbad
  obtain ⟨⟨step, hfind, heval⟩, herror⟩ := hbad
  cases hs : dispatchStep (.dividing [chargeAndCompute "1 / 0"]) m.now m.definition m.tx
      m.stepID with
  | ok r =>
    rw [hs] at herror
    cases herror
  | error e => exact hend.noError e (transact_of_error hm hs) m step ⟨hm, hfind, heval⟩ hs

end Rochallor
