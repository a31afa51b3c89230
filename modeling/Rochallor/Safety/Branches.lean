import Rochallor.Data.MapOrder
import Rochallor.Definition.Repository
import Rochallor.Instance.Dispatch

/-! # The order of the branches

    A `DECISION` step is meant to try its expressions in the order of the JSON
    object they were written in.  A definition the engine runs has been through
    a `JSONB` column, which has put the expressions in an order of its own:
    shorter ones first.  The decision is made in the order of the document as
    long as the expressions it gets to are in key order already.
-/

namespace Rochallor

/-! ## What the format promises -/

/-- The branches of a JSON object, in the order of the text. -/
abbrev Branches := List (String × StepId)

/-- The object that lists the branches. -/
def Branches.object (branches : Branches) : Json :=
  .obj (branches.map fun b => (b.1, .str b.2))

section Decision

variable (svc : Service) (vars : GoMap Value)

/-- The target of the first branch whose expression is true.  An expression
    that fails or is not a boolean ends the search. -/
def firstMatch : Branches → Except String (Option StepId)
  | [] => .ok none
  | (expr, target) :: rest =>
    match svc.evaluateExpr expr vars with
    | .error e => .error ("expression eval error: " ++ e)
    | .ok (.bool true) => .ok (some target)
    | .ok (.bool false) => firstMatch rest
    | .ok v => .error ("expression " ++ quote expr ++ ": result is " ++ v.typeName ++ ", not bool")

/-- The expressions the loop of `handleDecision` evaluates: all up to and
    including the first one that is not false. -/
def evaluated : List String → List String
  | [] => []
  | expr :: rest =>
    match svc.evaluateExpr expr vars with
    | .ok (.bool false) => expr :: evaluated rest
    | _ => [expr]

/-- What a decision step does with the branch found. -/
def decideBy (now : Time) (tx : Tx) (step : WorkflowStep) :
    Except String (Option StepId) → Except EngineError (Tx × List StepId)
  | .error reason => .ok (failInstance now tx step.id reason, [])
  | .ok none => .ok (failInstance now tx step.id noBranchMatched, [])
  | .ok (some target) => .ok (closeByStep now tx step, [target])

/-- The expressions of a step, as the engine holds them. -/
def WorkflowStep.exprs (step : WorkflowStep) : List String :=
  (step.conditionalNextSteps.map (·.exprs)).getD []

/-- The step evaluates the expressions of the branches in their order and goes
    where the first true one points. -/
structure DecidesInOrder (step : WorkflowStep) (branches : Branches) : Prop where
  order : evaluated svc vars step.exprs = evaluated svc vars (branches.map (·.1))
  outcome : ∀ now tx, variablesToMap tx.inst.vars = .ok vars →
    handleDecision svc now tx step = decideBy now tx step (firstMatch svc vars branches)

/-- The expressions the decision gets to in the order of the text are also the
    first ones in the order of JSONB keys. -/
def KeysInOrder (exprs : List String) : Prop :=
  let reached := (evaluated svc vars exprs).length
  (sortKeys exprs).take reached = exprs.take reached

instance (exprs : List String) : Decidable (KeysInOrder svc vars exprs) :=
  inferInstanceAs (Decidable (_ = _))

end Decision

/-! ## The loop -/

section Loop

variable {svc : Service} {vars : GoMap Value}

theorem evaluated_eq_take (svc : Service) (vars : GoMap Value) (exprs : List String) :
    evaluated svc vars exprs = exprs.take (evaluated svc vars exprs).length := by
  induction exprs with
  | nil => rfl
  | cons e rest ih =>
    rw [evaluated]
    split
    · rw [List.length_cons, List.take_succ_cons, ← ih]
    · rfl

/-- Two lists that agree as far as the loop gets on one of them. -/
theorem evaluated_congr {exprs exprs' : List String}
    (h : exprs'.take (evaluated svc vars exprs).length =
      exprs.take (evaluated svc vars exprs).length) (hlen : exprs'.length = exprs.length) :
    evaluated svc vars exprs' = evaluated svc vars exprs := by
  induction exprs generalizing exprs' with
  | nil =>
    rw [List.eq_nil_of_length_eq_zero hlen]
  | cons e rest ih =>
    cases exprs' with
    | nil => simp at hlen
    | cons e' rest' =>
      simp only [List.length_cons, Nat.add_right_cancel_iff] at hlen
      rw [evaluated] at h ⊢
      split at h
      · rename_i hfalse
        simp only [List.length_cons, List.take_succ_cons, List.cons.injEq] at h
        obtain ⟨rfl, h⟩ := h
        rw [evaluated, hfalse]
        simp only
        rw [ih h hlen]
      · rename_i hnot
        simp only [List.length_singleton, List.take_succ_cons, List.take_zero, List.cons.injEq,
          and_true] at h
        subst h
        rw [evaluated]
        split
        · rename_i hfalse
          exact absurd hfalse hnot
        · rfl

/-- The loop depends on the expressions it evaluates only. -/
theorem chooseBranch_evaluated (c : ConditionalBranches) (exprs : List String) :
    chooseBranch svc vars c exprs = chooseBranch svc vars c (evaluated svc vars exprs) := by
  induction exprs with
  | nil => rfl
  | cons e rest ih =>
    rw [evaluated]
    split
    · rename_i hfalse
      rw [chooseBranch, hfalse, chooseBranch, hfalse]
      exact ih
    · rename_i hnot
      rw [chooseBranch, chooseBranch]
      split
      · rfl
      · rfl
      · rename_i hfalse
        exact absurd hfalse hnot
      · rfl

/-- The loop over branches whose targets are the ones looked up. -/
theorem chooseBranch_eq_firstMatch {c : ConditionalBranches} {branches : Branches}
    (h : ∀ b ∈ branches, c.target b.1 = b.2) :
    chooseBranch svc vars c (branches.map (·.1)) = firstMatch svc vars branches := by
  induction branches with
  | nil => rfl
  | cons b rest ih =>
    have hb := h b (List.mem_cons_self ..)
    have hrest := ih fun x hx => h x (List.mem_cons_of_mem _ hx)
    rw [List.map_cons, chooseBranch, hb, hrest]
    rfl

theorem handleDecision_eq {now : Time} {tx : Tx} {step : WorkflowStep} {c : ConditionalBranches}
    (hc : step.conditionalNextSteps = some c) (hvars : variablesToMap tx.inst.vars = .ok vars) :
    handleDecision svc now tx step =
      decideBy now tx step (chooseBranch svc vars c c.exprs) := by
  unfold handleDecision
  rw [hvars]
  simp only [hc]
  rfl

end Loop

/-! ## The stored branches -/

section Stored

variable {branches : Branches}

/-- The object is read as it is written. -/
theorem unmarshal_object (hnd : (branches.map (·.1)).Nodup) (old : ConditionalBranches) :
    old.unmarshalJSON branches.object = .ok ⟨branches.map (·.1), branches⟩ := by
  rw [Branches.object, ConditionalBranches.unmarshalJSON, decodeBranches_map, overlay_of_nodup hnd]
  rfl

theorem target_of_mem (hnd : (branches.map (·.1)).Nodup) {b : String × StepId}
    (hb : b ∈ branches) (exprs : List String) :
    (⟨exprs, branches⟩ : ConditionalBranches).target b.1 = b.2 := by
  simp [ConditionalBranches.target, GoMap.get_of_mem hnd hb]

/-- The stored branches are the same branches in key order. -/
theorem stored_branches (hnd : (branches.map (·.1)).Nodup) :
    (⟨branches.map (·.1), branches⟩ : ConditionalBranches).stored =
      ⟨sortKeys (branches.map (·.1)), sortMembers branches⟩ := by
  have hpairs : (branches.map (·.1)).map
      (fun e => (e, (⟨branches.map (·.1), branches⟩ : ConditionalBranches).target e)) =
        branches := by
    rw [List.map_map]
    refine (List.map_congr_left fun b hb => ?_).trans (List.map_id _)
    exact Prod.ext rfl (target_of_mem hnd hb _)
  unfold ConditionalBranches.stored
  simp only [hpairs]
  rw [overlay_of_nodup hnd, sortMembers_keys]

theorem sortMembers_target (hnd : (branches.map (·.1)).Nodup) (exprs : List String)
    {b : String × StepId} (hb : b ∈ branches) :
    (⟨exprs, sortMembers branches⟩ : ConditionalBranches).target b.1 = b.2 := by
  have hperm := sortMembers_perm branches
  exact target_of_mem ((hperm.map _).nodup_iff.mpr hnd) (hperm.mem_iff.mpr hb) exprs

/-- A step with the stored branches decides in the order of the text exactly
    when the expressions it gets to are in key order. -/
theorem decidesInOrder_iff {svc : Service} {vars : GoMap Value} {step : WorkflowStep}
    (hnd : (branches.map (·.1)).Nodup)
    (hstep : step.conditionalNextSteps =
      some ⟨sortKeys (branches.map (·.1)), sortMembers branches⟩) :
    DecidesInOrder svc vars step branches ↔ KeysInOrder svc vars (branches.map (·.1)) := by
  have hexprs : step.exprs = sortKeys (branches.map (·.1)) := by
    simp [WorkflowStep.exprs, hstep]
  have hlen : (sortKeys (branches.map (·.1))).length = (branches.map (·.1)).length :=
    (sortKeys_perm _).length_eq
  constructor
  · rintro ⟨horder, -⟩
    rw [hexprs] at horder
    -- both runs of the loop evaluate a prefix of their list
    have hsorted := evaluated_eq_take svc vars (sortKeys (branches.map (·.1)))
    have htext := evaluated_eq_take svc vars (branches.map (·.1))
    rw [horder] at hsorted
    exact hsorted.symm.trans htext
  · intro hkeys
    have horder := evaluated_congr hkeys hlen
    refine ⟨by rw [hexprs, horder], ?_⟩
    intro now tx hvars
    rw [handleDecision_eq hstep hvars, chooseBranch_evaluated, horder, ← chooseBranch_evaluated,
      chooseBranch_eq_firstMatch fun b hb => sortMembers_target hnd _ hb]

end Stored

/-! ## Through the store -/

/-- Parse, `Upload` and `GetVersion`: the step that comes back decides in the
    order its branches were written in if and only if the expressions the
    decision gets to are in the order of JSONB keys. -/
theorem branches_in_order_iff (svc : Service) {doc : Json} {d : WorkflowDefinition}
    (hdoc : parse doc = .ok d) {store store' : DefinitionStore} {sum : Summary}
    (hupload : store.upload d (parse_inRange hdoc) = .ok (sum, store'))
    {i : Nat} {step : WorkflowStep} (hstep : d.steps[i]? = some step)
    (htype : step.type = .decision) {branches : Branches} {c : ConditionalBranches}
    (hread : ConditionalBranches.unmarshalJSON ⟨[], []⟩ branches.object = .ok c)
    (hc : step.conditionalNextSteps = some c) (hdistinct : (branches.map (·.1)).Nodup)
    (vars : GoMap Value) :
    ∃ d' step', store'.getVersion d.id sum.version = .ok d' ∧ d'.steps[i]? = some step' ∧
      step'.type = .decision ∧
      (DecidesInOrder svc vars step' branches ↔
        KeysInOrder svc vars (branches.map (·.1))) := by
  rw [unmarshal_object hdistinct] at hread
  cases hread
  refine ⟨_, step.stored, DefinitionStore.getVersion_upload hupload, ?_, ?_, ?_⟩
  · simp [WorkflowDefinition.stored, hstep]
  · simp [WorkflowStep.stored, htype, StepType.text, StepType.ofText]
  · refine decidesInOrder_iff hdistinct ?_
    simp [WorkflowStep.stored, hc, stored_branches hdistinct]

/-! A loan is routed by its amount. -/

def loanDoc (branches : Branches) : Json :=
  .obj [("id", .str "loan"), ("name", .str "Loan"), ("steps", .arr [
    .obj [("id", .str "route"), ("name", .str "Route"), ("type", .str "DECISION"),
      ("conditionalNextSteps", branches.object)],
    .obj [("id", .str "manual"), ("name", .str "Manual"), ("type", .str "END")],
    .obj [("id", .str "auto"), ("name", .str "Auto"), ("type", .str "END")]])]

def loanRoute (branches : Branches) : WorkflowStep where
  id := "route"
  name := "Route"
  type := .decision
  conditionalNextSteps := some ⟨branches.map (·.1), branches⟩

def loan (branches : Branches) : WorkflowDefinition where
  id := "loan"
  name := "Loan"
  steps := [loanRoute branches, { id := "manual", name := "Manual", type := .endStep },
    { id := "auto", name := "Auto", type := .endStep }]

/-- An evaluator that knows the two expressions used. -/
def loanService : Service :=
  { Service.ofList [] with
    evaluateExpr := fun expr vars =>
      if expr = "true" then .ok (.bool true)
      else if expr = "amount >= 100" then
        match vars.get "amount" with
        | some (.float x) => .ok (.bool (!GoFloat.lt x (.finite 100)))
        | _ => .error "invalid operation"
      else .error "unknown name" }

def loanVars : GoMap Value := [("amount", .float (.finite 150))]

/-- With the exception first and the rule last. -/
def strictLoan : Branches := [("amount >= 100", "manual"), ("true", "auto")]

/-- With the rule first, which makes the exception unreachable. -/
def lenientLoan : Branches := [("true", "auto"), ("amount >= 100", "manual")]

theorem parse_lenientLoan : parse (loanDoc lenientLoan) = .ok (loan lenientLoan) := rfl

theorem parse_strictLoan : parse (loanDoc strictLoan) = .ok (loan strictLoan) := rfl

/-- The first upload of a loan makes version 1. -/
theorem upload_lenientLoan : DefinitionStore.empty.upload (loan lenientLoan)
    (parse_inRange parse_lenientLoan) = .ok (⟨"loan", 1, "Loan"⟩,
      DefinitionStore.empty.insert (loan lenientLoan) (parse_inRange parse_lenientLoan)) := rfl

theorem upload_strictLoan : DefinitionStore.empty.upload (loan strictLoan)
    (parse_inRange parse_strictLoan) = .ok (⟨"loan", 1, "Loan"⟩,
      DefinitionStore.empty.insert (loan strictLoan) (parse_inRange parse_strictLoan)) := rfl

theorem branches_in_order_iff_lenientLoan : ∃ d' step',
    (DefinitionStore.empty.insert (loan lenientLoan)
      (parse_inRange parse_lenientLoan)).getVersion "loan" 1 = .ok d' ∧
    d'.steps[0]? = some step' ∧ DecidesInOrder loanService loanVars step' lenientLoan := by
  have hread : ConditionalBranches.unmarshalJSON ⟨[], []⟩ lenientLoan.object =
    .ok ⟨lenientLoan.map (·.1), lenientLoan⟩ := rfl
  have hroute : (loan lenientLoan).steps[0]? = some (loanRoute lenientLoan) := rfl
  obtain ⟨d', step', hd', hstep', -, hiff⟩ := branches_in_order_iff loanService parse_lenientLoan
    upload_lenientLoan hroute rfl hread rfl (by decide) loanVars
  exact ⟨d', step', hd', hstep', hiff.mpr (by decide +kernel)⟩

/-- A loan of 150 is to be checked by hand.  The branches come back from the
    store with `true` in the first place, and it is granted at once. -/
theorem strictLoan_granted_unchecked :
    ∃ sum store', parse (loanDoc strictLoan) = .ok (loan strictLoan) ∧
    DefinitionStore.empty.upload (loan strictLoan) (parse_inRange parse_strictLoan) =
      .ok (sum, store') ∧
    store'.getVersion "loan" sum.version = .ok { (loan strictLoan).stored with version := 1 } ∧
    (loan strictLoan).stored.steps[0]? = some (loanRoute strictLoan).stored ∧
    firstMatch loanService loanVars strictLoan = .ok (some "manual") ∧
    (∀ tx : Tx, variablesToMap tx.inst.vars = .ok loanVars →
      handleDecision loanService 0 tx (loanRoute strictLoan).stored =
        .ok (closeByStep 0 tx (loanRoute strictLoan).stored, ["auto"])) ∧
    ¬ DecidesInOrder loanService loanVars (loanRoute strictLoan).stored strictLoan := by
  refine ⟨⟨"loan", 1, "Loan"⟩, _, parse_strictLoan, upload_strictLoan,
    DefinitionStore.getVersion_upload upload_strictLoan, rfl, rfl, ?_, ?_⟩
  · intro tx hvars
    rw [handleDecision_eq rfl hvars]
    rfl
  · intro h
    exact absurd h.order (by decide +kernel)

end Rochallor
