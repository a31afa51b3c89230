import Rochallor.Instance.Store
import Rochallor.Instance.Duration

/-! # The instance service

    What the handlers of `internal/instance` share: the injected dependencies
    (`Service`), the state of a transaction (`Tx`), variables and the small
    helpers of `step_helpers.go`.
-/

namespace Rochallor

/-! ## Dependencies -/

/-- How a newly inserted job is made visible to workers. -/
inductive Dispatcher where
  /-- The job row itself is the signal. -/
  | polling
  /-- A `dispatch_outbox` row is written in the same transaction. -/
  | kafkaOutbox
  deriving DecidableEq, Repr

/-- The stored definitions.  Rows are immutable and versioned, so `getVersion`
    does not depend on time; what `getLatest` returns does. -/
structure DefinitionRepository where
  getVersion : String → Int → Except EngineError WorkflowDefinition
  getLatest : Time → String → Except EngineError WorkflowDefinition
  /-- A row is stored under its own id and version. -/
  getVersion_key : ∀ id v d, getVersion id v = .ok d → d.id = id ∧ d.version = v
  /-- The latest version of an id is one of its versions. -/
  getLatest_version : ∀ now id d, getLatest now id = .ok d → getVersion d.id d.version = .ok d

/-- The repository of the given rows, newest first. -/
def DefinitionRepository.ofList (rows : List WorkflowDefinition) : DefinitionRepository where
  getVersion id v :=
    match rows.find? fun d => d.id == id && d.version == v with
    | none => .error (.message "definition not found")
    | some d => .ok d
  getLatest _ id :=
    match rows.find? fun d => d.id == id with
    | none => .error (.message "definition not found")
    | some d => .ok d
  getVersion_key := by
    intro id v d h
    split at h
    · cases h
    · rename_i d' hfind
      cases h
      simpa using List.find?_some hfind
  getLatest_version := by
    intro _ id d h
    split at h
    · cases h
    · rename_i d' hfind
      cases h
      have hid : d.id = id := by simpa using List.find?_some hfind
      -- the first row of the id is the first row of the id and its version
      have hfirst : rows.find? (fun r => r.id == d.id && r.version == d.version) = some d := by
        rw [List.find?_eq_some_iff_append] at hfind ⊢
        obtain ⟨-, before, after, hrows, hnot⟩ := hfind
        refine ⟨by simp, before, after, hrows, fun r hr => ?_⟩
        have := hnot r hr
        simp_all
      rw [hfirst]

/-- The service's dependencies.  `evaluateExpr` is the injected expression
    evaluator. -/
structure Service where
  evaluateExpr : String → GoMap Value → Except String Value
  defRepo : DefinitionRepository
  dispatcher : Dispatcher

/-- Every stored definition satisfies `P`.  With `P := Accepted` this is what
    the REST and gRPC upload handlers ensure. -/
def Service.Uploaded (svc : Service) (P : WorkflowDefinition → Prop) : Prop :=
  ∀ id v d, svc.defRepo.getVersion id v = .ok d → P d

/-- A polling service over the given rows whose evaluator knows the literals
    `true` and `false` only. -/
def Service.ofList (rows : List WorkflowDefinition) : Service where
  evaluateExpr expr _ :=
    if expr = "true" then .ok (.bool true)
    else if expr = "false" then .ok (.bool false)
    else .error "unknown name"
  defRepo := .ofList rows
  dispatcher := .polling

/-- The same engine in `kafka_outbox` mode. -/
def Service.onKafka (svc : Service) : Service :=
  { svc with dispatcher := .kafkaOutbox }

/-- What holds of every row holds of every definition served. -/
theorem Service.uploaded_ofList {rows : List WorkflowDefinition} {P : WorkflowDefinition → Prop}
    (h : ∀ d ∈ rows, P d) : (Service.ofList rows).Uploaded P := by
  intro id v d hd
  simp only [Service.ofList, DefinitionRepository.ofList] at hd
  split at hd
  · cases hd
  · rename_i d' hfind
    cases hd
    exact h d (List.mem_of_find?_eq_some hfind)

/-! ## Transactions -/

/-- A transaction in progress: the tables as it sees them and the in-memory
    instance the Go code passes by pointer through every handler. -/
structure Tx where
  db : Db
  inst : WorkflowInstance
  deriving Inhabited

/-! ## Variables -/

/-- `variablesToMap`. -/
def variablesToMap (raw : Json) : Except String (GoMap Value) :=
  match raw with
  | .obj members => do return GoMap.overlay [] (← toMembers members)
  | .null => .ok []
  | _ => .error "unmarshal instance variables: cannot unmarshal into Go value of type map"

/-- `mergeVariables`: keys of `delta` win, other existing keys are kept. -/
def mergeVariables (existing : Json) (delta : GoMap Value) : Except String Json := do
  let base ← variablesToMap existing
  (Value.obj (base.overlay delta)).marshal

/-! ## Step helpers -/

def findStep (d : WorkflowDefinition) (id : StepId) : Option WorkflowStep :=
  d.steps.find? fun s => s.id == id

/-- The first gateway of the definition that names the join. -/
def findParallelGatewayFor (d : WorkflowDefinition) (joinStepID : StepId) : Option WorkflowStep :=
  d.steps.find? fun s => s.type == .parallelGateway && s.joinStep == joinStepID

/-- The step ids whose `COMPLETED` rows count as branch arrivals. -/
def branchLeafsFor (pg : WorkflowStep) : List StepId :=
  pg.parallelNextSteps

/-- All ids plus `stepID`, if not already present. -/
def withStep (ids : List StepId) (stepID : StepId) : List StepId :=
  if ids.contains stepID then ids else ids ++ [stepID]

/-- All ids except `stepID`. -/
def withoutStep (ids : List StepId) (stepID : StepId) : List StepId :=
  ids.filter fun s => s != stepID

/-- In memory only: the row follows at the next dispatch. -/
@[simps] def Tx.removeFromCurrentSteps (tx : Tx) (stepID : StepId) : Tx :=
  { tx with inst := { tx.inst with currentStepIDs := withoutStep tx.inst.currentStepIDs stepID } }

/-- `WAITING` when a remaining step is a `USER_TASK` or `WAIT`, else `ACTIVE`. -/
def recomputeInstanceStatus (d : WorkflowDefinition) (currentStepIDs : List StepId) :
    InstanceStatus :=
  let parks (sid : StepId) : Bool :=
    match findStep d sid with
    | none => false
    | some st => st.type == .userTask || st.type == .wait
  if currentStepIDs.any parks then .waiting else .active

end Rochallor
