import Rochallor.Data.Equality
import Rochallor.Data.Text
import Rochallor.Instance.Service

/-! # Conditions, templates and decision tables

    The pure parts of the `DECISION`, `TRANSFORMATION` and `DECISION_TABLE`
    handlers: which branch is taken, what a `${…}` value stands for, what a
    decision table outputs.  A Go map is read in the order of its entries; the
    entries of a stored map come in no particular order.
-/

namespace Rochallor

/-! ## Time -/

/-- `%0wd`. -/
def padNat (width n : Nat) : String :=
  let s := toString n
  String.ofList (List.replicate (width - s.length) '0') ++ s

/-- `t.UTC().Format(time.RFC3339)`, from the days and seconds since 1970. -/
def rfc3339 (t : Time) : String :=
  let secs := t / 1000000000
  let days := secs / 86400
  let tod := (secs % 86400).toNat
  -- civil date from a day number, with years starting in March
  let z := days + 719468
  let era := z / 146097
  let doe := z % 146097
  let yoe := (doe - doe / 1460 + doe / 36524 - doe / 146096) / 365
  let doy := doe - (365 * yoe + yoe / 4 - yoe / 100)
  let mp := (5 * doy + 2) / 153
  let day := doy - (153 * mp + 2) / 5 + 1
  let month := if mp < 10 then mp + 3 else mp - 9
  let year := yoe + era * 400 + (if month ≤ 2 then 1 else 0)
  padNat 4 year.toNat ++ "-" ++ padNat 2 month.toNat ++ "-" ++ padNat 2 day.toNat ++ "T" ++
    padNat 2 (tod / 3600) ++ ":" ++ padNat 2 (tod % 3600 / 60) ++ ":" ++ padNat 2 (tod % 60) ++ "Z"

/-! ## Conditional branches -/

/-- The loop of `handleDecision` and `advancePastStep` over the expressions:
    the target of the first true one, `none` when all are false, or the reason
    the instance fails with. -/
def chooseBranch (svc : Service) (vars : GoMap Value) (c : ConditionalBranches) :
    List String → Except String (Option StepId)
  | [] => .ok none
  | expr :: rest =>
    match svc.evaluateExpr expr vars with
    | .error e => .error ("expression eval error: " ++ e)
    | .ok (.bool true) => .ok (some (c.target expr))
    | .ok (.bool false) => chooseBranch svc vars c rest
    | .ok v => .error ("expression " ++ quote expr ++ ": result is " ++ v.typeName ++ ", not bool")

/-- The reason when no expression of a non-failing loop is true. -/
def noBranchMatched : String :=
  "no conditionalNextSteps branch matched (DecisionNoBranchMatched)"

/-! ## Templates -/

/-- The expression inside a `${…}` string, trimmed. -/
def templateBody (s : String) : Option String :=
  match s.toList with
  | '$' :: '\x7b' :: rest =>
    match rest.reverse with
    | '\x7d' :: inner => some (String.ofList (trimSpace inner.reverse))
    | _ => none
  | _ => none

/-- The value of a literal or `${expression}` value. -/
def resolveTemplate (svc : Service) (now : Time) (vars : GoMap Value) (v : Value) :
    Except String Value :=
  match v with
  | .str s =>
    match templateBody s with
    | none => .ok v
    | some inner =>
      if inner = "now()" then .ok (.str (rfc3339 now)) else svc.evaluateExpr inner vars
  | _ => .ok v

/-- The expression a value stands for, as error messages quote it. -/
def Value.templateExpr : Value → String
  | .str s => (templateBody s).getD ""
  | _ => ""

/-- How a transformation ends early: with an error that rolls the transaction
    back, or by failing the instance. -/
inductive TransformError where
  | abort (text : String)
  | fail (reason : String)

/-- The loop of `handleTransformation`: later entries see the values of
    earlier ones.  Returns the new variables and the delta. -/
def runTransformations (svc : Service) (now : Time) :
    GoMap Json → GoMap Value → GoMap Value → Except TransformError (GoMap Value × GoMap Value)
  | [], vars, delta => .ok (vars, delta)
  | (k, raw) :: rest, vars, delta =>
    match raw.toValue with
    | .error e => .error (.abort ("transformation " ++ quote k ++ ": unmarshal value: " ++ e))
    | .ok v₀ =>
      match resolveTemplate svc now vars v₀ with
      | .error e => .error (.fail ("transformation " ++ quote k ++ ": expression eval: " ++ e))
      | .ok v => runTransformations svc now rest (vars.set k v) (delta.set k v)

/-! ## Decision tables -/

/-- `ruleMatches`: every non-blank cell must evaluate to true. -/
def ruleMatches (svc : Service) (vars : GoMap Value) (idx : Nat) :
    GoMap String → Except String Bool
  | [] => .ok true
  | (col, cell) :: rest =>
    if (trimSpace cell.toList).isEmpty then ruleMatches svc vars idx rest
    else
      let label := "DecisionTableCellError: ruleIndex=" ++ toString idx ++ " column=" ++
        quote col ++ " expr=" ++ quote cell
      match svc.evaluateExpr cell vars with
      | .error e => .error (label ++ " err=" ++ e)
      | .ok (.bool true) => ruleMatches svc vars idx rest
      | .ok (.bool false) => .ok false
      | .ok v => .error (label ++ " result=" ++ v.typeName ++ " not bool")

/-- The matching rules with their document indices. -/
def matchRules (svc : Service) (vars : GoMap Value) :
    List (DecisionTableRule × Nat) → Except String (List (DecisionTableRule × Nat))
  | [] => .ok []
  | (rule, idx) :: rest => do
    let ok ← ruleMatches svc vars idx rule.conditions
    let matched ← matchRules svc vars rest
    return if ok then (rule, idx) :: matched else matched

/-- `evaluateRuleOutputs`: each output against the variables before the step. -/
def evaluateRuleOutputs (svc : Service) (now : Time) (vars : GoMap Value) (idx : Nat) :
    GoMap Json → Except String (GoMap Value)
  | [] => .ok []
  | (k, raw) :: rest =>
    let label := "DecisionTableOutputError: ruleIndex=" ++ toString idx ++ " output=" ++ quote k
    match raw.toValue with
    | .error e => .error (label ++ " unmarshal: " ++ e)
    | .ok v₀ =>
      match resolveTemplate svc now vars v₀ with
      | .error e => .error (label ++ " expr=" ++ quote v₀.templateExpr ++ " err=" ++ e)
      | .ok v => do return (k, v) :: (← evaluateRuleOutputs svc now vars idx rest)

/-- `m[col]` on an evaluated row: a missing column reads as nil. -/
def column (m : GoMap Value) (col : String) : Value :=
  (m.get col).getD .null

/-- `buildColumnLists`: one list a column, in matched order. -/
def buildColumnLists (evaluated : List (GoMap Value)) : GoMap (List Value) :=
  let cols := (evaluated.flatMap fun m => m.map (·.1)).dedup
  cols.map fun col => (col, evaluated.map fun m => column m col)

/-- `toFloat64`. -/
def toFloat64 : Value → Option GoFloat
  | .float x => some x
  | .int n => some (GoFloat.ofRat n)
  | _ => none

/-- The numbers of a column, or the complaint about the first that is none. -/
def columnNumbers : List Value → Nat → Except String (List GoFloat)
  | [], _ => .ok []
  | v :: vs, i =>
    match toFloat64 v with
    | none => .error ("value " ++ v.format ++ " (type " ++ v.typeName ++ ") at index " ++
        toString i ++ " is not numeric")
    | some x => do return x :: (← columnNumbers vs (i + 1))

/-- `aggregateColumn`. -/
def aggregateColumn (suffix : Char) (values : List Value) : Except String Value :=
  if suffix = '#' then .ok (.int values.length)
  else
    match values with
    | [] => .error "no values to aggregate"
    | _ => do
      let nums ← columnNumbers values 0
      let first := nums.headD (.finite 0)
      if suffix = '+' then return .float (nums.foldl GoFloat.add (.finite 0))
      else if suffix = '>' then
        return .float (nums.tail.foldl (fun m n => if m.lt n then n else m) first)
      else if suffix = '<' then
        return .float (nums.tail.foldl (fun m n => if n.lt m then n else m) first)
      else .error ("unknown aggregator suffix " ++ String.singleton suffix)

/-- Aggregates every column of a collect policy. -/
def aggregateColumns (stepID : StepId) (suffix : Char) :
    GoMap (List Value) → Except String (GoMap Value)
  | [] => .ok []
  | (col, vals) :: rest =>
    match aggregateColumn suffix vals with
    | .error e => .error ("DecisionTableAggregatorTypeError: step " ++ quote stepID ++
        ", column=" ++ quote col ++ ": " ++ e)
    | .ok v => do return (col, v) :: (← aggregateColumns stepID suffix rest)

/-- The first conflict policy `A` finds: a column of the first matched rule on
    which a later rule disagrees. -/
def anyConflict (stepID : StepId) (first : GoMap Value) (firstIdx : Nat)
    (others : List (GoMap Value × Nat)) : Option String :=
  first.findSome? fun (col, v) =>
    others.findSome? fun (m, idx) =>
      if v.deepEqual (column m col) then none
      else some ("DecisionTableAnyConflict: step " ++ quote stepID ++ ", column=" ++ quote col ++
        " values=[" ++ v.format ++ ", " ++ (column m col).format ++ "] (ruleIndex " ++
        toString firstIdx ++ " vs " ++ toString idx ++ ")")

/-- The hit-policy switch: collapses the rows of the matched rules (with their
    document indices) into one output map. -/
def applyHitPolicy (stepID : StepId) (policy : String) (rows : List (GoMap Value × Nat)) :
    Except String (GoMap Value) :=
  match rows with
  | [] => .error "DecisionTableNoRuleMatched"
  | (first, firstIdx) :: others =>
    if policy = "U" then
      if others.isEmpty then .ok first
      else .error ("DecisionTableUniqueViolation: step " ++ quote stepID ++
        ", matching rule indices [" ++ " ".intercalate (rows.map fun r => toString r.2) ++ "]")
    else if policy = "F" then .ok first
    else if policy = "A" then
      match anyConflict stepID first firstIdx others with
      | some reason => .error reason
      | none => .ok first
    else if policy = "R" ∨ policy = "C" then
      .ok ((buildColumnLists (rows.map (·.1))).map fun (col, vals) => (col, .arr vals))
    else
      match policy.toList with
      | ['C', suffix] =>
        if ['+', '#', '>', '<'].contains suffix then
          aggregateColumns stepID suffix (buildColumnLists (rows.map (·.1)))
        else .ok []
      | _ => .ok []

/-- Evaluates the outputs of the matched rules in document order. -/
def evaluateMatched (svc : Service) (now : Time) (vars : GoMap Value) :
    List (DecisionTableRule × Nat) → Except String (List (GoMap Value × Nat))
  | [] => .ok []
  | (rule, idx) :: rest => do
    let row ← evaluateRuleOutputs svc now vars idx rule.outputs
    let rows ← evaluateMatched svc now vars rest
    return (row, idx) :: rows

/-- The output map of a decision table, or the reason its step fails with. -/
def evaluateDecisionTable (svc : Service) (now : Time) (vars : GoMap Value) (step : WorkflowStep) :
    Except String (GoMap Value) :=
  match step.decisionTable with
  | none => .error "DecisionTable payload missing"
  | some dt => do
    let matched ← matchRules svc vars dt.rules.zipIdx
    if matched.isEmpty then .error "DecisionTableNoRuleMatched"
    else
      let policy := if step.hitPolicy.isEmpty then "U" else step.hitPolicy
      let rows ← evaluateMatched svc now vars matched
      applyHitPolicy step.id policy rows

/-! ## Reasons

    Every text a routing fails its instance with has a label in front. -/

section Reasons

variable {svc : Service} {now : Time} {vars : GoMap Value} {reason : String}

theorem chooseBranch_error {c : ConditionalBranches} {exprs : List String}
    (h : chooseBranch svc vars c exprs = .error reason) : reason ≠ "" := by
  induction exprs with
  | nil => cases h
  | cons expr rest ih =>
    rw [chooseBranch] at h
    split at h
    · cases h
      simp
    · cases h
    · exact ih h
    · cases h
      simp

theorem runTransformations_fail {ts : GoMap Json} {delta : GoMap Value}
    (h : runTransformations svc now ts vars delta = .error (.fail reason)) : reason ≠ "" := by
  induction ts generalizing vars delta with
  | nil => cases h
  | cons t rest ih =>
    rw [runTransformations] at h
    split at h
    · cases h
    · split at h
      · cases h
        simp
      · exact ih h

private theorem ruleMatches_error {idx : Nat} {cells : GoMap String}
    (h : ruleMatches svc vars idx cells = .error reason) : reason ≠ "" := by
  induction cells with
  | nil => cases h
  | cons cell rest ih =>
    rw [ruleMatches] at h
    split at h
    · exact ih h
    · simp only at h
      split at h
      · cases h
        simp
      · exact ih h
      · cases h
      · cases h
        simp

private theorem matchRules_message {rules : List (DecisionTableRule × Nat)}
    (h : matchRules svc vars rules = .error reason) : reason ≠ "" := by
  induction rules with
  | nil => cases h
  | cons rule rest ih =>
    rw [matchRules] at h
    rcases bind_eq_error h with h | ⟨ok, -, h⟩
    · exact ruleMatches_error h
    · rcases bind_eq_error h with h | ⟨matched, -, h⟩
      · exact ih h
      · cases h

private theorem evaluateRuleOutputs_error {idx : Nat} {outputs : GoMap Json}
    (h : evaluateRuleOutputs svc now vars idx outputs = .error reason) : reason ≠ "" := by
  induction outputs with
  | nil => cases h
  | cons output rest ih =>
    rw [evaluateRuleOutputs] at h
    split at h
    · cases h
      simp
    · split at h
      · cases h
        simp
      · rcases bind_eq_error h with h | ⟨row, -, h⟩
        · exact ih h
        · cases h

private theorem evaluateMatched_message {rules : List (DecisionTableRule × Nat)}
    (h : evaluateMatched svc now vars rules = .error reason) : reason ≠ "" := by
  induction rules with
  | nil => cases h
  | cons rule rest ih =>
    rw [evaluateMatched] at h
    rcases bind_eq_error h with h | ⟨row, -, h⟩
    · exact evaluateRuleOutputs_error h
    · rcases bind_eq_error h with h | ⟨rows, -, h⟩
      · exact ih h
      · cases h

private theorem aggregateColumns_error {stepID : StepId} {suffix : Char}
    {cols : GoMap (List Value)} (h : aggregateColumns stepID suffix cols = .error reason) :
    reason ≠ "" := by
  induction cols with
  | nil => cases h
  | cons col rest ih =>
    rw [aggregateColumns] at h
    split at h
    · cases h
      simp
    · rcases bind_eq_error h with h | ⟨row, -, h⟩
      · exact ih h
      · cases h

private theorem anyConflict_ne_empty {stepID : StepId} {first : GoMap Value} {firstIdx : Nat}
    {others : List (GoMap Value × Nat)} (h : anyConflict stepID first firstIdx others = some reason) :
    reason ≠ "" := by
  obtain ⟨⟨col, v⟩, -, h⟩ := List.exists_of_findSome?_eq_some h
  obtain ⟨⟨m, idx⟩, -, h⟩ := List.exists_of_findSome?_eq_some h
  simp only at h
  split at h
  · cases h
  · cases h
    simp

private theorem applyHitPolicy_error {stepID : StepId} {policy : String}
    {rows : List (GoMap Value × Nat)} (h : applyHitPolicy stepID policy rows = .error reason) :
    reason ≠ "" := by
  unfold applyHitPolicy at h
  split at h
  · cases h
    decide
  · split at h
    · split at h
      · cases h
      · cases h
        simp
    · split at h
      · cases h
      · split at h
        · split at h
          · rename_i hconflict
            cases h
            exact anyConflict_ne_empty hconflict
          · cases h
        · split at h
          · cases h
          · split at h
            · split at h
              · exact aggregateColumns_error h
              · cases h
            · cases h

theorem evaluateDecisionTable_error {step : WorkflowStep}
    (h : evaluateDecisionTable svc now vars step = .error reason) : reason ≠ "" := by
  unfold evaluateDecisionTable at h
  split at h
  · cases h
    decide
  · rcases bind_eq_error h with h | ⟨matched, -, h⟩
    · exact matchRules_message h
    · split at h
      · cases h
        decide
      · rcases bind_eq_error h with h | ⟨rows, -, h⟩
        · exact evaluateMatched_message h
        · exact applyHitPolicy_error h

end Reasons
end Rochallor
