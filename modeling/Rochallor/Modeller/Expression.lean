import Rochallor.Definition.Types
import Rochallor.Modeller.JavaScript

/-! # The expression linter

    `workflow-modeller/src/domain/expression`.  `peggyParse` is the parser
    generated from the grammar; it returns a syntax tree or the message of its
    error.
-/

namespace Rochallor.Modeller

/-! ## Diagnostics -/

inductive Severity where
  | error
  | warning
  | info
  deriving DecidableEq, Inhabited, Repr

/-- `DiagnosticCode`. -/
inductive DiagnosticCode where
  | idFormat
  | nameRequired
  | stepsNonempty
  | stepIdUnique
  | stepIdRequired
  | nextWorkflowConsistency
  | decisionHasBranches
  | transformationHasNext
  | transformationHasEntries
  | waitHasNext
  | parallelMinBranches
  | parallelHasJoin
  | joinHasNext
  | refResolves
  | allReachable
  | endReachable
  | boundaryType
  | boundaryDuration
  | boundaryTargetResolves
  | boundaryParentSupports
  | noNestedParallel
  | decisionExprSyntax
  | decisionExprNonBoolean
  | decisionExprUnknownIdent
  | transformationExprSyntax
  | unknownFieldsPresent
  | graphCycle
  | decisionTableHasRules
  | decisionTableHasNext
  | decisionTableHitPolicyUnknown
  | decisionTableAggregatorOnNonC
  | decisionTableLegacyThen
  | decisionTableLegacyDefaultNextStep
  | decisionTableUnreachableRule
  | dtCellExprSyntax
  | dtCellExprNonBoolean
  | dtCellExprUnknownIdent
  | dtOutputExprSyntax
  | stepFieldInvalid
  deriving DecidableEq, Inhabited, Repr

structure Diagnostic where
  code : DiagnosticCode
  severity : Severity
  message : String
  nodeId : Option StepId := none
  field : Option String := none
  branchKey : Option String := none
  boundaryIndex : Option Nat := none
  ruleIndex : Option Nat := none
  cellColumn : Option String := none
  deriving DecidableEq, Inhabited, Repr

/-! ## Syntax -/

inductive BinaryOp where
  | eq | ne | gt | ge | lt | le | add | sub | mul | div | and | or
  deriving DecidableEq, Inhabited, Repr

inductive Expr where
  | int (value : GoFloat)
  | float (value : GoFloat)
  | bool (value : Bool)
  | string (value : String)
  | identifier (path : List String)
  | not (arg : Expr)
  | binary (op : BinaryOp) (lhs rhs : Expr)
  | membership (needle haystack : Expr)
  | call (fn : String) (args : List Expr)
  deriving Inhabited

mutual

/-- Every identifier path, dotted, in the order of the text. -/
def collectIdentifiers : Expr → List String
  | .int _ | .float _ | .bool _ | .string _ => []
  | .identifier path => [".".intercalate path]
  | .not arg => collectIdentifiers arg
  | .binary _ lhs rhs => collectIdentifiers lhs ++ collectIdentifiers rhs
  | .membership needle haystack => collectIdentifiers needle ++ collectIdentifiers haystack
  | .call _ args => collectAll args

def collectAll : List Expr → List String
  | [] => []
  | arg :: rest => collectIdentifiers arg ++ collectAll rest

end

/-- Whether the node on top gives a boolean, as far as that can be told. -/
def topLevelLikelyBoolean : Expr → Bool
  | .int _ | .float _ | .string _ => false
  | .binary op _ _ =>
    match op with
    | .eq | .ne | .gt | .ge | .lt | .le | .and | .or => true
    | .add | .sub | .mul | .div => false
  | .bool _ | .not _ | .membership _ _ | .identifier _ | .call _ _ => true

/-- The text inside a `${…}` envelope. -/
def unwrapTransformationExpression (source : String) : Option String :=
  let trimmed := trim source
  if utf16Length trimmed < 3 then none
  else if trimmed.startsWith "$\x7b" && trimmed.endsWith "\x7d" then
    some (String.ofList (trimmed.toList.drop 2).dropLast)
  else none

/-! ## Linting -/

section Lint

variable (peggyParse : String → Except String Expr)

/-- The warnings about identifiers whose root no transformation produces, each
    root once. -/
def unknownIdentifiers (knownVars : List String) (ctx : Diagnostic) :
    List String → List String → List Diagnostic
  | _, [] => []
  | seen, path :: rest =>
    let root := (path.splitOn ".").headD path
    if knownVars.contains root || seen.contains root then unknownIdentifiers knownVars ctx seen rest
    else
      { ctx with
        code := .decisionExprUnknownIdent
        severity := .warning
        message := "Identifier \"" ++ root ++ "\" is not produced by any TRANSFORMATION step." } ::
        unknownIdentifiers knownVars ctx (seen ++ [root]) rest

/-- `lintDecisionExpression`.  The context is a diagnostic whose code, severity
    and message are still to be set. -/
def lintDecisionExpression (source : String) (knownVars : List String) (ctx : Diagnostic) :
    List Diagnostic :=
  match peggyParse source with
  | .error message =>
    [{ ctx with
       code := .decisionExprSyntax
       severity := .error
       message := "Parse error: " ++ message }]
  | .ok ast =>
    (if topLevelLikelyBoolean ast then []
     else
      [{ ctx with
         code := .decisionExprNonBoolean
         severity := .error
         message := "Decision expression must resolve to a boolean." }]) ++
    (if knownVars.isEmpty then []
     else unknownIdentifiers knownVars ctx [] (collectIdentifiers ast))

/-- `lintTransformationExpression`. -/
def lintTransformationExpression (source : String) (ctx : Diagnostic) : List Diagnostic :=
  match unwrapTransformationExpression source with
  | none => []
  | some inner =>
    match peggyParse inner with
    | .ok _ => []
    | .error message =>
      [{ ctx with
         code := .transformationExprSyntax
         severity := .error
         message := "Parse error: " ++ message }]

end Lint

end Rochallor.Modeller
