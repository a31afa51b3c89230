import Rochallor.Definition.Types

/-! # Schema validation

    `internal/definition/schema.go`.  A schema lists typed properties and
    required names; `validate` returns every violation in order of name.
    No coercion happens at schema boundaries.
-/

namespace Rochallor

/-- The kind of a schema violation. -/
inductive ViolationReason where
  | typeMismatch
  | requiredMissing
  deriving DecidableEq, Repr

/-- One failed property check. -/
structure SchemaViolation where
  path : String
  /-- The zero value for a missing required name. -/
  expected : SchemaType := .unsupported ""
  actual : String := ""
  reason : ViolationReason
  deriving DecidableEq, Repr

/-- A violation as a single-line message. -/
def SchemaViolation.toMessage (v : SchemaViolation) : String :=
  match v.reason with
  | .requiredMissing => "required field " ++ quote v.path ++ " missing"
  | .typeMismatch =>
    "field " ++ quote v.path ++ " expected " ++ v.expected.text ++ ", got " ++ v.actual

/-- `SchemaViolationError.Error()`. -/
def schemaViolationError (vs : List SchemaViolation) : String :=
  "schema violation: " ++ "; ".intercalate (vs.map (·.toMessage))

/-- Whether a non-null value has the wanted type, with the JSON type name used
    in messages. -/
def matchType (v : Value) (want : SchemaType) : Bool × String :=
  match v with
  | .str _ => (want == .string, "string")
  | .bool _ => (want == .boolean, "boolean")
  | .float x =>
    match want with
    | .number => (true, "number")
    | .integer =>
      match x with
      | .finite q => (decide (q.den = 1), "number")
      | _ => (false, "number")
    | _ => (false, "number")
  | .int _ => (want == .number || want == .integer, "number")
  | .arr _ => (false, "array")
  | .obj _ => (false, "object")
  | .null => (false, "<nil>")

/-- The violation of one listed property, if any.  An absent property is the
    business of the required check; a null one only counts when required. -/
def Schema.checkProperty (s : Schema) (values : GoMap Value) (name : String)
    (want : SchemaType) : Option SchemaViolation :=
  match values.get name with
  | none => none
  | some .null =>
    if s.required.contains name then
      some { path := name, expected := want, actual := "null", reason := .typeMismatch }
    else none
  | some v =>
    let (ok, actual) := matchType v want
    if ok then none
    else some { path := name, expected := want, actual := actual, reason := .typeMismatch }

/-- Insertion of a violation into a list sorted by path. -/
def insertByPath (v : SchemaViolation) : List SchemaViolation → List SchemaViolation
  | [] => [v]
  | x :: xs => if x.path < v.path then x :: insertByPath v xs else v :: x :: xs

/-- `Schema.Validate`: all violations, sorted by path. -/
def Schema.validate (s : Schema) (values : GoMap Value) : List SchemaViolation :=
  let missing := (s.required.filter fun req => (values.get req).isNone).map fun req =>
    { path := req, reason := .requiredMissing : SchemaViolation }
  let mismatched := s.properties.filterMap fun (name, want) => s.checkProperty values name want
  (missing ++ mismatched).foldr insertByPath []

end Rochallor
