import Rochallor.Data.Equality
import Rochallor.Expression.Coercion
import Rochallor.Expression.Preprocess

/-! # The evaluator

    `Evaluate` of `internal/expression/evaluator.go`, with the helper functions
    it adds to the variables and the rewriting of the syntax tree that inserts
    calls of them.

    expr-lang itself is a parameter, `ExprLang`: what its parser makes of a
    text, what it compiles a tree to, and what a program comes to in an
    environment.  `Evaluate` is here without the cache of compiled
    programs, which `Expression/Cache` adds.
-/

namespace Rochallor

/-! ## Helper functions -/

/-- The functions of `builtins`. -/
inductive Builtin where
  | contains
  | len
  | coerceNumber
  | coerceNumberSoft
  | coerceBool
  deriving DecidableEq, Repr

/-- What an environment holds. -/
inductive EnvValue where
  | value (v : Value)
  | func (f : Builtin)

def builtins : GoMap Builtin :=
  [("contains", .contains), ("len", .len), ("__coerceNumber", .coerceNumber),
    ("__coerceNumberSoft", .coerceNumberSoft), ("__coerceBool", .coerceBool)]

/-- `==` of two interfaces.  Maps and slices cannot be compared. -/
def interfaceEqual : Value → Value → Except String Bool
  | .arr _, .arr _ => .error "comparing uncomparable type []interface \x7b\x7d"
  | .obj _, .obj _ => .error "comparing uncomparable type map[string]interface \x7b\x7d"
  | a, b => .ok (a.deepEqual b)

/-- The loop of `contains`. -/
def containsElement (element : Value) : List Value → Except String Bool
  | [] => .ok false
  | v :: rest => do
    if ← interfaceEqual v element then .ok true else containsElement element rest

/-- A call with as many arguments as the function has parameters. -/
def Builtin.apply : Builtin → List Value → Option (Except String Value)
  | .contains, [collection, element] =>
    match collection with
    | .arr items => some ((containsElement element items).map .bool)
    | _ => some (.ok (.bool false))
  | .len, [v] =>
    match v with
    | .arr items => some (.ok (.int items.length))
    | .obj members => some (.ok (.int members.length))
    | .str s => some (.ok (.int s.utf8ByteSize))
    | _ => some (.ok (.int 0))
  | .coerceNumber, [v] => some ((coerceNumberStrict v).map .float)
  | .coerceNumberSoft, [v] => some (.ok (Rochallor.coerceNumberSoft v))
  | .coerceBool, [v] => some ((coerceBoolStrict v).map .bool)
  | _, _ => none

/-! ## Syntax trees -/

/-- A node of expr-lang's `ast`.  Kinds the evaluator does not tell apart are
    `other`, with their children in the order they are walked in. -/
inductive Node where
  | nil
  | bool (value : Bool)
  | int (value : Int)
  | float (value : GoFloat)
  | string (value : String)
  | ident (value : String)
  | unary (operator : String) (node : Node)
  | binary (operator : String) (left right : Node)
  | call (callee : Node) (arguments : List Node)
  | other (kind : String) (children : List Node)

mutual

/-- `identCollector`: the identifiers in the order of `ast.Walk`. -/
def Node.idents : Node → List String
  | .ident name => [name]
  | .unary _ node => node.idents
  | .binary _ left right => left.idents ++ right.idents
  | .call callee arguments => callee.idents ++ identsOf arguments
  | .other _ children => identsOf children
  | .nil | .bool _ | .int _ | .float _ | .string _ => []

def identsOf : List Node → List String
  | [] => []
  | n :: rest => n.idents ++ identsOf rest

end

/-! ## Coercion of operands -/

def coerceBuiltinNames : List String :=
  ["__coerceNumber", "__coerceNumberSoft", "__coerceBool"]

/-- `wrapCoerce`. -/
def wrapCoerce (child : Node) (builtin : String) : Node :=
  match child with
  | .bool _ | .nil | .float _ | .int _ | .string _ => child
  | .call (.ident name) _ =>
    if coerceBuiltinNames.contains name then child else .call (.ident builtin) [child]
  | _ => .call (.ident builtin) [child]

/-- `coercionPatcher.Visit`. -/
def coercionVisit : Node → Node
  | .binary operator left right =>
    if ["<", "<=", ">", ">=", "+", "-", "*", "/"].contains operator then
      .binary operator (wrapCoerce left "__coerceNumber") (wrapCoerce right "__coerceNumber")
    else if ["==", "!="].contains operator then
      .binary operator (wrapCoerce left "__coerceNumberSoft")
        (wrapCoerce right "__coerceNumberSoft")
    else if ["&&", "||"].contains operator then
      .binary operator (wrapCoerce left "__coerceBool") (wrapCoerce right "__coerceBool")
    else .binary operator left right
  | .unary operator node =>
    if operator = "!" then .unary operator (wrapCoerce node "__coerceBool")
    else .unary operator node
  | node => node

mutual

/-- `ast.Walk` with `coercionPatcher`: the children first. -/
def Node.patch : Node → Node
  | .unary operator node => coercionVisit (.unary operator node.patch)
  | .binary operator left right => coercionVisit (.binary operator left.patch right.patch)
  | .call callee arguments => coercionVisit (.call callee.patch (patchAll arguments))
  | .other kind children => coercionVisit (.other kind (patchAll children))
  | .nil => coercionVisit .nil
  | .bool b => coercionVisit (.bool b)
  | .int n => coercionVisit (.int n)
  | .float x => coercionVisit (.float x)
  | .string s => coercionVisit (.string s)
  | .ident name => coercionVisit (.ident name)

def patchAll : List Node → List Node
  | [] => []
  | n :: rest => n.patch :: patchAll rest

end

/-! ## `Evaluate` -/

/-- expr-lang, with its programs. -/
structure ExprLang (Program : Type) where
  /-- `parser.Parse`, which `expr.Compile` begins with as well. -/
  parse : String → Except String Node
  /-- The rest of `expr.Compile`, after the visitors. -/
  compile : Node → Except String Program
  /-- `expr.Run`. -/
  run : Program → GoMap EnvValue → Except String EnvValue

variable {Program : Type} (lang : ExprLang Program)

/-- `compileExpr` of a text that is not cached. -/
def compileExpr (preprocessed : String) (coerce : Bool) : Except String Program := do
  let tree ← lang.parse preprocessed
  lang.compile (if coerce then tree.patch else tree)

/-- `checkUndefinedIdents`. -/
def checkUndefinedIdents (preprocessed : String) (env : GoMap EnvValue) : Except String Unit := do
  let tree ← lang.parse preprocessed
  match tree.idents.find? fun name => (GoMap.get env name).isNone with
  | some name => .error ("undefined variable " ++ quote name)
  | none => .ok ()

/-- The helper functions, and over them the variables. -/
def environment (vars : GoMap Value) : GoMap EnvValue :=
  GoMap.overlay (builtins.map fun e => (e.1, .func e.2)) (vars.map fun e => (e.1, .value e.2))

/-- `Evaluate` with nothing cached, coercion enabled or not. -/
def evaluate (coerce : Bool) (expression : String) (vars : GoMap Value) :
    Except String EnvValue :=
  Except.mapError (fun e => "expression " ++ quote expression ++ ": " ++ e) do
    let preprocessed ← preprocess expression
    let program ← compileExpr lang preprocessed coerce
    checkUndefinedIdents lang preprocessed (environment vars)
    lang.run program (environment vars)

end Rochallor
