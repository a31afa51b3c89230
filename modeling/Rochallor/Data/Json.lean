import Rochallor.Data.Float64

/-! # JSON documents and Go values

    `Json` is a JSON document as `encoding/json` reads it: object members in
    the order of the text, repeated keys included.  A number carries its exact
    value and whether its literal is a plain integer (no fraction, no
    exponent), which is what decides whether it fits a Go `int` field.

    `Value` is a Go `any`: what `json.Unmarshal` produces for a document and
    what the expression evaluator returns.  Unlike JSON it separates `int`
    from `float64` and has non-finite floats.
-/

namespace Rochallor

/-- Peels one bind off a computation that succeeded. -/
theorem bind_eq_ok {ε α β : Type} {x : Except ε α} {f : α → Except ε β} {b : β}
    (h : (x >>= f) = .ok b) : ∃ a, x = .ok a ∧ f a = .ok b := by
  cases x with
  | error e => cases h
  | ok a => exact ⟨a, rfl, h⟩

theorem bind_eq_error {ε α β : Type} {x : Except ε α} {f : α → Except ε β} {e : ε}
    (h : x >>= f = .error e) : x = .error e ∨ ∃ a, x = .ok a ∧ f a = .error e := by
  cases x with
  | error e' =>
    cases h
    exact .inl rfl
  | ok a => exact .inr ⟨a, rfl, h⟩

/-- A JSON document. -/
inductive Json where
  | null
  | bool (b : Bool)
  | num (value : ℚ) (plain : Bool)
  | str (s : String)
  | arr (items : List Json)
  | obj (members : List (String × Json))
  deriving Inhabited, Repr

/-- A Go value of type `any`. -/
inductive Value where
  | null
  | bool (b : Bool)
  | int (n : Int)
  | float (value : GoFloat)
  | str (s : String)
  | arr (items : List Value)
  | obj (members : List (String × Value))
  deriving Inhabited, Repr

/-! ## Quoting -/

/-- One character of `strconv.Quote`. -/
def quoteChar (c : Char) : String :=
  if c = '"' then "\\\""
  else if c = '\\' then "\\\\"
  else if c = '\n' then "\\n"
  else if c = '\t' then "\\t"
  else if c = '\r' then "\\r"
  else String.singleton c

/-- `fmt`'s `%q`: a double-quoted Go string literal. -/
def quote (s : String) : String :=
  "\"" ++ String.join (s.toList.map quoteChar) ++ "\""

/-! ## Go maps -/

/-- A Go map with string keys, in an order the program cannot rely on. -/
abbrev GoMap (α : Type) := List (String × α)

namespace GoMap

variable {α : Type}

/-- `m[k]`. -/
def get (m : GoMap α) (k : String) : Option α :=
  (m.find? fun e => e.1 == k).map (·.2)

/-- `m[k] = v`. -/
def set (m : GoMap α) (k : String) (v : α) : GoMap α :=
  if m.any (fun e => e.1 == k) then m.map fun e => if e.1 == k then (k, v) else e
  else m ++ [(k, v)]

/-- `delete(m, k)`. -/
def delete (m : GoMap α) (k : String) : GoMap α :=
  m.filter fun e => !(e.1 == k)

/-- `for k, v := range delta { m[k] = v }`. -/
def overlay (m delta : GoMap α) : GoMap α :=
  delta.foldl (fun acc e => acc.set e.1 e.2) m

end GoMap

/-! ## Decoding into `any` and encoding back -/

mutual

/-- `json.Unmarshal` into an `any`. -/
def Json.toValue : Json → Except String Value
  | .null => .ok .null
  | .bool b => .ok (.bool b)
  | .num q _ =>
    match Float64.float64 q with
    | some v => .ok (.float (.finite v))
    | none => .error "json: cannot unmarshal number into Go value of type float64"
  | .str s => .ok (.str s)
  | .arr items => do return .arr (← toValues items)
  | .obj members => do return .obj (GoMap.overlay [] (← toMembers members))

/-- The elements of an array, in order. -/
def toValues : List Json → Except String (List Value)
  | [] => .ok []
  | j :: js => do return (← j.toValue) :: (← toValues js)

/-- The members of an object, in order. -/
def toMembers : List (String × Json) → Except String (List (String × Value))
  | [] => .ok []
  | (k, j) :: ms => do return (k, ← j.toValue) :: (← toMembers ms)

end

/-- Insertion into a member list sorted by key. -/
def insertByKey {α : Type} (e : String × α) : List (String × α) → List (String × α)
  | [] => [e]
  | x :: xs => if e.1 < x.1 then e :: x :: xs else x :: insertByKey e xs

/-- `json.Marshal` writes map keys in sorted order. -/
def sortByKey {α : Type} (m : List (String × α)) : List (String × α) :=
  m.foldr insertByKey []

mutual

/-- `json.Marshal`.  Non-finite floats have no JSON form. -/
def Value.marshal : Value → Except String Json
  | .null => .ok .null
  | .bool b => .ok (.bool b)
  | .int n => .ok (.num n true)
  | .float (.finite v) =>
    let s := Float64.shortest v
    -- integers below 1e21 are printed without fraction or exponent
    .ok (.num s (decide (s.den = 1) && decide (|s| < 10 ^ 21)))
  | .float _ => .error "json: unsupported value"
  | .str s => .ok (.str s)
  | .arr items => do return .arr (← marshalItems items)
  | .obj members => do return .obj (sortByKey (← marshalMembers members))

/-- The elements of a slice, in order. -/
def marshalItems : List Value → Except String (List Json)
  | [] => .ok []
  | v :: vs => do return (← v.marshal) :: (← marshalItems vs)

/-- The entries of a map. -/
def marshalMembers : List (String × Value) → Except String (List (String × Json))
  | [] => .ok []
  | (k, v) :: ms => do return (k, ← v.marshal) :: (← marshalMembers ms)

end

end Rochallor
