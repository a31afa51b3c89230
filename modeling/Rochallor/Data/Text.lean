import Rochallor.Data.Json

/-! # Text

    How values are printed in messages, and white space.
-/

namespace Rochallor

/-! ## Printing -/

/-- `fmt`'s `%T`. -/
def Value.typeName : Value → String
  | .null => "<nil>"
  | .bool _ => "bool"
  | .int _ => "int"
  | .float _ => "float64"
  | .str _ => "string"
  | .arr _ => "[]interface {}"
  | .obj _ => "map[string]interface {}"

/-- The decimal form of a rational whose expansion ends within 400 digits. -/
def formatRat (q : ℚ) : String :=
  let places := ((List.range 400).find? fun k => (q * 10 ^ k).den == 1).getD 0
  let n := (q * 10 ^ places).num.natAbs
  let frac := toString (n % 10 ^ places)
  let sign := if q < 0 then "-" else ""
  if places = 0 then sign ++ toString n
  else sign ++ toString (n / 10 ^ places) ++ "." ++
    String.ofList (List.replicate (places - frac.length) '0') ++ frac

mutual

/-- `fmt`'s `%v`, without its exponent form for very large floats. -/
def Value.format : Value → String
  | .null => "<nil>"
  | .bool b => toString b
  | .int n => toString n
  | .float (.finite q) => formatRat (Float64.shortest q)
  | .float .posInf => "+Inf"
  | .float .negInf => "-Inf"
  | .float .nan => "NaN"
  | .str s => s
  | .arr items => "[" ++ " ".intercalate (formatItems items) ++ "]"
  | .obj members => "map[" ++ " ".intercalate (formatMembers members) ++ "]"

def formatItems : List Value → List String
  | [] => []
  | v :: vs => v.format :: formatItems vs

def formatMembers : List (String × Value) → List String
  | [] => []
  | (k, v) :: ms => (k ++ ":" ++ v.format) :: formatMembers ms

end

/-! ## White space -/

/-- `unicode.IsSpace`. -/
def isSpace (c : Char) : Bool :=
  let n := c.toNat
  (9 ≤ n && n ≤ 13) || n == 32 || n == 0x85 || n == 0xA0 || n == 0x1680 ||
  (0x2000 ≤ n && n ≤ 0x200a) || n == 0x2028 || n == 0x2029 || n == 0x202f || n == 0x205f ||
  n == 0x3000

/-- `strings.TrimSpace`. -/
def trimSpace (cs : List Char) : List Char :=
  ((cs.dropWhile isSpace).reverse.dropWhile isSpace).reverse

end Rochallor
