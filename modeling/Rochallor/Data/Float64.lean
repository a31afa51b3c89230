import Mathlib.Algebra.Order.Field.Rat
import Mathlib.Data.Rat.Floor

/-! # Float64

    `encoding/json` reads every number as a `float64` and writes it back in
    the shortest decimal form that reads as the same `float64`.  Both are
    given here on exact rationals: `float64` rounds to the nearest IEEE-754
    double (ties to even, `none` beyond the largest finite one), `shortest`
    is the value of the decimal that is printed.
-/

namespace Rochallor.Float64

/-- `2 ^ e` for an integer exponent. -/
def pow2 (e : Int) : ℚ :=
  if 0 ≤ e then (2 : ℚ) ^ e.toNat else 1 / (2 : ℚ) ^ (-e).toNat

/-- `10 ^ e` for an integer exponent. -/
def pow10 (e : Int) : ℚ :=
  if 0 ≤ e then (10 : ℚ) ^ e.toNat else 1 / (10 : ℚ) ^ (-e).toNat

/-- The binary exponent of a positive rational: the greatest `e` with
    `2 ^ e ≤ q`. -/
def exponent (q : ℚ) : Int :=
  let k : Int := (Nat.log2 q.num.natAbs : Int) - (Nat.log2 q.den : Int)
  if pow2 k ≤ q then k else k - 1

/-- The nearest integer, ties to even. -/
def roundHalfEven (q : ℚ) : Int :=
  let f := q.floor
  let r := q - f
  if r < 1 / 2 then f
  else if 1 / 2 < r then f + 1
  else if f % 2 = 0 then f else f + 1

/-- The nearest double.  The unit in the last place is `2 ^ (e - 52)`, and
    never below the subnormal `2 ^ (-1074)`. -/
def float64 (q : ℚ) : Option ℚ :=
  if q = 0 then some 0
  else
    let ulp := pow2 (max (exponent |q| - 52) (-1074))
    let v := (roundHalfEven (q / ulp) : ℚ) * ulp
    if |v| < pow2 1024 then some v else none

/-- The decimal `strconv.FormatFloat` prints for a double: the coarsest
    multiple of a power of ten that still reads as that double. -/
def shortest (q : ℚ) : ℚ :=
  let candidate (i : Nat) : Option ℚ :=
    let unit := pow10 (310 - (i : Int))
    let c := (roundHalfEven (q / unit) : ℚ) * unit
    if float64 c = some q then some c else none
  ((List.range 700).findSome? candidate).getD q

end Rochallor.Float64

namespace Rochallor

/-- A Go `float64`. -/
inductive GoFloat where
  | finite (value : ℚ)
  | posInf
  | negInf
  | nan
  deriving DecidableEq, Inhabited, Repr

namespace GoFloat

/-- Rounds an exact result; overflow gives an infinity. -/
def ofRat (q : ℚ) : GoFloat :=
  match Float64.float64 q with
  | some v => .finite v
  | none => if 0 < q then .posInf else .negInf

/-- `x + y`. -/
def add : GoFloat → GoFloat → GoFloat
  | .finite a, .finite b => ofRat (a + b)
  | .nan, _ | _, .nan => .nan
  | .posInf, .negInf | .negInf, .posInf => .nan
  | .posInf, _ | _, .posInf => .posInf
  | .negInf, _ | _, .negInf => .negInf

/-- `x < y`; false when either side is not a number. -/
def lt : GoFloat → GoFloat → Bool
  | .finite a, .finite b => decide (a < b)
  | .nan, _ | _, .nan => false
  | .negInf, .negInf | .posInf, .posInf => false
  | .negInf, _ | _, .posInf => true
  | _, _ => false

end GoFloat

end Rochallor
