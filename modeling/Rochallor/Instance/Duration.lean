import Rochallor.Data.Float64

/-! # Timer durations

    `parseDuration` of `internal/instance/duration.go`.  It walks the bytes of
    the string, so the model does too; numbers go through `float64` and the
    running total is a `time.Duration`, a 64-bit count of nanoseconds that
    wraps.
-/

namespace Rochallor

/-- Two's-complement wrap-around of an `int64`. -/
def wrapInt64 (n : Int) : Int :=
  (n + 2 ^ 63) % 2 ^ 64 - 2 ^ 63

/-- Conversion of a float to `int64`: truncation toward zero, and the least
    `int64` when the value does not fit (as amd64 does). -/
def truncInt64 (q : Option ℚ) : Int :=
  match q with
  | none => -2 ^ 63
  | some v =>
    let t := if 0 ≤ v then v.floor else -(-v).floor
    if -2 ^ 63 ≤ t ∧ t < 2 ^ 63 then t else -2 ^ 63

/-- A float product. -/
def floatMul (x : Option ℚ) (y : ℚ) : Option ℚ :=
  x.bind fun v => Float64.float64 (v * y)

namespace Duration

def isDigit (b : UInt8) : Bool := 48 ≤ b && b ≤ 57

/-- `'0'..'9'` or `'.'`. -/
def isNumeral (b : UInt8) : Bool := isDigit b || b == 46

/-- The value of a run of digits. -/
def digitsValue (ds : List UInt8) : Nat :=
  ds.foldl (fun acc b => acc * 10 + (b.toNat - 48)) 0

/-- `fmt.Sscanf(numStr, "%f", &n)` on a run of numerals: it reads digits, a
    point and more digits and ignores the rest; on an error `n` stays 0. -/
def scanFloat (bs : List UInt8) : ℚ :=
  let int := bs.takeWhile isDigit
  let frac := match bs.dropWhile isDigit with
    | 46 :: rest => rest.takeWhile isDigit
    | _ => []
  if int.isEmpty && frac.isEmpty then 0
  else (Float64.float64 ((digitsValue (int ++ frac) : ℚ) / 10 ^ frac.length)).getD 0

/-- The nanoseconds one component adds; units other than `D`, `H`, `M` and `S`
    add nothing. -/
def component (n : ℚ) (unit : UInt8) : Int :=
  if unit = 68 then truncInt64 (floatMul (floatMul (some n) 24) 3600000000000)
  else if unit = 72 then truncInt64 (floatMul (some n) 3600000000000)
  else if unit = 77 then truncInt64 (floatMul (some n) 60000000000)
  else if unit = 83 then truncInt64 (floatMul (some n) 1000000000)
  else 0

/-- The scanning loop over what follows the `P`.  Each round consumes at least
    one byte, so the length of the rest bounds the rounds. -/
def scan : Nat → List UInt8 → Int → Int
  | 0, _, total => total
  | _ + 1, [], total => total
  | rounds + 1, b :: rest, total =>
    if b = 84 then scan rounds rest total
    else
      let numStr := (b :: rest).takeWhile isNumeral
      match (b :: rest).dropWhile isNumeral with
      | [] => total
      | unit :: rest' =>
        if numStr.isEmpty then total
        else scan rounds rest' (wrapInt64 (total + component (scanFloat numStr) unit))

end Duration

/-- `parseDuration`, in nanoseconds. -/
def parseDuration (iso : String) : Except String Int :=
  let bytes := iso.toList.flatMap String.utf8EncodeChar
  match bytes with
  | 80 :: rest =>
    if bytes.length < 3 then .error "invalid ISO-8601 duration"
    else
      let total := Duration.scan rest.length rest 0
      if total = 0 then .error "invalid or zero ISO-8601 duration" else .ok total
  | _ => .error "invalid ISO-8601 duration"

end Rochallor
