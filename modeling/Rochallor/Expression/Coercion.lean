import Rochallor.Data.Text

/-! # Coercion

    `coerceNumberStrict`, `coerceNumberSoft` and `coerceBoolStrict` of
    `internal/expression/evaluator.go`, over `strconv.ParseFloat`.

    `parseFloat` follows the documented syntax of `ParseFloat`: Go's decimal
    and hexadecimal floating-point literals, integers, an optional sign, and
    the words for infinities and not-a-number.  A number beyond the largest
    finite double is a range error.
-/

namespace Rochallor

/-! ## Characters -/

/-- `lower` of `strconv`, on ASCII letters. -/
def lowerAscii (c : Char) : Char :=
  if 'A' ≤ c && c ≤ 'Z' then Char.ofNat (c.toNat + 32) else c

/-- The value of a digit in the base, 10 or 16. -/
def digitValue (hex : Bool) (c : Char) : Option Nat :=
  if '0' ≤ c && c ≤ '9' then some (c.toNat - '0'.toNat)
  else if hex && 'a' ≤ lowerAscii c && lowerAscii c ≤ 'f' then
    some ((lowerAscii c).toNat - 'a'.toNat + 10)
  else none

/-- An optional sign: whether it is a minus, and what follows. -/
def takeSign : List Char → Bool × List Char
  | '+' :: rest => (false, rest)
  | '-' :: rest => (true, rest)
  | cs => (false, cs)

/-! ## `strconv.ParseFloat` -/

/-- The words `inf` and `infinity`, with an optional sign, and `nan`, in any
    case. -/
def specialWord (cs : List Char) : Option GoFloat :=
  let (neg, rest) := takeSign cs
  let word := rest.map lowerAscii
  if word = "inf".toList ∨ word = "infinity".toList then some (if neg then .negInf else .posInf)
  else if cs.map lowerAscii = "nan".toList then some .nan
  else none

/-- What the loop over a mantissa has read. -/
structure Mantissa where
  /-- The digits as a whole number. -/
  digits : Nat := 0
  /-- How many of them stand after the point. -/
  places : Nat := 0
  sawdot : Bool := false
  sawdigits : Bool := false

/-- The loop over a mantissa.  Underscores are skipped here and checked by
    `underscoreOK`. -/
def readMantissa (hex : Bool) : Mantissa → List Char → Mantissa × List Char
  | m, [] => (m, [])
  | m, c :: rest =>
    if c = '_' then readMantissa hex m rest
    else if c = '.' then
      if m.sawdot then (m, c :: rest) else readMantissa hex { m with sawdot := true } rest
    else
      match digitValue hex c with
      | none => (m, c :: rest)
      | some d =>
        readMantissa hex
          { m with
            digits := m.digits * (if hex then 16 else 10) + d
            places := if m.sawdot then m.places + 1 else m.places
            sawdigits := true } rest

/-- The digits of an exponent, underscores skipped. -/
def exponentDigits (cs : List Char) : Nat :=
  (cs.filter (· != '_')).foldl (fun e c => e * 10 + (c.toNat - '0'.toNat)) 0

/-- An exponent after its letter: a sign, a digit, and digits or underscores to
    the end of the text. -/
def readExponent (cs : List Char) : Option Int :=
  let (neg, rest) := takeSign cs
  if (rest.head?.any Char.isDigit) && rest.all (fun c => c.isDigit || c == '_') then
    some (if neg then -(exponentDigits rest : Int) else exponentDigits rest)
  else none

/-- What the character before was, for `underscoreOK`. -/
inductive Saw where
  | start
  | digit
  | underscore
  | other
  deriving DecidableEq

/-- The loop of `underscoreOK`: underscores stand between digits. -/
def underscoresFrom (hex : Bool) : Saw → List Char → Bool
  | saw, [] => saw != .underscore
  | saw, c :: rest =>
    if (digitValue hex c).isSome then underscoresFrom hex .digit rest
    else if c = '_' then saw == .digit && underscoresFrom hex .underscore rest
    else saw != .underscore && underscoresFrom hex .other rest

/-- `underscoreOK`: a base prefix counts as a digit. -/
def underscoreOK (cs : List Char) : Bool :=
  let (_, rest) := takeSign cs
  match rest with
  | '0' :: p :: digits =>
    if ['b', 'o', 'x'].contains (lowerAscii p) then
      underscoresFrom (lowerAscii p == 'x') .digit digits
    else underscoresFrom false .start rest
  | _ => underscoresFrom false .start rest

/-- The value of a mantissa with an exponent, a power of ten or of two. -/
def scaled (hex neg : Bool) (m : Mantissa) (exponent : Int) : ℚ :=
  let size : ℚ := if hex then (m.digits : ℚ) * 2 ^ exponent / 16 ^ m.places
    else (m.digits : ℚ) * 10 ^ exponent / 10 ^ m.places
  if neg then -size else size

/-- A hexadecimal prefix, with something after it. -/
def takeHex : List Char → Bool × List Char
  | '0' :: x :: c :: body =>
    if lowerAscii x = 'x' then (true, c :: body) else (false, '0' :: x :: c :: body)
  | cs => (false, cs)

/-- `readFloat`: the exact value of a number in Go's syntax. -/
def readFloat (cs : List Char) : Option ℚ :=
  let (neg, rest) := takeSign cs
  let (hex, body) := takeHex rest
  let (m, tail) := readMantissa hex {} body
  if !m.sawdigits then none
  else if cs.contains '_' && !underscoreOK cs then none
  else
    match tail with
    | [] => if hex then none else some (scaled hex neg m 0)
    | e :: digits =>
      if lowerAscii e = (if hex then 'p' else 'e') then
        (readExponent digits).map (scaled hex neg m)
      else none

/-- `strconv.ParseFloat(s, 64)`, or nothing where it returns an error. -/
def parseFloat (s : String) : Option GoFloat :=
  match specialWord s.toList with
  | some x => some x
  | none => ((readFloat s.toList).bind Float64.float64).map .finite

/-! ## Coercions -/

/-- The first characters of a text, up to a number of bytes. -/
def takeBytes : Nat → List Char → List Char
  | _, [] => []
  | n, c :: rest => if n < c.utf8Size then [] else c :: takeBytes (n - c.utf8Size) rest

/-- `valuePreview`: at most 64 bytes. -/
def valuePreview (text : String) : String :=
  if 64 < text.utf8ByteSize then String.ofList (takeBytes 64 text.toList) ++ "…" else text

/-- `coerceNumberStrict`. -/
def coerceNumberStrict : Value → Except String GoFloat
  | .float x => .ok x
  | .int n => .ok (.ofRat n)
  | .str s =>
    match parseFloat s with
    | some x => .ok x
    | none => .error ("cannot coerce value " ++ quote (valuePreview s) ++ " to number")
  | v => .error ("cannot coerce value " ++ valuePreview v.format ++ " (type " ++ v.typeName ++
      ") to number")

/-- `coerceNumberSoft`. -/
def coerceNumberSoft : Value → Value
  | .str s =>
    match parseFloat s with
    | some x => .float x
    | none => .str s
  | v => v

/-- `coerceBoolStrict`. -/
def coerceBoolStrict : Value → Except String Bool
  | .bool b => .ok b
  | .str s =>
    if s.toList.map lowerAscii = "true".toList then .ok true
    else if s.toList.map lowerAscii = "false".toList then .ok false
    else .error ("cannot coerce value " ++ quote (valuePreview s) ++ " to bool")
  | v => .error ("cannot coerce value " ++ valuePreview v.format ++ " (type " ++ v.typeName ++
      ") to bool")

end Rochallor
