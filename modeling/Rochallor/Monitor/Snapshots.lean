import Rochallor.Data.Equality
import Rochallor.Framework.Budget
import Rochallor.Instance.Service
import Rochallor.Modeller.JavaScript

/-! # Snapshot comparison

    The monitor shows the variables recorded before and after an execution and
    lists what has changed between them.  The documents come out of
    `JSON.parse`, so their numbers are doubles, and a number that is too large
    for one is infinite.  Objects may be of any size: the comparison is made
    only when both documents are small enough and not nested too deeply.
-/

namespace Rochallor.Monitor

/-! ## Documents -/

mutual

/-- `JSON.parse`.  Of members with one name the last counts. -/
def parse : Json → Value
  | .null => .null
  | .bool b => .bool b
  | .num q _ => .float (GoFloat.ofRat q)
  | .str s => .str s
  | .arr items => .arr (parseItems items)
  | .obj members => .obj (GoMap.overlay [] (parseMembers members))

def parseItems : List Json → List Value
  | [] => []
  | j :: js => parse j :: parseItems js

def parseMembers : List (String × Json) → List (String × Value)
  | [] => []
  | (k, j) :: ms => (k, parse j) :: parseMembers ms

end

/-- A snapshot as the API returns it. -/
inductive VariableDocument where
  | present (value : Value) (sizeBytes : Nat)
  | notRecorded
  | contentTooLarge (sizeBytes : Nat)
  deriving Inhabited

/-- How the output of an execution relates to its input. -/
inductive SnapshotInterpretation where
  | variableDelta
  | fullState
  | unknown
  deriving DecidableEq, Inhabited, Repr

/-- What `object[key]` evaluates to.  A key the object does not have may be
    found on its prototype. -/
inductive Property where
  | value (v : Value)
  | inherited (key : String)
  | undefined
  deriving Inhabited

inductive ChangeKind where
  | added
  | removed
  | changed
  deriving DecidableEq, Inhabited, Repr

structure Change where
  key : String
  before : Property
  after : Property
  kind : ChangeKind
  deriving Inhabited

structure Comparison where
  changes : List Change
  truncated : Bool
  unavailable : Option String
  deriving Inhabited

def maxBytes : Nat := 256 * 1024

def maxNodes : Nat := 10000

def maxDepth : Nat := 64

def maxChanges : Nat := 100

/-! ## Objects -/

/-- `Object.entries` of a parsed object: array indices first, in numeric order. -/
def objectEntries (object : GoMap Value) : GoMap Value :=
  let indices := object.filter fun e => (Modeller.arrayIndex e.1).isSome
  indices.insertionSort
      (fun a b => (Modeller.arrayIndex a.1).getD 0 ≤ (Modeller.arrayIndex b.1).getD 0) ++
    object.filter fun e => !(Modeller.arrayIndex e.1).isSome

/-- `Object.keys`. -/
def objectKeys (object : GoMap Value) : List String :=
  (objectEntries object).map (·.1)

/-- `Object.hasOwn`. -/
def hasOwn (object : GoMap Value) (key : String) : Bool :=
  (GoMap.get object key).isSome

/-- The properties every object inherits. -/
def objectPrototype : List String :=
  ["constructor", "__defineGetter__", "__defineSetter__", "hasOwnProperty", "__lookupGetter__",
    "__lookupSetter__", "isPrototypeOf", "propertyIsEnumerable", "toString", "valueOf",
    "__proto__", "toLocaleString"]

/-- `object[key]`. -/
def property (object : GoMap Value) (key : String) : Property :=
  match GoMap.get object key with
  | some v => .value v
  | none => if objectPrototype.contains key then .inherited key else .undefined

theorem objectEntries_perm (object : GoMap Value) : (objectEntries object).Perm object :=
  ((List.perm_insertionSort _ _).append_right _).trans (List.filter_append_perm _ object)

/-- The UTF-16 code units of a string. -/
def codeUnits (s : String) : List Nat :=
  s.toList.flatMap fun c =>
    if c.toNat < 0x10000 then [c.toNat]
    else [0xD800 + (c.toNat - 0x10000) / 0x400, 0xDC00 + (c.toNat - 0x10000) % 0x400]

/-- The order of `sort()`: by UTF-16 code units. -/
def unitsLe (a b : String) : Prop :=
  codeUnits a ≤ codeUnits b

instance : DecidableRel unitsLe := fun a b => inferInstanceAs (Decidable (codeUnits a ≤ codeUnits b))

instance : Std.Total unitsLe := ⟨fun a b => le_total (codeUnits a) (codeUnits b)⟩

instance : IsTrans String unitsLe := ⟨fun _ _ _ hab hbc => le_trans hab hbc⟩

/-- `keys.sort()`. -/
def sortedKeys (keys : List String) : List String :=
  keys.insertionSort unitsLe

theorem nodup_eraseDups : ∀ keys : List String, keys.eraseDups.Nodup := by
  intro keys
  induction h : keys.length using Nat.strong_induction_on generalizing keys with
  | _ n ih =>
    cases keys with
    | nil => exact List.nodup_nil
    | cons key rest =>
      rw [List.eraseDups_cons, List.nodup_cons, List.mem_eraseDups]
      refine ⟨by simp, ih _ ?_ _ rfl⟩
      have hfilter := List.length_filter_le (fun other => !other == key) rest
      rw [List.length_cons] at h
      omega

theorem sortedKeys_perm (keys : List String) : (sortedKeys keys).Perm keys :=
  List.perm_insertionSort ..

theorem sortedKeys_pairwise (keys : List String) : (sortedKeys keys).Pairwise unitsLe :=
  List.pairwise_insertionSort ..

/-! ## The limits -/

/-- The values the traversal goes on to, if the value is an object or an array. -/
def children : Value → Option (List Value)
  | .arr items => some items
  | .obj members => some ((objectEntries members).map (·.2))
  | _ => none

def withinLimits (values : List Value) : Bool :=
  Budget.visit children maxNodes maxDepth (maxNodes + 1)
    (values.map fun value => (value, 0)).reverse 0

/-! ## Equality -/

/-- `a === b` on values that are not objects. -/
def strictEqual : Value → Value → Bool
  | .null, .null => true
  | .bool a, .bool b => a == b
  | .int a, .int b => a == b
  | .float .nan, .float _ => false
  | .float a, .float b => a == b
  | .str a, .str b => a == b
  | _, _ => false

mutual

def equal : Value → Value → Bool
  | .arr as, .arr bs => as.length == bs.length && equalItems as bs
  | .obj left, .obj right => left.length == right.length && equalMembers left right
  | a, b => strictEqual a b

/-- `a.every((value, i) => equal(value, b[i]))`. -/
def equalItems : List Value → List Value → Bool
  | a :: as, b :: bs => equal a b && equalItems as bs
  | _, _ => true

/-- Every key of the left object is one of the right, with an equal value. -/
def equalMembers : List (String × Value) → List (String × Value) → Bool
  | [], _ => true
  | (key, v) :: left, right =>
    (match GoMap.get right key with
     | none => false
     | some w => equal v w) && equalMembers left right

end

/-! ## The comparison -/

/-- The change at one key, if there is one. -/
def keyChange (before after : GoMap Value) (key : String) : List Change :=
  let had := hasOwn before key
  let has := hasOwn after key
  let same :=
    match GoMap.get before key, GoMap.get after key with
    | some v, some w => equal v w
    | _, _ => false
  if had && has && same then []
  else
    [{ key := key, before := property before key, after := property after key,
       kind := if !had then .added else if !has then .removed else .changed }]

/-- The keys that are compared. -/
def comparedKeys (interpretation : SnapshotInterpretation) (before after : GoMap Value) :
    List String :=
  if interpretation = .variableDelta then objectKeys after
  else (objectKeys before ++ objectKeys after).eraseDups

/-- The changes between two values, before they are cut. -/
def documentChanges (interpretation : SnapshotInterpretation) : Value → Value → List Change
  | .obj before, .obj after =>
    (sortedKeys (comparedKeys interpretation before after)).flatMap (keyChange before after)
  | before, after =>
    if equal before after then []
    else [{ key := "Value", before := .value before, after := .value after, kind := .changed }]

def record : Value → Bool
  | .obj _ => true
  | _ => false

def unavailable (message : String) : Comparison :=
  { changes := [], truncated := false, unavailable := some message }

def compareSnapshots (input output : VariableDocument) (interpretation : SnapshotInterpretation) :
    Comparison :=
  match input, output with
  | .present before inputBytes, .present after outputBytes =>
    if decide (maxBytes < inputBytes + outputBytes) || !withinLimits [before, after] then
      unavailable ("Comparison exceeds the 256 KiB, 10,000-value or 64-level processing limit. " ++
        "Raw snapshots remain available.")
    else if interpretation = .variableDelta ∧ ¬(record before = true ∧ record after = true) then
      unavailable ("Returned-variable comparison requires object snapshots. " ++
        "Inspect the raw values.")
    else
      let changes := documentChanges interpretation before after
      { changes := changes.take maxChanges
        truncated := decide (maxChanges < changes.length)
        unavailable := none }
  | _, _ =>
    unavailable "Both snapshots must be recorded and within the document size limit."

end Rochallor.Monitor
