import Rochallor.Data.Json
import Rochallor.Framework.Keyset
import Rochallor.Framework.Table
import Mathlib.Data.String.Basic

/-! # What the monitor reads

    The tables of the engine as `workflow-monitor-bff` queries them, with the
    columns its lists use.  A `TIMESTAMPTZ` is a number of microseconds since
    1970.  The driver reads it as a JavaScript `Date`, which holds whole
    milliseconds; in a cursor or a filter it is text again.
-/

namespace Rochallor.Monitor

/-! ## Times -/

/-- A `Date`: milliseconds since 1970. -/
abbrev Date := Int

/-- A `TIMESTAMPTZ` as the driver reads it. -/
def toDate (micros : Int) : Date :=
  micros / 1000

/-- A timestamp as text: nothing, a text that `isUtcTimestamp` or PostgreSQL
    refuses, or the microseconds both read in it. -/
inductive TimeText where
  | blank
  | unreadable
  | utc (micros : Int)
  deriving DecidableEq, Repr

/-- `isUtcTimestamp`. -/
def isUtcTimestamp : TimeText → Bool
  | .utc _ => true
  | _ => false

/-- The years with four digits, from the year 1 on. -/
def fourDigitYear (date : Date) : Bool :=
  decide (-62135596800000 ≤ date) && decide (date < 253402300800000)

/-- `toISOString`.  Other years get a sign, which neither side reads. -/
def toISOString (date : Date) : TimeText :=
  if fourDigitYear date then .utc (date * 1000) else .unreadable

/-- A date is never after the timestamp it was read from. -/
theorem toDate_le (micros : Int) : toDate micros * 1000 ≤ micros :=
  Int.ediv_mul_le micros (by decide)

/-! ## Parameters -/

/-- `if (value)`: a parameter that is absent or empty is no condition. -/
def truthy : Option String → Option String
  | some s => if s.isEmpty then none else some s
  | none => none

/-- `Number(value)` of a text that matches `/^\d+$/`. -/
def digits (value : String) : Option Nat :=
  if value.toList ≠ [] ∧ value.toList.all Char.isDigit then
    some (Nat.ofDigitChars 10 value.toList 0)
  else none

theorem digits_repr (n : Nat) : digits n.repr = some n := by
  have hall : (Nat.toDigits 10 n).all Char.isDigit = true := by
    rw [List.all_eq_true]
    exact fun c hc => Nat.isDigit_of_mem_toDigits (by decide) (by decide) hc
  rw [digits, Nat.toList_repr, if_pos ⟨Nat.toDigits_ne_nil, hall⟩,
    Nat.ofDigitChars_toDigits (by decide) (by decide)]

/-- `Number(value)` of a text, with NaN and the infinities left out. -/
abbrev JsNumber := Option ℚ

/-- `pageSize`. -/
def pageSize (value : Option JsNumber) : Except String Nat :=
  let refused := .error "Page size must be between 1 and 100"
  match value with
  | none => .ok 50
  | some none => refused
  | some (some parsed) =>
    if parsed.den = 1 ∧ 1 ≤ parsed ∧ parsed ≤ 100 then .ok parsed.num.toNat else refused

theorem pageSize_pos {value : Option JsNumber} {limit : Nat} (h : pageSize value = .ok limit) :
    0 < limit := by
  unfold pageSize at h
  split at h
  · cases h
    decide
  · cases h
  · rename_i q
    split at h
    · rename_i hq
      cases h
      have hnum : (1 : ℚ) ≤ q.num := by
        rw [Rat.coe_int_num_of_den_eq_one hq.1]
        exact hq.2.1
      have : (1 : Int) ≤ q.num := by exact_mod_cast hnum
      omega
    · cases h

/-! ## Tables -/

structure WorkflowInstanceRow where
  id : String
  definitionId : String
  definitionVersion : Int
  status : String
  currentStepIds : List String
  startedAt : Int
  completedAt : Option Int
  failureReason : Option String
  businessKey : Option String
  deriving DecidableEq

structure StepExecutionRow where
  id : String
  instanceId : String
  stepId : String
  stepType : String
  attemptNumber : Int
  status : String
  startedAt : Int
  endedAt : Option Int
  failureReason : Option String
  inputSnapshot : Option Json
  outputSnapshot : Option Json

structure WorkflowDefinitionRow where
  id : String
  version : Int
  name : String

structure JobRow where
  id : String
  stepExecutionId : String
  jobType : String
  status : String
  createdAt : Int

/-- The content of the database.  The keys are the tables' own; that a failed
    execution has ended is what the engine writes. -/
structure Content where
  instances : List WorkflowInstanceRow
  executions : List StepExecutionRow
  definitions : List WorkflowDefinitionRow
  jobs : List JobRow
  instance_ids : (instances.map (·.id)).Nodup
  execution_ids : (executions.map (·.id)).Nodup
  definition_keys : (definitions.map fun d => (d.id, d.version)).Nodup
  job_ids : (jobs.map (·.id)).Nodup
  ended : ∀ e ∈ executions, e.status = "FAILED" → e.endedAt.isSome

/-- `ORDER BY attempt_number DESC, started_at DESC, id DESC LIMIT 1` among the
    executions of the step. -/
def Content.latestExecution (db : Content) (instanceId stepId : String) :
    Option StepExecutionRow :=
  Table.latest (fun e => toLex (e.attemptNumber, toLex (e.startedAt, e.id)))
    (db.executions.filter fun e => e.instanceId == instanceId && e.stepId == stepId)

/-! ## Keys -/

/-- `(timestamp, id)`, compared as rows are. -/
abbrev Key := ℤ ×ₗ String

/-- Rows with their own ids have their own keys. -/
theorem keys_nodup {α : Type} {rows : List α} {time : α → Int} {id : α → String}
    (h : (rows.map id).Nodup) : (rows.map fun r => (toLex (time r, id r) : Key)).Nodup := by
  refine List.Nodup.of_map (fun k : Key => (ofLex k).2) ?_
  simpa [Function.comp_def] using h

/-- A lower time and the same id make a lower key. -/
theorem key_le {time time' : Int} (h : time ≤ time') (id : String) :
    (toLex (time, id) : Key) ≤ toLex (time', id) := by
  rw [Prod.Lex.toLex_le_toLex]
  rcases h.lt_or_eq with hlt | heq
  · exact .inl hlt
  · exact .inr ⟨heq, le_refl _⟩

/-! ## Pages -/

section Pages

variable {α β C : Type} (key : α → Key) (item : α → β) (encode : β → C)
  (decode : C → Except String Key)

/-- `mapped.slice(0, limit)`, with the cursor of the last item if one more row
    was found. -/
def slicePage (limit : Nat) (mapped : List β) : List β × Option C :=
  let items := mapped.take limit
  (items, if limit < mapped.length then items.getLast?.map encode else none)

/-- The query of a list: of the rows that satisfy its conditions, those below
    the cursor, newest first, and one more than the page holds. -/
def fetchPage (rows : List α) (selects : α → Bool) (limit : Nat) (cursor : Option C) :
    Except String (List β × Option C) := do
  let after ← cursor.mapM decode
  let found := rows.filter fun row => selects row && after.all fun k => decide (key row < k)
  let mapped := ((Keyset.newestFirst key found).take (limit + 1)).map item
  return slicePage encode limit mapped

variable {key item encode decode} {cut : α → Key} {rows : List α} {limit : Nat}

theorem slicePage_eq (rows : List α) :
    slicePage encode limit ((rows.take (limit + 1)).map item) =
      Keyset.pageOf limit item (fun r => encode (item r)) rows := by
  rw [← Keyset.pageOf_take, slicePage, Keyset.pageOf]
  simp only [← List.map_take, List.length_map, List.getLast?_map, Option.map_map,
    Function.comp_def]

/-- The condition on the cursor selects from the rows that the other conditions
    select. -/
theorem filter_below (hkeys : (rows.map key).Nodup) (selects : α → Bool) (a : α) :
    Keyset.newestFirst key (rows.filter fun r => selects r && decide (key r < cut a)) =
      Keyset.belowOf key cut a (Keyset.newestFirst key (rows.filter selects)) := by
  have hkeys' : ((rows.filter selects).map key).Nodup :=
    hkeys.sublist (List.filter_sublist.map key)
  have hfilter : (rows.filter fun r => selects r && decide (key r < cut a)) =
      (rows.filter selects).filter fun r => decide (key r < cut a) := by
    rw [List.filter_filter]
    exact List.filter_congr fun r _ => Bool.and_comm _ _
  rw [hfilter, Keyset.newestFirst_filter hkeys', Keyset.belowOf]

/-- The query lists the rows, if the cursor of a row stands for the key `cut`
    when it can be read and is refused when it cannot. -/
theorem fetchPage_lists (hkeys : (rows.map key).Nodup) (hlimit : 0 < limit)
    (selects : α → Bool) {readable : α → Prop} (hcut : ∀ a, cut a ≤ key a)
    (hread : ∀ a, readable a → decode (encode (item a)) = .ok (cut a))
    (hrefuse : ∀ a, ¬ readable a → ∃ e, decode (encode (item a)) = .error e) :
    Keyset.Lists (fetchPage key item encode decode rows selects limit) limit item
      (fun r => encode (item r)) readable key cut
      (Keyset.newestFirst key (rows.filter selects)) where
  positive := hlimit
  ordered := Keyset.newestFirst_strict (hkeys.sublist (List.filter_sublist.map key))
  lower := hcut
  first := by
    simp only [fetchPage, Option.mapM_none, bind, Except.bind, pure, Except.pure,
      Option.all_none, Bool.and_true, slicePage_eq]
  below := by
    intro a _ ha
    simp only [fetchPage, Option.mapM_some, hread a ha, bind, Except.bind, pure, Except.pure,
      Functor.map, Except.map, Option.all_some, slicePage_eq, filter_below hkeys]
  refused := by
    intro a _ ha page h
    obtain ⟨e, he⟩ := hrefuse a ha
    simp only [fetchPage, Option.mapM_some, he, bind, Except.bind, Functor.map, Except.map,
      reduceCtorEq] at h

end Pages

end Rochallor.Monitor
