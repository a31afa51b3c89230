import Rochallor.Framework.UrlEncoded
import Rochallor.Monitor.Database
import Rochallor.Monitor.Snapshots

/-! # Saved filters

    The monitor keeps named filters of its lists in the browser.  A filter is
    the query of a list's address; it is checked and normalized when the views
    are stored, and again when they are loaded.  Texts are taken without lone
    surrogates, and `toLowerCase` is a parameter.
-/

namespace Rochallor.Monitor

/-! ## UTC times -/

/-- A text that matches `/^\d{4}-\d{2}-\d{2}T\d{2}:\d{2}:\d{2}(?:\.\d+)?Z$/`. -/
structure UtcText where
  year : Nat
  month : Nat
  day : Nat
  hour : Nat
  minute : Nat
  second : Nat
  fraction : List Char
  deriving Repr

def number (cs : List Char) : Nat :=
  Nat.ofDigitChars 10 cs 0

/-- What stands between the seconds and the end: nothing, or a fraction. -/
def readFraction : List Char → Option (List Char)
  | ['Z'] => some []
  | '.' :: rest =>
    let fraction := rest.dropLast
    if rest.getLast? = some 'Z' ∧ fraction ≠ [] ∧ fraction.all Char.isDigit then some fraction
    else none
  | _ => none

def readUtc (value : String) : Option UtcText :=
  match value.toList with
  | y₁ :: y₂ :: y₃ :: y₄ :: '-' :: m₁ :: m₂ :: '-' :: d₁ :: d₂ :: 'T' ::
      h₁ :: h₂ :: ':' :: i₁ :: i₂ :: ':' :: s₁ :: s₂ :: rest =>
    if [y₁, y₂, y₃, y₄, m₁, m₂, d₁, d₂, h₁, h₂, i₁, i₂, s₁, s₂].all Char.isDigit then
      (readFraction rest).map fun fraction =>
        { year := number [y₁, y₂, y₃, y₄], month := number [m₁, m₂], day := number [d₁, d₂],
          hour := number [h₁, h₂], minute := number [i₁, i₂], second := number [s₁, s₂],
          fraction := fraction }
    else none
  | _ => none

def leapYear (year : Nat) : Bool :=
  decide (year % 4 = 0) && (!decide (year % 100 = 0) || decide (year % 400 = 0))

def monthDays (year month : Nat) : Nat :=
  match month with
  | 4 | 6 | 9 | 11 => 30
  | 2 => if leapYear year then 29 else 28
  | 1 | 3 | 5 | 7 | 8 | 10 | 12 => 31
  | _ => 0

/-- The date exists: `Date.parse` reads it and `toISOString` writes it back. -/
def UtcText.valid (t : UtcText) : Bool :=
  decide (1 ≤ t.day) && decide (t.day ≤ monthDays t.year t.month) && decide (t.hour < 24) &&
    decide (t.minute < 60) && decide (t.second < 60)

/-- `Date.parse`.  Digits behind the milliseconds are dropped. -/
def UtcText.time (t : UtcText) : Date :=
  let leaps := (t.year + 3) / 4 - (t.year + 99) / 100 + (t.year + 399) / 400
  let months := ((List.range (t.month - 1)).map fun m => monthDays t.year (m + 1)).sum
  let days : Int := 365 * t.year + leaps + months + t.day - 1 - 719528
  let millis := number ((t.fraction ++ ['0', '0', '0']).take 3)
  (((days * 24 + t.hour) * 60 + t.minute) * 60 + t.second) * 1000 + millis

/-- One pass of the loop over the two times. -/
def timeError (label value : String) : Option String :=
  if value.isEmpty then none
  else if (readUtc value).any UtcText.valid then none
  else some (label ++ " must be a valid UTC date and time.")

def timeRangeError (since until_ : String) : Option String :=
  (timeError "From" since).or <|
    (timeError "To" until_).or <|
      match readUtc since, readUtc until_ with
      | some a, some b =>
        if b.time ≤ a.time then some "From must be earlier than To (UTC)." else none
      | _, _ => none

/-! ## Queries -/

/-- `getAll`. -/
def getAll (query : List (String × String)) (name : String) : List String :=
  (query.filter fun p => p.1 == name).map (·.2)

/-- `get`. -/
def getFirst (query : List (String × String)) (name : String) : Option String :=
  (getAll query name).head?

/-- `has`. -/
def hasName (query : List (String × String)) (name : String) : Bool :=
  !(getAll query name).isEmpty

/-- `set`: the first pair of the name gets the value, the others go. -/
def setValue (name value : String) : List (String × String) → List (String × String)
  | [] => [(name, value)]
  | p :: rest =>
    if p.1 = name then (name, value) :: rest.filter fun p => !(p.1 == name)
    else p :: setValue name value rest

/-- `delete`. -/
def deleteName (query : List (String × String)) (name : String) : List (String × String) :=
  query.filter fun p => !(p.1 == name)

/-- `new URLSearchParams(search)`. -/
def searchParams (search : String) : List (String × String) :=
  match search.toList with
  | '?' :: rest => UrlEncoded.parse (String.ofList rest)
  | _ => UrlEncoded.parse search

/-- `query.get(name) ?? ""`. -/
def valueOrEmpty (query : List (String × String)) (name : String) : String :=
  (getFirst query name).getD ""

/-! ## Normalizing a search -/

inductive FilterKind where
  | instances
  | incidents
  deriving DecidableEq, Inhabited, Repr

def maxFilters : Nat := 20

def maxStorageBytes : Nat := 64 * 1024

def maxSearch : Nat := 4096

def fields : FilterKind → List String
  | .instances =>
    ["definitionId", "definitionVersion", "currentStepId", "stepStartedBefore", "businessKey",
      "status", "from", "to"]
  | .incidents => ["definitionId", "jobType", "from", "to"]

def knownStatuses : List String :=
  ["ACTIVE", "WAITING", "FAILED", "COMPLETED", "CANCELLED"]

/-- The version of a definition is rewritten as a number. -/
def normalizeVersion (source : List (String × String)) :
    Except String (List (String × String)) :=
  if hasName source "definitionVersion" then
    let refused := .error "Definition version requires a Definition ID and a positive integer."
    match digits (valueOrEmpty source "definitionVersion") with
    | none => refused
    | some version =>
      if version < 1 ∨ 2147483647 < version ∨ valueOrEmpty source "definitionId" = "" then refused
      else .ok (setValue "definitionVersion" version.repr source)
  else .ok source

/-- The fields of the list in their order, empty ones left out. -/
def keptFields (kind : FilterKind) (source : List (String × String)) (statuses : List String) :
    List (String × String) :=
  (fields kind).flatMap fun field =>
    if field = "status" then statuses.map fun status => (field, status)
    else ((truthy (getFirst source field)).map fun value => (field, value)).toList

/-- The checks on a parsed query, and the query that is kept. -/
def normalizeQuery (kind : FilterKind) (source : List (String × String)) :
    Except String (List (String × String)) :=
  if source.any fun p => !(fields kind).contains p.1 ||
      (!(p.1 == "status") && decide (1 < (getAll source p.1).length)) then
    .error "Unsupported or repeated filter field."
  else
    match timeRangeError (valueOrEmpty source "from") (valueOrEmpty source "to") with
    | some error => .error error
    | none => do
      let source ← normalizeVersion source
      if hasName source "currentStepId" ∧
          (valueOrEmpty source "currentStepId" = "" ∨ valueOrEmpty source "definitionId" = "") then
        .error "Current Step ID requires a Definition ID."
      else if hasName source "stepStartedBefore" ∧
          (valueOrEmpty source "currentStepId" = "" ∨
            valueOrEmpty source "stepStartedBefore" = "" ∨
            (timeRangeError (valueOrEmpty source "stepStartedBefore") "").isSome) then
        .error "Step cutoff requires a Current Step ID and a valid UTC time."
      else
        let statuses := sortedKeys (getAll source "status").eraseDups
        if statuses.any fun status => !knownStatuses.contains status then
          .error "Unknown instance status."
        else .ok (keptFields kind source statuses)

def normalizeFilterSearch (kind : FilterKind) (search : String) : Except String String :=
  if maxSearch < Modeller.utf16Length search then .error "Filter URL exceeds 4,096 characters."
  else do
    let source := deleteName (deleteName (searchParams search) "cursor") "pageSize"
    let result ← normalizeQuery kind source
    .ok (UrlEncoded.serialize result)

/-! ## Views -/

structure SavedFilter where
  id : String
  name : String
  search : String
  deriving DecidableEq, Inhabited, Repr

def SavedFilter.json (view : SavedFilter) : Json :=
  .obj [("id", .str view.id), ("name", .str view.name), ("search", .str view.search)]

/-- A member that is a string. -/
def stringMember (item : Json) (name : String) : Option String :=
  match item with
  | .obj members =>
    match Modeller.prop members name with
    | some (.str s) => some s
    | _ => none
  | _ => none

section

variable (toLowerCase : String → String)

/-- The loop over the views, with the identifiers and names seen before. -/
def validateItems (kind : FilterKind) (ids names : List String) :
    List Json → Except String (List SavedFilter)
  | [] => .ok []
  | item :: items =>
    let refused :=
      .error "Saved filters need unique names (1–80 characters); at most 20 per list."
    match stringMember item "id", stringMember item "name", stringMember item "search" with
    | some id, some name, some search =>
      if id = "" ∨ 100 < Modeller.utf16Length id ∨ Modeller.blank name ∨
          80 < Modeller.utf16Length name ∨ id ∈ ids ∨
          toLowerCase (Modeller.trim name) ∈ names then refused
      else do
        let search ← normalizeFilterSearch kind search
        let views ← validateItems kind (id :: ids) (toLowerCase (Modeller.trim name) :: names) items
        .ok ({ id := id, name := Modeller.trim name, search := search } :: views)
    | _, _, _ => refused

def validateViews (kind : FilterKind) (value : Option Json) : Except String (List SavedFilter) :=
  match value with
  | some (.arr items) =>
    if maxFilters < items.length then .error "Save at most 20 filters per list."
    else validateItems toLowerCase kind [] [] items
  | _ => .error "Invalid saved-filter data. Clear saved filters to reset."

/-! ## The storage -/

/-- A text of `localStorage` and what `JSON.parse` reads in it, if it is JSON. -/
structure StoredText where
  text : String
  parsed : Option Json
  deriving Inhabited

/-- One character of a JSON string. -/
def jsonChar (c : Char) : List Char :=
  if c = '"' then ['\\', '"']
  else if c = '\\' then ['\\', '\\']
  else if c = '\x08' then ['\\', 'b']
  else if c = '\t' then ['\\', 't']
  else if c = '\n' then ['\\', 'n']
  else if c = '\x0c' then ['\\', 'f']
  else if c = '\r' then ['\\', 'r']
  else if c.toNat < 0x20 then
    ['\\', 'u', '0', '0', Nat.digitChar (c.toNat / 16), Nat.digitChar (c.toNat % 16)]
  else [c]

def jsonString (s : String) : String :=
  String.ofList ('"' :: s.toList.flatMap jsonChar ++ ['"'])

def SavedFilter.text (view : SavedFilter) : String :=
  "\x7b\"id\":" ++ jsonString view.id ++ ",\"name\":" ++ jsonString view.name ++ ",\"search\":" ++
    jsonString view.search ++ "\x7d"

/-- `JSON.stringify({ version: 1, views })`. -/
def stringify (views : List SavedFilter) : StoredText :=
  { text :=
      "\x7b\"version\":1,\"views\":[" ++ ",".intercalate (views.map SavedFilter.text) ++ "]\x7d"
    parsed :=
      some (.obj [("version", .num 1 true), ("views", .arr (views.map SavedFilter.json))]) }

/-- `new TextEncoder().encode(raw).length`. -/
def byteLength (raw : StoredText) : Nat :=
  (UrlEncoded.utf8 raw.text.toList).length

def savedFilterKey : FilterKind → String
  | .instances => "rochallor.monitor.savedFilters.instances"
  | .incidents => "rochallor.monitor.savedFilters.incidents"

/-- `parsed.version !== 1`. -/
def versionOne (parsed : Json) : Bool :=
  match parsed with
  | .obj members =>
    match Modeller.prop members "version" with
    | some (.num q _) => decide (q = 1)
    | _ => false
  | _ => false

/-- `parsed.views`. -/
def viewsOf (parsed : Json) : Option Json :=
  match parsed with
  | .obj members => Modeller.prop members "views"
  | _ => none

def loadSavedFilters (kind : FilterKind) (localStorage : GoMap StoredText) :
    Except String (List SavedFilter) :=
  match GoMap.get localStorage (savedFilterKey kind) with
  | none => .ok []
  | some raw =>
    if maxStorageBytes < byteLength raw then
      .error "Saved filters exceed the 64 KiB storage limit. Clear saved filters to reset."
    else
      match raw.parsed with
      | none => .error "Invalid saved-filter data. Clear saved filters to reset."
      | some parsed =>
        if versionOne parsed then validateViews toLowerCase kind (viewsOf parsed)
        else .error "Unsupported saved-filter version. Clear saved filters to reset."

/-- Returns what it has stored and the storage. -/
def storeSavedFilters (kind : FilterKind) (views : List SavedFilter)
    (localStorage : GoMap StoredText) :
    Except String (List SavedFilter × GoMap StoredText) := do
  let valid ← validateViews toLowerCase kind (some (.arr (views.map SavedFilter.json)))
  let raw := stringify valid
  if maxStorageBytes < byteLength raw then
    .error "Saved filters exceed the 64 KiB storage limit."
  else .ok (valid, GoMap.set localStorage (savedFilterKey kind) raw)

end

end Rochallor.Monitor
