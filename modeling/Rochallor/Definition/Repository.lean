import Rochallor.Definition.RoundTrip
import Rochallor.Framework.Table

/-! # The definition store

    `internal/storage/postgres/definition_store.go`.  `raw_json` is a `JSONB`
    column, so what `GetLatest` and `GetVersion` read back is the stored form
    of what was uploaded.  Rows are never changed or deleted.
-/

namespace Rochallor

/-- A row of `workflow_definition`. -/
structure DefinitionRow where
  id : String
  version : Int
  name : String
  rawJson : Json

/-- What `Upload` answers. -/
structure Summary where
  id : String
  version : Int
  name : String
  deriving DecidableEq, Repr

/-- The table.  Its unique index is on id and version, and every row holds the
    column form of a definition under that definition's id. -/
structure DefinitionStore where
  rows : List DefinitionRow
  unique : (rows.map fun r => (r.id, r.version)).Nodup
  holds : ∀ r ∈ rows, ∃ d : WorkflowDefinition, d.InRange ∧ d.id = r.id ∧
    r.rawJson = d.marshal.jsonb

namespace DefinitionStore

/-- The table before any upload. -/
def empty : DefinitionStore := ⟨[], by simp, by simp⟩

/-- `ORDER BY version DESC LIMIT 1`. -/
def newest (rows : List DefinitionRow) : Option DefinitionRow :=
  Table.latest (·.version) rows

/-- `COALESCE(MAX(version), 0)` over the rows of the id. -/
def maxVersion (store : DefinitionStore) (id : String) : Int :=
  ((newest (store.rows.filter fun r => r.id == id)).map (·.version)).getD 0

theorem le_maxVersion (store : DefinitionStore) {r : DefinitionRow} (hr : r ∈ store.rows) :
    r.version ≤ store.maxVersion r.id := by
  have hmem : r ∈ store.rows.filter fun x => x.id == r.id := by simp [hr]
  unfold maxVersion
  cases hn : newest (store.rows.filter fun x => x.id == r.id) with
  | none =>
    have hnil := Table.latest_eq_none.mp hn
    rw [hnil] at hmem
    cases hmem
  | some b => exact Table.le_latest hn hmem

/-- The table with one more version of the definition. -/
def insert (store : DefinitionStore) (d : WorkflowDefinition) (hd : d.InRange) :
    DefinitionStore where
  rows := store.rows ++ [⟨d.id, store.maxVersion d.id + 1, d.name, d.marshal.jsonb⟩]
  unique := by
    rw [List.map_append, List.nodup_append]
    refine ⟨store.unique, by simp, ?_⟩
    intro a ha b hb
    obtain ⟨r, hr, rfl⟩ := List.mem_map.mp ha
    obtain rfl := List.mem_singleton.mp hb
    intro heq
    obtain ⟨hid, hv⟩ := Prod.mk.inj heq
    have hle := store.le_maxVersion hr
    simp only [hid, hv] at hle
    omega
  holds := by
    intro r hr
    rcases List.mem_append.mp hr with hr | hr
    · exact store.holds r hr
    · obtain rfl := List.mem_singleton.mp hr
      exact ⟨d, hd, rfl, rfl⟩

/-- `Upload`.  A definition that is already stored gets no new version. -/
def upload (store : DefinitionStore) (d : WorkflowDefinition) (hd : d.InRange) :
    Except String (Summary × DefinitionStore) :=
  if d.marshal.hasNul then
    .error "upload: check idempotent: unsupported Unicode escape sequence"
  else
    match newest (store.rows.filter fun r => r.id == d.id && r.rawJson.same d.marshal.jsonb) with
    | some r => .ok (⟨d.id, r.version, d.name⟩, store)
    | none =>
      -- the column is a 32-bit INT
      if 2 ^ 31 ≤ store.maxVersion d.id + 1 then .error "upload: insert: integer out of range"
      else .ok (⟨d.id, store.maxVersion d.id + 1, d.name⟩, store.insert d hd)

/-- `scanDefinitionWithVersion`. -/
def scanDefinitionWithVersion : Option DefinitionRow → Except String WorkflowDefinition
  | none => .error "definition not found"
  | some r =>
    match decodeDefinition false r.rawJson with
    | .error e => .error ("unmarshal definition: " ++ e)
    | .ok d => .ok { d with version := r.version }

/-- `GetLatest`. -/
def getLatest (store : DefinitionStore) (id : String) : Except String WorkflowDefinition :=
  scanDefinitionWithVersion (newest (store.rows.filter fun r => r.id == id))

/-- `GetVersion`. -/
def getVersion (store : DefinitionStore) (id : String) (version : Int) :
    Except String WorkflowDefinition :=
  scanDefinitionWithVersion (store.rows.find? fun r => r.id == id && r.version == version)

/-! ## What is read back -/

theorem getVersion_of_mem (store : DefinitionStore) {r : DefinitionRow} (hr : r ∈ store.rows) :
    store.getVersion r.id r.version = scanDefinitionWithVersion (some r) := by
  unfold getVersion
  cases hfind : store.rows.find? fun x => x.id == r.id && x.version == r.version with
  | none =>
    have := List.find?_eq_none.mp hfind r hr
    simp at this
  | some x =>
    have hx := List.mem_of_find?_eq_some hfind
    have hkey : (x.id, x.version) = (r.id, r.version) := by
      simpa using List.find?_some hfind
    rw [Table.eq_of_key store.unique hx hr hkey]

theorem scan_ok {r : DefinitionRow} {d : WorkflowDefinition} (hd : d.InRange)
    (hraw : r.rawJson = d.marshal.jsonb) :
    scanDefinitionWithVersion (some r) = .ok { d.stored with version := r.version } := by
  simp only [scanDefinitionWithVersion, hraw, decode_definition hd]

/-- Reading a row back gives the stored form of what was uploaded. -/
theorem getVersion_upload {store store' : DefinitionStore} {d : WorkflowDefinition}
    {hd : d.InRange} {sum : Summary} (h : store.upload d hd = .ok (sum, store')) :
    store'.getVersion d.id sum.version = .ok { d.stored with version := sum.version } := by
  unfold upload at h
  split at h
  · cases h
  · split at h
    · rename_i r hnewest
      cases h
      -- the row found has the same column form
      have hr := List.mem_filter.mp (Table.latest_mem hnewest)
      obtain ⟨hmem, hsame⟩ := hr
      rw [Bool.and_eq_true, beq_iff_eq] at hsame
      rw [← hsame.1, store.getVersion_of_mem hmem]
      exact scan_ok hd (Json.eq_of_same hsame.2)
    · split at h
      · cases h
      · cases h
        have hmem : (⟨d.id, store.maxVersion d.id + 1, d.name, d.marshal.jsonb⟩ : DefinitionRow) ∈
            (store.insert d hd).rows := by
          simp [insert]
        rw [(store.insert d hd).getVersion_of_mem hmem]
        exact scan_ok hd rfl

end DefinitionStore

end Rochallor
