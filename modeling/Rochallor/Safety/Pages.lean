import Rochallor.Monitor.Incidents

/-! # The pages of the monitor

    Following `nextCursor` through one of the three lists.  The cursor holds
    whole milliseconds and the column microseconds, so the rows of a page
    boundary that share a millisecond decide whether a list is complete.
-/

namespace Rochallor.Monitor

/-! ## Cursors of rows -/

/-- The cursor of a row with this time and id can be read. -/
def Readable (time : Int) (id : String) : Prop :=
  fourDigitYear (toDate time) = true ∧ id ≠ ""

/-- What the cursor of a row stands for: the time cut to milliseconds. -/
def cutKey (time : Int) (id : String) : Key :=
  toLex (toDate time * 1000, id)

theorem cutKey_le (time : Int) (id : String) : cutKey time id ≤ toLex (time, id) :=
  key_le (toDate_le time) id

theorem toISOString_of_readable {time : Int} {id : String} (h : Readable time id) :
    toISOString (toDate time) = .utc (toDate time * 1000) :=
  if_pos h.1

theorem rowParameters_of_readable {time : Int} {id : String} (h : Readable time id) :
    rowParameters (toISOString (toDate time)) id = .ok (cutKey time id) := by
  rw [toISOString_of_readable h]
  rfl

theorem isUtcTimestamp_of_readable {time : Int} {id : String} (h : Readable time id) :
    isUtcTimestamp (toISOString (toDate time)) = true := by
  rw [toISOString_of_readable h]
  rfl

/-- A row whose cursor cannot be read has no id or a time of another year. -/
theorem unreadable_cases {time : Int} {id : String} (h : ¬ Readable time id) :
    id.isEmpty = true ∨ toISOString (toDate time) = .unreadable := by
  unfold Readable at h
  by_cases hid : id = ""
  · exact .inl (by simp [hid])
  · exact .inr (if_neg fun hyear => h ⟨hyear, hid⟩)

/-- PostgreSQL does not read the text of such a time. -/
theorem rowParameters_unreadable {time : Int} (h : toISOString (toDate time) = .unreadable)
    (id : String) : ∃ e, rowParameters (toISOString (toDate time)) id = .error e :=
  ⟨_, by rw [h]; rfl⟩

/-! ## The cursors of the three lists -/

section Cursors

theorem cursorKey_read (filters : ProcessInstanceFilters) {a : WorkflowInstanceRow}
    (h : Readable a.startedAt a.id) :
    cursorKey filters (encodeCursor a.item filters) = .ok (cutKey a.startedAt a.id) := by
  have hdecode : decodeCursor (encodeCursor a.item filters) filters =
      .ok (encodeCursor a.item filters) := by
    refine if_neg ?_
    simp [encodeCursor, WorkflowInstanceRow.item, h.2]
  rw [cursorKey, hdecode]
  exact rowParameters_of_readable h

theorem cursorKey_refused (filters : ProcessInstanceFilters) {a : WorkflowInstanceRow}
    (h : ¬ Readable a.startedAt a.id) :
    ∃ e, cursorKey filters (encodeCursor a.item filters) = .error e := by
  unfold cursorKey decodeCursor
  split
  · exact ⟨_, rfl⟩
  · rename_i hcursor
    rcases unreadable_cases h with hid | htime
    · exact absurd (.inr (.inl hid)) hcursor
    · exact rowParameters_unreadable htime a.id

theorem stepExecutionCursorKey_read {instanceId : String} {a : StepExecutionRow}
    (h : Readable a.startedAt a.id) :
    stepExecutionCursorKey instanceId (encodeStepExecutionCursor a.item instanceId) =
      .ok (cutKey a.startedAt a.id) := by
  have htime := isUtcTimestamp_of_readable h
  have hdecode : decodeStepExecutionCursor (encodeStepExecutionCursor a.item instanceId)
      instanceId = .ok (encodeStepExecutionCursor a.item instanceId) := by
    refine if_neg ?_
    simp [encodeStepExecutionCursor, StepExecutionRow.item, h.2, htime]
  rw [stepExecutionCursorKey, hdecode]
  exact rowParameters_of_readable h

theorem stepExecutionCursorKey_refused {instanceId : String} {a : StepExecutionRow}
    (h : ¬ Readable a.startedAt a.id) :
    ∃ e, stepExecutionCursorKey instanceId (encodeStepExecutionCursor a.item instanceId) =
      .error e := by
  unfold stepExecutionCursorKey decodeStepExecutionCursor
  split
  · exact ⟨_, rfl⟩
  · rename_i hcursor
    rcases unreadable_cases h with hid | htime
    · exact absurd (.inr (.inr (.inl hid))) hcursor
    · exact rowParameters_unreadable htime a.id

theorem incidentCursorKey_read {filters : IncidentFilters} {a : IncidentRow}
    (h : Readable a.occurredAt a.execution.id) :
    incidentCursorKey filters (encodeIncidentCursor (mapListItem a) filters) =
      .ok (cutKey a.occurredAt a.execution.id) := by
  have htime := isUtcTimestamp_of_readable h
  have hdecode : decodeIncidentCursor (encodeIncidentCursor (mapListItem a) filters) filters =
      .ok (encodeIncidentCursor (mapListItem a) filters) := by
    refine if_neg ?_
    simp [encodeIncidentCursor, mapListItem, h.2, htime]
  rw [incidentCursorKey, hdecode]
  exact rowParameters_of_readable h

theorem incidentCursorKey_refused {filters : IncidentFilters} {a : IncidentRow}
    (h : ¬ Readable a.occurredAt a.execution.id) :
    ∃ e, incidentCursorKey filters (encodeIncidentCursor (mapListItem a) filters) = .error e := by
  unfold incidentCursorKey decodeIncidentCursor
  split
  · exact ⟨_, rfl⟩
  · rename_i hcursor
    rcases unreadable_cases h with hid | htime
    · exact absurd (.inr (.inr (.inl hid))) hcursor
    · exact rowParameters_unreadable htime a.execution.id

end Cursors

/-! ## The three lists -/

section Lists

variable (db : Content)

/-- The instances that match, in the order of the list. -/
def matchingInstances (filters : ProcessInstanceFilters) : List WorkflowInstanceRow :=
  Keyset.newestFirst (·.key) (db.instances.filter (filters.selects db))

/-- The executions of the instance, in the order of the list. -/
def matchingExecutions (instanceId : String) : List StepExecutionRow :=
  Keyset.newestFirst (·.key) (db.executions.filter fun row => row.instanceId == instanceId)

/-- The incidents that match, in the order of the list. -/
def matchingIncidents (filters : IncidentFilters) : List IncidentRow :=
  Keyset.newestFirst (·.key) (db.incidentRows.filter filters.selects)

variable {db} {limit : Nat}

theorem list_lists {query : ProcessInstanceQuery}
    (hvalid : validateFilters query.toProcessInstanceFilters = .ok ())
    (hsize : pageSize query.pageSize = .ok limit) :
    Keyset.Lists (fun cursor => list db { query with cursor := cursor }) limit (·.item)
      (fun r => encodeCursor r.item query.toProcessInstanceFilters)
      (fun r => Readable r.startedAt r.id) (·.key) (fun r => cutKey r.startedAt r.id)
      (matchingInstances db query.toProcessInstanceFilters) := by
  have hfetch : (fun cursor => list db { query with cursor := cursor }) =
      fetchPage (·.key) (·.item) (encodeCursor · query.toProcessInstanceFilters)
        (cursorKey query.toProcessInstanceFilters) db.instances
        (query.toProcessInstanceFilters.selects db) limit := by
    funext cursor
    simp only [list, hvalid, hsize, bind, Except.bind]
  rw [hfetch]
  exact fetchPage_lists (keys_nodup db.instance_ids) (pageSize_pos hsize) _
    (fun a => cutKey_le a.startedAt a.id) (fun _ => cursorKey_read _) (fun _ => cursorKey_refused _)

theorem listStepExecutions_lists {query : StepExecutionQuery} (instanceId : String)
    (hsize : pageSize query.pageSize = .ok limit) :
    Keyset.Lists (fun cursor => listStepExecutions db instanceId { query with cursor := cursor })
      limit (·.item) (fun r => encodeStepExecutionCursor r.item instanceId)
      (fun r => Readable r.startedAt r.id) (·.key) (fun r => cutKey r.startedAt r.id)
      (matchingExecutions db instanceId) := by
  have hfetch : (fun cursor => listStepExecutions db instanceId { query with cursor := cursor }) =
      fetchPage (·.key) (·.item) (encodeStepExecutionCursor · instanceId)
        (stepExecutionCursorKey instanceId) db.executions
        (fun row => row.instanceId == instanceId) limit := by
    funext cursor
    simp only [listStepExecutions, hsize, bind, Except.bind]
  rw [hfetch]
  exact fetchPage_lists (keys_nodup db.execution_ids) (pageSize_pos hsize) _
    (fun a => cutKey_le a.startedAt a.id) (fun _ => stepExecutionCursorKey_read)
    (fun _ => stepExecutionCursorKey_refused)

theorem incidentRow_execution {e : StepExecutionRow} {row : IncidentRow}
    (h : incidentRow db e = some row) : row.execution = e := by
  simp only [incidentRow, Option.bind_eq_bind, Option.bind_eq_some_iff] at h
  obtain ⟨_, _, _, _, _, _, _, _, hrow⟩ := h
  cases hrow
  rfl

/-- Every execution gives at most one row. -/
theorem incidentRows_ids : (db.incidentRows.map (·.execution.id)).Nodup := by
  have hsublist : ∀ executions : List StepExecutionRow,
      ((executions.filterMap (incidentRow db)).map (·.execution.id)).Sublist
        (executions.map (·.id)) := by
    intro executions
    induction executions with
    | nil => exact .slnil
    | cons e rest ih =>
      rw [List.filterMap_cons]
      split
      · exact ih.cons _
      · rename_i row hrow
        rw [List.map_cons, List.map_cons, incidentRow_execution hrow]
        exact ih.cons_cons _
  exact db.execution_ids.sublist (hsublist db.executions)

theorem listIncidents_lists {query : IncidentQuery}
    (hvalid : validateIncidentFilters query.toIncidentFilters = .ok ())
    (hsize : pageSize query.pageSize = .ok limit) :
    Keyset.Lists (fun cursor => listIncidents db { query with cursor := cursor }) limit
      mapListItem (fun r => encodeIncidentCursor (mapListItem r) query.toIncidentFilters)
      (fun r => Readable r.occurredAt r.execution.id) (·.key)
      (fun r => cutKey r.occurredAt r.execution.id)
      (matchingIncidents db query.toIncidentFilters) := by
  have hfetch : (fun cursor => listIncidents db { query with cursor := cursor }) =
      fetchPage (·.key) mapListItem (encodeIncidentCursor · query.toIncidentFilters)
        (incidentCursorKey query.toIncidentFilters) db.incidentRows
        query.toIncidentFilters.selects limit := by
    funext cursor
    simp only [listIncidents, hvalid, hsize, bind, Except.bind]
  rw [hfetch]
  exact fetchPage_lists (keys_nodup incidentRows_ids) (pageSize_pos hsize) _
    (fun a => cutKey_le a.occurredAt a.execution.id) (fun _ => incidentCursorKey_read)
    (fun _ => incidentCursorKey_refused)

end Lists

/-! ## Complete lists -/

/-- No page boundary of the rows loses any: where another row follows a full
    page, the cursor of its last row can be read and that row is below it. -/
abbrev Seamless {α : Type} (limit : Nat) (time : α → Int) (id : α → String) (rows : List α) :
    Prop :=
  Keyset.Seamless limit (fun r => Readable (time r) (id r)) (fun r => (toLex (time r, id r) : Key))
    (fun r => cutKey (time r) (id r)) rows

/-- Following `nextCursor` from the first page until it is null returns every
    matching row once and in order, in each of the three lists, if and only if
    no page boundary loses any. -/
theorem monitor_pages_complete_iff (db : Content) :
    (∀ (query : ProcessInstanceQuery) (limit : Nat),
      validateFilters query.toProcessInstanceFilters = .ok () →
      pageSize query.pageSize = .ok limit →
      (Keyset.Followed (fun cursor => list db { query with cursor := cursor }) none
          ((matchingInstances db query.toProcessInstanceFilters).map (·.item)) ↔
        Seamless limit (·.startedAt) (·.id)
          (matchingInstances db query.toProcessInstanceFilters))) ∧
    (∀ (instanceId : String) (query : StepExecutionQuery) (limit : Nat),
      pageSize query.pageSize = .ok limit →
      (Keyset.Followed (fun cursor => listStepExecutions db instanceId
          { query with cursor := cursor }) none
          ((matchingExecutions db instanceId).map (·.item)) ↔
        Seamless limit (·.startedAt) (·.id) (matchingExecutions db instanceId))) ∧
    (∀ (query : IncidentQuery) (limit : Nat),
      validateIncidentFilters query.toIncidentFilters = .ok () →
      pageSize query.pageSize = .ok limit →
      (Keyset.Followed (fun cursor => listIncidents db { query with cursor := cursor }) none
          ((matchingIncidents db query.toIncidentFilters).map mapListItem) ↔
        Seamless limit (·.occurredAt) (·.execution.id)
          (matchingIncidents db query.toIncidentFilters))) :=
  ⟨fun _ _ hvalid hsize => (list_lists hvalid hsize).followed_iff,
    fun instanceId _ _ hsize => (listStepExecutions_lists instanceId hsize).followed_iff,
    fun _ _ hvalid hsize => (listIncidents_lists hvalid hsize).followed_iff⟩

/-! Two instances are started within one millisecond. -/

def order (id : String) (startedAt : Int) : WorkflowInstanceRow where
  id := id
  definitionId := "order"
  definitionVersion := 1
  status := "ACTIVE"
  currentStepIds := ["ship"]
  startedAt := startedAt
  completedAt := none
  failureReason := none
  businessKey := none

/-- The two orders, started at these times, and nothing else. -/
def orders (first second : Int) : Content where
  instances := [order "01A" first, order "01B" second]
  executions := []
  definitions := []
  jobs := []
  instance_ids := by simp [order]
  execution_ids := by simp
  definition_keys := by simp
  job_ids := by simp
  ended := by simp

/-- A page of one row. -/
def oneByOne : ProcessInstanceQuery where
  pageSize := some (some 1)

/-- Orders a millisecond apart are both listed. -/
theorem monitor_pages_complete_iff_orders :
    Keyset.Followed (fun cursor => list (orders 1000 2500) { oneByOne with cursor := cursor })
      none ((matchingInstances (orders 1000 2500) oneByOne.toProcessInstanceFilters).map
        (·.item)) := by
  refine ((monitor_pages_complete_iff (orders 1000 2500)).1 oneByOne 1 rfl rfl).mpr ?_
  have hrows : matchingInstances (orders 1000 2500) oneByOne.toProcessInstanceFilters =
    [order "01B" 2500, order "01A" 1000] := rfl
  rw [hrows]
  intro k a b hk ha hb
  -- the one boundary is after the first row
  have hlt := (List.getElem?_eq_some_iff.mp hb).1
  obtain rfl : k = 1 := by
    simp only [List.length_cons, List.length_nil] at hlt
    omega
  cases ha
  cases hb
  exact ⟨⟨by decide, by decide⟩, by decide⟩

/-- Of two orders started in one millisecond, one a page, the first page holds
    the later order, and the second, which is the last, holds none. -/
theorem order_on_no_page :
    (matchingInstances (orders 1500 1700) oneByOne.toProcessInstanceFilters).map (·.id) =
      ["01B", "01A"] ∧
    Keyset.Followed (fun cursor => list (orders 1500 1700) { oneByOne with cursor := cursor })
      none [(order "01B" 1700).item] ∧
    ¬ Keyset.Followed (fun cursor => list (orders 1500 1700) { oneByOne with cursor := cursor })
      none ((matchingInstances (orders 1500 1700) oneByOne.toProcessInstanceFilters).map
        (·.item)) := by
  have hfirst : list (orders 1500 1700) { oneByOne with cursor := none } =
    .ok ([(order "01B" 1700).item],
      some (encodeCursor (order "01B" 1700).item oneByOne.toProcessInstanceFilters)) := rfl
  have hsecond : list (orders 1500 1700) { oneByOne with
      cursor := some (encodeCursor (order "01B" 1700).item oneByOne.toProcessInstanceFilters) } =
    .ok ([], none) := rfl
  have hfollowed : Keyset.Followed (fun cursor => list (orders 1500 1700)
      { oneByOne with cursor := cursor }) none ([(order "01B" 1700).item] ++ []) :=
    .next hfirst (.last hsecond)
  refine ⟨rfl, hfollowed, ?_⟩
  rw [(list_lists rfl rfl).followed_iff]
  intro h
  have hseam := h 1 (order "01B" 1700) (order "01A" 1500) Nat.one_pos rfl rfl
  exact absurd hseam.2 (by decide)

end Rochallor.Monitor
