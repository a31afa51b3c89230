import Rochallor.Monitor.Overview
import Rochallor.Safety.Pages

/-! # The overview and its drill-down

    The overview counts the aged instances of a step against the cutoff of the
    database; the list of those instances is asked for with the cutoff that the
    overview returned, which is a `Date`.
-/

namespace Rochallor.Monitor

/-- The list of the aged instances of a step that the overview returned. -/
def drillDown (answer : StepsAnswer) (stepId : String) : ProcessInstanceFilters where
  definitionId := some answer.definitionId
  definitionVersion := some answer.definitionVersion.repr
  currentStepId := some stepId
  stepStartedBefore := some (toISOString answer.stepStartedBefore)

/-! ## What an answer holds -/

/-- The parameters the answer was computed from. -/
structure Answered (db : Content) (now : Int) (answer : StepsAnswer) (afterStep : String) :
    Prop where
  definitionId : answer.definitionId ≠ ""
  version : 1 ≤ answer.definitionVersion ∧ answer.definitionVersion ≤ 2147483647
  cutoff : answer.stepStartedBefore = toDate (cutoffOf now answer.minStepAgeSeconds)
  items : ∀ row ∈ answer.items,
    row.stepId ∈ (db.currentSteps answer.definitionId answer.definitionVersion afterStep).map
      (·.stepId) ∧
    row = stepCount (db.currentSteps answer.definitionId answer.definitionVersion afterStep)
      (cutoffOf now answer.minStepAgeSeconds) row.stepId

theorem truthy_eq_some {value : Option String} {s : String} (h : truthy value = some s) :
    value = some s ∧ s ≠ "" := by
  unfold truthy at h
  split at h
  · split at h
    · cases h
    · rename_i hs
      cases h
      exact ⟨rfl, by simpa using hs⟩
  · cases h

theorem positiveInteger_ok {value : Option String} {fallback maximum n : Nat} {name : String}
    (h : positiveInteger value fallback maximum name = .ok n) : 1 ≤ n ∧ n ≤ maximum := by
  unfold positiveInteger at h
  split at h
  · split at h
    · rename_i hn
      cases h
      exact hn
    · cases h
  · cases h

theorem steps_answered {db : Content} {now : Int} {query : OverviewQuery} {answer : StepsAnswer}
    (h : steps db now query = .ok answer) : ∃ afterStep, Answered db now answer afterStep := by
  unfold steps at h
  split at h
  · rename_i definitionId definitionVersion hid _
    obtain ⟨version, hversion, h⟩ := bind_eq_ok h
    obtain ⟨age, _, h⟩ := bind_eq_ok h
    obtain ⟨limit, _, h⟩ := bind_eq_ok h
    obtain ⟨afterStep, _, h⟩ := bind_eq_ok h
    cases h
    refine ⟨afterStep, (truthy_eq_some hid).2, positiveInteger_ok hversion, rfl, ?_⟩
    intro row hrow
    obtain ⟨stepId, hstep, rfl⟩ := List.mem_map.mp (List.mem_of_mem_take hrow)
    refine ⟨?_, rfl⟩
    have := List.mem_of_mem_take hstep
    exact List.mem_dedup.mp ((List.mem_insertionSort _).mp this)
  · cases h

/-! ## Counting instances -/

section Counting

variable {db : Content} {definitionId afterStep stepId : String} {version : Nat} {cutoff : Int}

/-- The instance stands on the step under this version of the definition. -/
def standsOn (definitionId : String) (version : Nat) (stepId : String)
    (row : WorkflowInstanceRow) : Bool :=
  row.current definitionId version && row.currentStepIds.contains stepId

theorem aged_eq (db : Content) (row : WorkflowInstanceRow) (stepId : String) (cutoff : Int) :
    CurrentStep.aged cutoff ⟨row.id, stepId, db.latestExecution row.id stepId⟩ =
      runningBefore db row.id stepId cutoff := by
  unfold CurrentStep.aged runningBefore
  cases db.latestExecution row.id stepId <;> rfl

/-- The number of distinct instances among the rows of a step is the number of
    instances. -/
theorem stepCount_aged (hstep : stepId ∈ (db.currentSteps definitionId version afterStep).map
      (·.stepId)) :
    (stepCount (db.currentSteps definitionId version afterStep) cutoff stepId).aged =
      (db.instances.filter fun row => standsOn definitionId version stepId row &&
        runningBefore db row.id stepId cutoff).length := by
  -- the step is one of those the page begins after
  have hafter : (afterStep.isEmpty || decide (afterStep < stepId)) = true := by
    obtain ⟨row, hrow, rfl⟩ := List.mem_map.mp hstep
    obtain ⟨i, _, hrow⟩ := List.mem_flatMap.mp hrow
    obtain ⟨s, hs, rfl⟩ := List.mem_map.mp hrow
    exact (List.mem_filter.mp hs).2
  have hnd : ((db.instances.filter fun row => standsOn definitionId version stepId row &&
      runningBefore db row.id stepId cutoff).map (·.id)).Nodup :=
    db.instance_ids.sublist (List.filter_sublist.map _)
  show (((((db.currentSteps definitionId version afterStep).filter fun row =>
    row.stepId == stepId).filter (·.aged cutoff)).map (·.instanceId)).dedup).length = _
  refine (List.Perm.length_eq ?_).trans (List.length_map WorkflowInstanceRow.id)
  refine (List.perm_ext_iff_of_nodup (List.nodup_dedup _) hnd).mpr fun id => ?_
  rw [List.mem_dedup]
  simp only [List.mem_map, List.mem_filter, Content.currentSteps, List.mem_flatMap]
  constructor
  · rintro ⟨row, ⟨⟨⟨i, ⟨hi, hcurrent⟩, s, ⟨hs, _⟩, rfl⟩, hid⟩, haged⟩, rfl⟩
    obtain rfl : s = stepId := by simpa using hid
    refine ⟨i, ⟨hi, ?_⟩, rfl⟩
    rw [← aged_eq, standsOn, hcurrent, haged]
    simpa using hs
  · rintro ⟨i, ⟨hi, hsel⟩, rfl⟩
    rw [Bool.and_eq_true, standsOn, Bool.and_eq_true, ← aged_eq] at hsel
    exact ⟨_, ⟨⟨⟨i, ⟨hi, hsel.1.1⟩, stepId, ⟨by simpa using hsel.1.2, hafter⟩, rfl⟩,
      beq_self_eq_true _⟩, hsel.2⟩, rfl⟩

end Counting

/-! ## What the list selects -/

section Selecting

variable {db : Content} {now : Int} {answer : StepsAnswer} {afterStep stepId : String}

/-- The filters of the drill-down are accepted unless the step has no name or
    the cutoff is of another year. -/
theorem validateFilters_drillDown (ha : Answered db now answer afterStep) :
    validateFilters (drillDown answer stepId) = .ok () ↔
      stepId ≠ "" ∧ fourDigitYear answer.stepStartedBefore = true := by
  have hid : truthy (some answer.definitionId) = some answer.definitionId :=
    if_neg (by simpa using ha.definitionId)
  have hversion : positiveVersion answer.definitionVersion.repr = true := by
    simp [positiveVersion, digits_repr, ha.version]
  by_cases hstep : stepId = ""
  · subst hstep
    simp [validateFilters, drillDown, hid, hversion, throw, throwThe, MonadExceptOf.throw,
      bind, Except.bind]
  · have hstep' : truthy (some stepId) = some stepId := if_neg (by simpa using hstep)
    by_cases hyear : fourDigitYear answer.stepStartedBefore = true
    · have hiso : isUtcTimestamp (toISOString answer.stepStartedBefore) = true := by
        simp [toISOString, hyear, isUtcTimestamp]
      simp [validateFilters, drillDown, hid, hversion, hstep, hstep', hiso, hyear, pure,
        Except.pure, validTimes, rangeIncreases]
    · have hiso : isUtcTimestamp (toISOString answer.stepStartedBefore) = false := by
        simp [toISOString, hyear, isUtcTimestamp]
      simp [validateFilters, drillDown, hid, hversion, hstep, hstep', hiso, hyear, throw, throwThe,
        MonadExceptOf.throw, bind, Except.bind]

theorem selects_drillDown (ha : Answered db now answer afterStep) (hstep : stepId ≠ "")
    (hyear : fourDigitYear answer.stepStartedBefore = true) (row : WorkflowInstanceRow) :
    (drillDown answer stepId).selects db row =
      (standsOn answer.definitionId answer.definitionVersion stepId row &&
        runningBefore db row.id stepId (answer.stepStartedBefore * 1000)) := by
  have hid : truthy (some answer.definitionId) = some answer.definitionId :=
    if_neg (by simpa using ha.definitionId)
  have hstep' : truthy (some stepId) = some stepId := if_neg (by simpa using hstep)
  have hrepr : truthy (some answer.definitionVersion.repr) = some answer.definitionVersion.repr :=
    if_neg (by simp)
  have hiso : toISOString answer.stepStartedBefore = .utc (answer.stepStartedBefore * 1000) :=
    if_pos hyear
  have hkey : truthy none = none := rfl
  simp only [ProcessInstanceFilters.selects, drillDown, hid, hstep', hrepr, hiso, hkey,
    digits_repr, Option.getD_some, List.isEmpty_nil, Bool.true_or, Bool.and_true,
    standsOn, WorkflowInstanceRow.current]
  ac_rfl

/-- An instance counted by the overview is left out by the list if its latest
    execution of the step started in the millisecond of the cutoff. -/
def NoneBetween (db : Content) (now : Int) (answer : StepsAnswer) (stepId : String) : Prop :=
  ∀ row ∈ db.instances,
    standsOn answer.definitionId answer.definitionVersion stepId row = true →
    ∀ execution, db.latestExecution row.id stepId = some execution →
      execution.status = "RUNNING" →
      execution.startedAt < cutoffOf now answer.minStepAgeSeconds →
      execution.startedAt < answer.stepStartedBefore * 1000

theorem runningBefore_iff {instanceId : String} {cutoff : Int} :
    runningBefore db instanceId stepId cutoff = true ↔
      ∃ e, db.latestExecution instanceId stepId = some e ∧ e.status = "RUNNING" ∧
        e.startedAt < cutoff := by
  unfold runningBefore
  cases db.latestExecution instanceId stepId <;> simp

/-- A stronger condition selects as many elements only if it is no stronger on
    them. -/
theorem filter_length_eq_iff {α : Type} {l : List α} {p q : α → Bool}
    (h : ∀ x ∈ l, p x = true → q x = true) :
    (l.filter p).length = (l.filter q).length ↔ ∀ x ∈ l, q x = true → p x = true := by
  constructor
  · intro hlen x hx hq
    have hpq : (l.filter q).filter p = l.filter p := by
      rw [List.filter_filter]
      refine List.filter_congr fun y hy => ?_
      by_cases hp : p y = true
      · simp [hp, h y hy hp]
      · simp [hp]
    have hall : (l.filter q).filter p = l.filter q :=
      List.filter_sublist.eq_of_length (hpq.symm ▸ hlen)
    exact List.filter_eq_self.mp hall x (List.mem_filter.mpr ⟨hx, hq⟩)
  · intro hall
    rw [List.filter_congr fun x hx => Bool.eq_iff_iff.mpr ⟨h x hx, hall x hx⟩]

/-- What the list selects the overview counts. -/
theorem selected_imp (ha : Answered db now answer afterStep) (stepId : String)
    (row : WorkflowInstanceRow) :
    (standsOn answer.definitionId answer.definitionVersion stepId row &&
      runningBefore db row.id stepId (answer.stepStartedBefore * 1000)) = true →
    (standsOn answer.definitionId answer.definitionVersion stepId row &&
      runningBefore db row.id stepId (cutoffOf now answer.minStepAgeSeconds)) = true := by
  have hcut : answer.stepStartedBefore * 1000 ≤ cutoffOf now answer.minStepAgeSeconds := by
    rw [ha.cutoff]
    exact toDate_le _
  intro h
  rw [Bool.and_eq_true, runningBefore_iff] at h ⊢
  obtain ⟨hstands, e, he, hrunning, hlt⟩ := h
  exact ⟨hstands, e, he, hrunning, hlt.trans_le hcut⟩

/-- The list selects as many instances as the overview counts if and only if it
    leaves none out. -/
theorem selected_length_iff (ha : Answered db now answer afterStep) :
    (db.instances.filter fun row =>
        standsOn answer.definitionId answer.definitionVersion stepId row &&
          runningBefore db row.id stepId (answer.stepStartedBefore * 1000)).length =
      (db.instances.filter fun row =>
        standsOn answer.definitionId answer.definitionVersion stepId row &&
          runningBefore db row.id stepId (cutoffOf now answer.minStepAgeSeconds)).length ↔
    NoneBetween db now answer stepId := by
  rw [filter_length_eq_iff fun row _ => selected_imp ha stepId row]
  refine forall₂_congr fun row _ => ?_
  rw [Bool.and_eq_true, Bool.and_eq_true, runningBefore_iff, runningBefore_iff]
  constructor
  · intro h hstands e he hrunning hlt
    obtain ⟨-, e', he', -, hlt'⟩ := h ⟨hstands, e, he, hrunning, hlt⟩
    rw [he] at he'
    cases he'
    exact hlt'
  · rintro h ⟨hstands, e, he, hrunning, hlt⟩
    exact ⟨hstands, e, he, hrunning, h hstands e he hrunning hlt⟩

end Selecting

/-! ## Agreement -/

/-- The list of the drill-down, for one page size. -/
def drillDownQuery (answer : StepsAnswer) (stepId : String) (size : Option JsNumber) :
    ProcessInstanceQuery :=
  { drillDown answer stepId with pageSize := size }

/-- The count of a step is the number of instances on the pages of its
    drill-down if and only if the step has a name, the cutoff has a four-digit
    year, no counted instance falls into the millisecond of the cutoff, and no
    page boundary loses any. -/
theorem overview_agrees_iff (db : Content) (now : Int) (query : OverviewQuery)
    (answer : StepsAnswer) (h : steps db now query = .ok answer) (row : StepCount)
    (hrow : row ∈ answer.items) (size : Option JsNumber) (limit : Nat)
    (hsize : pageSize size = .ok limit) :
    (∃ items, Keyset.Followed (fun cursor =>
        list db { drillDownQuery answer row.stepId size with cursor := cursor }) none items ∧
      row.aged = items.length) ↔
    row.stepId ≠ "" ∧ fourDigitYear answer.stepStartedBefore = true ∧
      NoneBetween db now answer row.stepId ∧
      Seamless limit (·.startedAt) (·.id)
        (matchingInstances db (drillDown answer row.stepId)) := by
  obtain ⟨afterStep, ha⟩ := steps_answered h
  obtain ⟨hstep, hcount⟩ := ha.items row hrow
  have haged : row.aged = _ := (congrArg StepCount.aged hcount).trans (stepCount_aged hstep)
  have hlength (hid : row.stepId ≠ "") (hyear : fourDigitYear answer.stepStartedBefore = true) :
      (matchingInstances db (drillDown answer row.stepId)).length =
        (db.instances.filter fun i =>
          standsOn answer.definitionId answer.definitionVersion row.stepId i &&
            runningBefore db i.id row.stepId (answer.stepStartedBefore * 1000)).length := by
    rw [matchingInstances, Keyset.newestFirst_perm.length_eq]
    exact congrArg _ (List.filter_congr fun i _ => selects_drillDown ha hid hyear i)
  constructor
  · rintro ⟨items, hf, hitems⟩
    -- the list was not refused
    obtain ⟨page, hpage⟩ := hf.fetched
    obtain ⟨_, hvalid, _⟩ := bind_eq_ok hpage
    obtain ⟨hid, hyear⟩ := (validateFilters_drillDown ha).mp hvalid
    have hlists := @list_lists db limit (drillDownQuery answer row.stepId size) hvalid hsize
    have hle : items.length ≤ (matchingInstances db (drillDown answer row.stepId)).length :=
      hlists.length_le hf (Keyset.Lists.left_all _) hlists.first
    have hselected := (List.monotone_filter_right db.instances
      (selected_imp ha row.stepId)).length_le
    rw [hlength hid hyear] at hle
    refine ⟨hid, hyear, (selected_length_iff ha).mp ?_, hlists.followed_length_iff.mp
      ⟨items, hf, ?_⟩⟩
    · omega
    · show items.length = (matchingInstances db (drillDown answer row.stepId)).length
      rw [hlength hid hyear]
      omega
  · rintro ⟨hid, hyear, hnone, hseamless⟩
    have hvalid : validateFilters (drillDown answer row.stepId) = .ok () :=
      (validateFilters_drillDown ha).mpr ⟨hid, hyear⟩
    have hlists := @list_lists db limit (drillDownQuery answer row.stepId size) hvalid hsize
    obtain ⟨items, hf, hlen⟩ := hlists.followed_length_iff.mpr hseamless
    refine ⟨items, hf, ?_⟩
    have hlen : items.length = (matchingInstances db (drillDown answer row.stepId)).length := hlen
    rw [haged, hlen, hlength hid hyear, (selected_length_iff ha).mpr hnone]

/-! One instance stands on one step, which was started at a given moment. -/

def shipping (startedAt : Int) : StepExecutionRow where
  id := "01B"
  instanceId := "01A"
  stepId := "ship"
  stepType := "USER_TASK"
  attemptNumber := 1
  status := "RUNNING"
  startedAt := startedAt
  endedAt := none
  failureReason := none
  inputSnapshot := none
  outputSnapshot := none

theorem shipping_not_failed (startedAt : Int) : ∀ e ∈ [shipping startedAt], e.status = "FAILED" →
    e.endedAt.isSome = true := by
  intro e he h
  obtain rfl := List.mem_singleton.mp he
  have hne : "RUNNING" ≠ "FAILED" := by decide
  exact absurd h hne

def standing (startedAt : Int) : Content where
  instances := [order "01A" startedAt]
  executions := [shipping startedAt]
  definitions := []
  jobs := []
  instance_ids := List.nodup_singleton _
  execution_ids := List.nodup_singleton _
  definition_keys := List.nodup_nil
  job_ids := List.nodup_nil
  ended := shipping_not_failed startedAt

/-- The steps that are a second old. -/
def secondOld : OverviewQuery where
  definitionId := some "order"
  definitionVersion := some "1"
  minStepAgeSeconds := some "1"

/-- The answer two seconds and half a millisecond after 1970. -/
def secondOldAnswer (aged : Nat) : StepsAnswer where
  observedAt := 2000
  stepStartedBefore := 1000
  definitionId := "order"
  definitionVersion := 1
  minStepAgeSeconds := 1
  scope := "Distinct ACTIVE/WAITING instances per current step; step counts can overlap"
  items := [⟨"ship", 1, aged, 0⟩]
  nextCursor := none

theorem overview_agrees_iff_standing : ∃ items,
    Keyset.Followed (fun cursor => list (standing 700000)
      { drillDownQuery (secondOldAnswer 1) "ship" none with cursor := cursor }) none items ∧
    1 = items.length := by
  have hanswer : steps (standing 700000) 2000500 secondOld = .ok (secondOldAnswer 1) := by
    decide +kernel
  refine (overview_agrees_iff (standing 700000) 2000500 secondOld (secondOldAnswer 1) hanswer
    ⟨"ship", 1, 1, 0⟩ (List.mem_singleton_self _) none 50 rfl).mpr ⟨by decide, by decide, ?_, ?_⟩
  · intro row _ _ e he _ _
    -- the only execution started 700 milliseconds after 1970
    have hmem : e ∈ (standing 700000).executions :=
      (List.mem_filter.mp (Table.latest_mem he)).1
    obtain rfl := List.mem_singleton.mp hmem
    decide
  · refine Keyset.seamless_of_length_le ?_
    have hlen : (matchingInstances (standing 700000)
      (drillDown (secondOldAnswer 1) "ship")).length = 1 := by decide +kernel
    rw [hlen]
    decide

/-- An instance is counted whose step was started in the millisecond of the
    cutoff, and the list of the counted instances is empty. -/
theorem counted_not_listed :
    steps (standing 1000200) 2000500 secondOld = .ok (secondOldAnswer 1) ∧
    list (standing 1000200) (drillDownQuery (secondOldAnswer 1) "ship" none) = .ok ([], none) :=
  ⟨by decide +kernel, by decide +kernel⟩

end Rochallor.Monitor
