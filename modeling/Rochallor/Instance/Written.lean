import Rochallor.Instance.Variables

/-! # What a merge writes

    A merge names the keys it writes: those of a worker's report, of the
    transformations of a step, or of the outputs of a decision table.  The
    other members are not rewritten in the row.  In memory they are decoded and
    written back with the whole document, which changes nothing about a member
    that decodes to itself.
-/

namespace Rochallor

/-! ## Members -/

/-- A member of the variables' document. -/
def memberOf (raw : Json) (k : String) : Option Json :=
  match raw with
  | .obj ms => GoMap.last ms k
  | _ => none

theorem memberOf_eq_some {raw j : Json} {k : String} (h : memberOf raw k = some j) :
    ∃ ms, raw = .obj ms ∧ GoMap.last ms k = some j := by
  cases raw with
  | obj ms => exact ⟨ms, rfl, h⟩
  | _ => cases h

/-- The update, of the copy to `new` and of the row by `g`, writes no member
    outside `keys`. -/
structure WritesOnly (keys : List String) (old new : Json) (g : Json → Json) : Prop where
  memory : ∀ k, k ∉ keys → ∀ j, memberOf old k = some j → j.decoded = some j →
    memberOf new k = some j
  row : ∀ k, k ∉ keys → ∀ raw j, memberOf raw k = some j → memberOf (g raw) k = some j

namespace WritesOnly

variable {keys : List String} {old new : Json} {g : Json → Json}

theorem keep (hg : ∀ j, g j = j) : WritesOnly keys old old g where
  memory := fun _ _ _ h _ => h
  row := fun _ _ _ _ h => by rwa [hg]

theorem mono (h : WritesOnly keys old new g) {keys' : List String} (hsub : ∀ k ∈ keys, k ∈ keys') :
    WritesOnly keys' old new g where
  memory := fun k hk => h.memory k fun hmem => hk (hsub k hmem)
  row := fun k hk => h.row k fun hmem => hk (hsub k hmem)

/-- A merge writes the keys of its delta. -/
theorem merge {m m' delta : GoMap Value} {p : GoMap Json} (hold : variablesToMap old = .ok m)
    (hm' : (m'.map (·.1)).Nodup) (hget : ∀ k, m'.get k = (delta.last k).or (m.get k))
    (hnew : (Value.obj m').marshal = .ok new) (hp : marshalMembers delta = .ok p)
    (hg : ∀ ms, g (.obj ms) = .obj (GoMap.overlay ms p)) :
    WritesOnly (delta.map (·.1)) old new g := by
  have hnone : ∀ k, k ∉ delta.map (·.1) → GoMap.last p k = none := by
    intro k hk
    cases hlast : GoMap.last p k with
    | none => rfl
    | some j =>
      refine absurd ?_ hk
      rw [← marshalMembers_keys hp]
      exact List.mem_map_of_mem (GoMap.mem_of_last hlast)
  constructor
  · intro k hk j hj hdec
    obtain ⟨ms, rfl, hlast⟩ := memberOf_eq_some hj
    obtain ⟨vs, hvs, hvalues⟩ := (variablesToMap_ok hold).2 ms rfl
    obtain ⟨q, hq, rfl⟩ := marshal_obj_ok.mp hnew
    -- the copy is decoded and written back as a whole
    have hq' := get_merged hvs (fun k => by rw [hget, hvalues]) hq hp k
    show GoMap.last (sortByKey q) k = some j
    rw [last_sortByKey hm' hq, hq', hnone k hk, hlast, Option.none_or, Option.bind_some, hdec]
  · intro k hk raw j hj
    obtain ⟨ms, rfl, hlast⟩ := memberOf_eq_some hj
    rw [hg]
    show GoMap.last (GoMap.overlay ms p) k = some j
    rw [GoMap.last_overlay, hnone k hk, hlast, Option.none_or]

end WritesOnly

/-- `mergeVariables`, with the delta as the row's update has it. -/
theorem mergeVariables_writesOnly {old new : Json} {delta : GoMap Value} {p : GoMap Json}
    {g : Json → Json} (h : mergeVariables old delta = .ok new) (hp : marshalMembers delta = .ok p)
    (hg : ∀ ms, g (.obj ms) = .obj (GoMap.overlay ms p)) :
    WritesOnly (delta.map (·.1)) old new g := by
  unfold mergeVariables at h
  obtain ⟨m, hm, h⟩ := bind_eq_ok h
  exact .merge hm (overlay_nodup (variablesToMap_ok hm).1) (GoMap.get_overlay m delta) h hp hg

/-! ## The keys of a step -/

/-- The variables a dispatch of the step may write. -/
def WorkflowStep.writtenKeys (step : WorkflowStep) : List String :=
  match step.type, step.decisionTable with
  | .transformation, _ => step.transformations.map (·.1)
  | .decisionTable, some dt => dt.rules.flatMap fun r => r.outputs.map (·.1)
  | _, _ => []

section Keys

variable {svc : Service} {now : Time} {vars : GoMap Value}

theorem runTransformations_keys {ts : GoMap Json} {vars' delta delta' : GoMap Value}
    (h : runTransformations svc now ts vars delta = .ok (vars', delta')) :
    ∀ k ∈ delta'.map (·.1), k ∈ delta.map (·.1) ∨ k ∈ ts.map (·.1) := by
  induction ts generalizing vars delta with
  | nil =>
    cases h
    exact fun k hk => .inl hk
  | cons t rest ih =>
    rw [runTransformations] at h
    split at h
    · cases h
    split at h
    · cases h
    intro k hk
    rcases ih h k hk with hset | hrest
    · obtain ⟨e, he, rfl⟩ := List.mem_map.mp hset
      rcases GoMap.mem_set he with rfl | ⟨-, he⟩
      · exact .inr (List.mem_cons_self ..)
      · exact .inl (List.mem_map_of_mem he)
    · exact .inr (List.mem_cons_of_mem _ hrest)

private theorem matchRules_mem {rules matched : List (DecisionTableRule × Nat)}
    (h : matchRules svc vars rules = .ok matched) : ∀ r ∈ matched, r ∈ rules := by
  induction rules generalizing matched with
  | nil =>
    cases h
    exact fun r hr => hr
  | cons x rest ih =>
    rw [matchRules] at h
    obtain ⟨ok, -, h⟩ := bind_eq_ok h
    obtain ⟨tail, htail, h⟩ := bind_eq_ok h
    cases h
    intro r hr
    split at hr
    · rcases List.mem_cons.mp hr with rfl | hr
      · exact List.mem_cons_self ..
      · exact List.mem_cons_of_mem _ (ih htail r hr)
    · exact List.mem_cons_of_mem _ (ih htail r hr)

private theorem evaluateRuleOutputs_keys {idx : Nat} {outputs : GoMap Json} {row : GoMap Value}
    (h : evaluateRuleOutputs svc now vars idx outputs = .ok row) :
    row.map (·.1) = outputs.map (·.1) := by
  induction outputs generalizing row with
  | nil =>
    cases h
    rfl
  | cons o rest ih =>
    rw [evaluateRuleOutputs] at h
    split at h
    · cases h
    split at h
    · cases h
    obtain ⟨tail, htail, h⟩ := bind_eq_ok h
    cases h
    rw [List.map_cons, List.map_cons, ih htail]

/-- The columns of a row are outputs of its rule. -/
private theorem evaluateMatched_keys {matched : List (DecisionTableRule × Nat)}
    {rows : List (GoMap Value × Nat)} (h : evaluateMatched svc now vars matched = .ok rows) :
    ∀ row ∈ rows, ∃ r ∈ matched, row.1.map (·.1) = r.1.outputs.map (·.1) := by
  induction matched generalizing rows with
  | nil =>
    cases h
    exact fun row hrow => absurd hrow List.not_mem_nil
  | cons x rest ih =>
    rw [evaluateMatched] at h
    obtain ⟨row, hrow, h⟩ := bind_eq_ok h
    obtain ⟨tail, htail, h⟩ := bind_eq_ok h
    cases h
    intro row' hrow'
    rcases List.mem_cons.mp hrow' with rfl | hrow'
    · exact ⟨x, List.mem_cons_self .., evaluateRuleOutputs_keys hrow⟩
    · obtain ⟨r, hr, hkeys⟩ := ih htail row' hrow'
      exact ⟨r, List.mem_cons_of_mem _ hr, hkeys⟩

private theorem aggregateColumns_keys {stepID : StepId} {suffix : Char}
    {cols : GoMap (List Value)} {outputs : GoMap Value}
    (h : aggregateColumns stepID suffix cols = .ok outputs) :
    outputs.map (·.1) = cols.map (·.1) := by
  induction cols generalizing outputs with
  | nil =>
    cases h
    rfl
  | cons c rest ih =>
    rw [aggregateColumns] at h
    split at h
    · cases h
    obtain ⟨tail, htail, h⟩ := bind_eq_ok h
    cases h
    rw [List.map_cons, List.map_cons, ih htail]

private theorem buildColumnLists_keys (evaluated : List (GoMap Value)) :
    ∀ k ∈ (buildColumnLists evaluated).map (·.1), ∃ row ∈ evaluated, k ∈ row.map (·.1) := by
  intro k hk
  simp only [buildColumnLists, List.map_map, Function.comp_def, List.map_id'] at hk
  rw [List.mem_dedup] at hk
  exact List.mem_flatMap.mp hk

/-- A hit policy puts out columns of the rows only. -/
private theorem applyHitPolicy_keys {stepID : StepId} {policy : String}
    {rows : List (GoMap Value × Nat)} {outputs : GoMap Value}
    (h : applyHitPolicy stepID policy rows = .ok outputs) :
    ∀ k ∈ outputs.map (·.1), ∃ row ∈ rows, k ∈ row.1.map (·.1) := by
  have hcolumns : ∀ k ∈ (buildColumnLists (rows.map (·.1))).map (·.1),
      ∃ row ∈ rows, k ∈ row.1.map (·.1) := by
    intro k hk
    obtain ⟨m, hm, hkey⟩ := buildColumnLists_keys _ k hk
    obtain ⟨row, hrow, rfl⟩ := List.mem_map.mp hm
    exact ⟨row, hrow, hkey⟩
  unfold applyHitPolicy at h
  split at h
  · cases h
  rename_i first firstIdx others
  have hfirst : ∀ k ∈ first.map (·.1), ∃ row ∈ (first, firstIdx) :: others, k ∈ row.1.map (·.1) :=
    fun k hk => ⟨_, List.mem_cons_self .., hk⟩
  split at h
  · split at h
    · cases h
      exact hfirst
    · cases h
  split at h
  · cases h
    exact hfirst
  split at h
  · split at h
    · cases h
    · cases h
      exact hfirst
  split at h
  · cases h
    intro k hk
    rw [List.map_map] at hk
    exact hcolumns k hk
  split at h
  · split at h
    · rw [aggregateColumns_keys h]
      exact hcolumns
    · cases h
      exact fun k hk => absurd hk List.not_mem_nil
  · cases h
    exact fun k hk => absurd hk List.not_mem_nil

/-- A decision table puts out the columns of its rules only. -/
theorem evaluateDecisionTable_keys {step : WorkflowStep} (htype : step.type = .decisionTable)
    {outputs : GoMap Value} (h : evaluateDecisionTable svc now vars step = .ok outputs) :
    ∀ k ∈ outputs.map (·.1), k ∈ step.writtenKeys := by
  unfold evaluateDecisionTable at h
  split at h
  · cases h
  rename_i dt hdt
  obtain ⟨matched, hmatched, h⟩ := bind_eq_ok h
  split at h
  · cases h
  obtain ⟨rows, hrows, h⟩ := bind_eq_ok h
  intro k hk
  obtain ⟨row, hrow, hkey⟩ := applyHitPolicy_keys h k hk
  obtain ⟨r, hr, hkeys⟩ := evaluateMatched_keys hrows row hrow
  have hrule : r.1 ∈ dt.rules := by
    have hmem := List.mem_map_of_mem (f := Prod.fst) (matchRules_mem hmatched r hr)
    rwa [List.zipIdx_map_fst] at hmem
  rw [WorkflowStep.writtenKeys, htype, hdt]
  exact List.mem_flatMap.mpr ⟨r.1, hrule, hkeys ▸ hkey⟩

end Keys

end Rochallor
