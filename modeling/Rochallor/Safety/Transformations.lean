import Rochallor.Data.MapOrder
import Rochallor.Instance.Dispatch

/-! # Transformations and their iteration order

    `handleTransformation` ranges over a Go map.  It writes each value into the
    variables the next expression reads, so the order of the map decides what
    an expression that reads another key of the step sees.

    An order is a permutation of the entries.  `Reached` says which maps some
    order passes through, and `OrderFree` when the outcome is the same for all
    orders.
-/

namespace Rochallor

/-! ## Outcomes -/

/-- The tables with the variables in their column form, in which the members
    of an object have one order. -/
def Db.column (db : Db) : Db :=
  { db with instances := db.instances.map fun r => { r with vars := r.vars.jsonb } }

/-- What can be seen of a handler's result, failure texts aside. -/
inductive HandlerOutcome where
  /-- The transaction is rolled back. -/
  | error
  /-- The instance is failed. -/
  | failed
  /-- The instance goes on. -/
  | advanced (inst : WorkflowInstance) (tables : Db) (next : List StepId)

/-- A failing handler goes on to no step. -/
def HandlerOutcome.of : Except EngineError (Tx × List StepId) → HandlerOutcome
  | .error _ => .error
  | .ok (_, []) => .failed
  | .ok (tx, next) => .advanced tx.inst tx.db.column next

variable (svc : Service) (now : Time)

/-! ## Values of entries -/

/-- The raw value of an entry can be decoded. -/
def readable (raw : Json) : Bool :=
  raw.toValue.toOption.isSome

/-- The value of an entry on the given variables, if it has one. -/
def valueOn (vars : GoMap Value) (raw : Json) : Option Value :=
  raw.toValue.toOption.bind fun v => (resolveTemplate svc now vars v).toOption

/-- The JSON form of that value. -/
def jsonOn (vars : GoMap Value) (raw : Json) : Option Json :=
  (valueOn svc now vars raw).bind Value.json

/-- Setting the entries of the list, one after another, leads from the
    variables `vars` to the map and collects the delta. -/
inductive Reached (ts : GoMap Json) (vars : GoMap Value) :
    List (String × Json) → GoMap Value → GoMap Value → Prop
  | start : Reached ts vars [] vars []
  | set {done : List (String × Json)} {m delta : GoMap Value} {e : String × Json} {v : Value}
      (h : Reached ts vars done m delta) (hmem : e ∈ ts) (hnew : e ∉ done)
      (hv : valueOn svc now m e.2 = some v) :
      Reached ts vars (done ++ [e]) (m.set e.1 v) (delta.set e.1 v)

/-- All orders of the entries have the same outcome on the variables. -/
inductive OrderFree (ts : GoMap Json) (vars : GoMap Value) : Prop
  /-- Every entry has the value it has on the variables themselves, whatever
      other entries have been set before. -/
  | independent (hvalue : ∀ e ∈ ts, (jsonOn svc now vars e.2).isSome)
      (hsame : ∀ done m delta, Reached svc now ts vars done m delta → ∀ e ∈ ts, e ∉ done →
        jsonOn svc now m e.2 = jsonOn svc now vars e.2)
  /-- Every order comes to an expression that fails. -/
  | failing (hread : ∀ e ∈ ts, readable e.2)
      (hstuck : ∀ done m delta, Reached svc now ts vars done m delta → ∃ e ∈ ts, e ∉ done)
  /-- No expression ever fails, and every order ends in an error. -/
  | rejected (hnever : ∀ done m delta, Reached svc now ts vars done m delta → ∀ e ∈ ts, e ∉ done →
        readable e.2 → (valueOn svc now m e.2).isSome)
      (hbad : (∃ e ∈ ts, ¬ readable e.2) ∨
        ∀ done m delta, Reached svc now ts vars done m delta → (∀ e ∈ ts, e ∈ done) →
          (Value.obj m).json = none)

/-! ## The loop -/

section Loop

variable {svc : Service} {now : Time} {ts : GoMap Json} {vars m delta : GoMap Value}
  {done rest : List (String × Json)}

theorem toOption_eq_some {ε α : Type} {x : Except ε α} {a : α} :
    x.toOption = some a ↔ x = .ok a := by
  cases x with
  | error e => simp [Except.toOption]
  | ok b => simp [Except.toOption]

theorem valueOn_eq_some {raw : Json} {v : Value} : valueOn svc now m raw = some v ↔
    ∃ v₀, raw.toValue = .ok v₀ ∧ resolveTemplate svc now m v₀ = .ok v := by
  simp only [valueOn, Option.bind_eq_some_iff, toOption_eq_some]

theorem Reached.subset (h : Reached svc now ts vars done m delta) : ∀ e ∈ done, e ∈ ts := by
  induction h with
  | start => exact fun e he => absurd he List.not_mem_nil
  | set h hmem hnew hv ih =>
    intro e he
    rcases List.mem_append.mp he with he | he
    · exact ih e he
    · rwa [List.mem_singleton.mp he]

theorem Reached.nodup (h : Reached svc now ts vars done m delta) : done.Nodup := by
  induction h with
  | start => exact List.nodup_nil
  | set h hmem hnew hv ih =>
    rw [List.nodup_append]
    refine ⟨ih, List.nodup_singleton _, ?_⟩
    intro a ha b hb
    rw [List.mem_singleton.mp hb]
    exact fun heq => hnew (heq ▸ ha)

/-- The rest of an order can be run from the map its beginning reaches. -/
theorem Reached.run_append (h : Reached svc now ts vars done m delta)
    (rest : List (String × Json)) :
    runTransformations svc now (done ++ rest) vars [] =
      runTransformations svc now rest m delta := by
  induction h generalizing rest with
  | start => rfl
  | @set done m delta e v h hmem hnew hv ih =>
    obtain ⟨k, raw⟩ := e
    rw [List.append_assoc, List.singleton_append, ih]
    obtain ⟨v₀, hv₀, hv⟩ := valueOn_eq_some.mp hv
    simp only [runTransformations, hv₀, hv]

/-- How the loop ends: with all entries set, at one that cannot be decoded, or
    at one whose expression fails. -/
inductive Ends (svc : Service) (now : Time) (ts : GoMap Json) (vars : GoMap Value)
    (order : List (String × Json)) :
    Except TransformError (GoMap Value × GoMap Value) → Prop
  | complete (m delta : GoMap Value) (h : Reached svc now ts vars order m delta) :
      Ends svc now ts vars order (.ok (m, delta))
  | aborts (done : List (String × Json)) (m delta : GoMap Value) (e : String × Json) (text : String)
      (h : Reached svc now ts vars done m delta) (hmem : e ∈ ts) (hnew : e ∉ done)
      (hbad : ¬ readable e.2) : Ends svc now ts vars order (.error (.abort text))
  | fails (done : List (String × Json)) (m delta : GoMap Value) (e : String × Json) (text : String)
      (h : Reached svc now ts vars done m delta) (hmem : e ∈ ts) (hnew : e ∉ done)
      (hread : readable e.2) (hnone : valueOn svc now m e.2 = none) :
      Ends svc now ts vars order (.error (.fail text))

theorem run_ends_from (h : Reached svc now ts vars done m delta) (hmem : ∀ e ∈ rest, e ∈ ts)
    (hnd : (done ++ rest).Nodup) :
    Ends svc now ts vars (done ++ rest) (runTransformations svc now rest m delta) := by
  induction rest generalizing done m delta with
  | nil =>
    rw [List.append_nil]
    exact .complete m delta h
  | cons e rest ih =>
    obtain ⟨k, raw⟩ := e
    have he : (k, raw) ∈ ts := hmem _ (List.mem_cons_self ..)
    have hnew : (k, raw) ∉ done := by
      intro hin
      exact (List.nodup_append.mp hnd).2.2 _ hin _ (List.mem_cons_self ..) rfl
    rw [runTransformations]
    cases hr : raw.toValue with
    | error text => exact .aborts done m delta (k, raw) _ h he hnew (by simp [readable, hr, Except.toOption])
    | ok v₀ =>
      simp only
      cases hv : resolveTemplate svc now m v₀ with
      | error text =>
        exact .fails done m delta (k, raw) _ h he hnew (by simp [readable, hr, Except.toOption])
          (by simp [valueOn, hr, hv, Except.toOption])
      | ok v =>
        have hset := Reached.set h he hnew (v := v) (by simp [valueOn, hr, hv, Except.toOption])
        have hrest := ih hset (fun e he => hmem e (List.mem_cons_of_mem _ he)) (by simpa using hnd)
        simpa using hrest

variable (svc now vars) in
/-- Every order of the entries ends in one of the three ways. -/
theorem run_ends {order : List (String × Json)} (hnd : ts.Nodup) (hp : order.Perm ts) :
    Ends svc now ts vars order (runTransformations svc now order vars []) :=
  run_ends_from .start (fun _ he => hp.mem_iff.mp he) (hp.nodup_iff.mpr hnd)

/-- What has been set can be the beginning of an order that goes on with any
    other entry. -/
theorem Reached.extend (h : Reached svc now ts vars done m delta) {e : String × Json}
    (hmem : e ∈ ts) (hnew : e ∉ done) : ∃ rest, (done ++ e :: rest).Perm ts := by
  have hnd : (done ++ [e]).Nodup := by
    rw [List.nodup_append]
    refine ⟨h.nodup, List.nodup_singleton _, ?_⟩
    intro a ha b hb
    rw [List.mem_singleton.mp hb]
    exact fun heq => hnew (heq ▸ ha)
  have hsub : done ++ [e] ⊆ ts := by
    intro x hx
    rcases List.mem_append.mp hx with hx | hx
    · exact h.subset x hx
    · rwa [List.mem_singleton.mp hx]
  obtain ⟨l, hl, hsl⟩ := List.subperm_of_subset hnd hsub
  obtain ⟨rest, hrest⟩ := hsl.exists_perm_append
  refine ⟨rest, ?_⟩
  have := (hrest.trans (hl.append_right rest)).symm
  simpa using this

/-- Once all entries are set, the list is an order of them. -/
theorem Reached.perm (h : Reached svc now ts vars done m delta) (hnd : ts.Nodup)
    (hall : ∀ e ∈ ts, e ∈ done) : done.Perm ts :=
  (List.perm_ext_iff_of_nodup h.nodup hnd).mpr fun e => ⟨h.subset e, hall e⟩

/-- Later entries leave the values of other keys alone. -/
theorem get_of_run {m' delta' : GoMap Value} {k : String}
    (h : runTransformations svc now rest m delta = .ok (m', delta')) (hk : k ∉ rest.map (·.1)) :
    GoMap.get m' k = GoMap.get m k := by
  induction rest generalizing m delta with
  | nil =>
    cases h
    rfl
  | cons e rest ih =>
    obtain ⟨key, raw⟩ := e
    rw [List.map_cons, List.mem_cons, not_or] at hk
    rw [runTransformations] at h
    split at h
    · cases h
    · split at h
      · cases h
      · rw [ih h hk.2, GoMap.get_set, if_neg fun heq => hk.1 heq.symm]

theorem Reached.all_readable (h : Reached svc now ts vars done m delta) :
    ∀ e ∈ done, readable e.2 := by
  induction h with
  | start => exact fun e he => absurd he List.not_mem_nil
  | set h hmem hnew hv ih =>
    intro e he
    rcases List.mem_append.mp he with he | he
    · exact ih e he
    · obtain ⟨v₀, hv₀, -⟩ := valueOn_eq_some.mp hv
      rw [List.mem_singleton.mp he]
      simp [readable, hv₀, Except.toOption]

/-- The delta is part of the map. -/
theorem Reached.delta_get (h : Reached svc now ts vars done m delta) {k : String} {v : Value}
    (hk : GoMap.get delta k = some v) : GoMap.get m k = some v := by
  induction h with
  | start => cases hk
  | @set done m delta e w h hmem hnew hv ih =>
    rw [GoMap.get_set] at hk ⊢
    by_cases hkey : e.1 = k
    · rwa [if_pos hkey] at hk ⊢
    · rw [if_neg hkey] at hk ⊢
      exact ih hk

/-! ## Independent entries -/

theorem Reached.keys_nodup (h : Reached svc now ts vars done m delta)
    (hvars : (vars.map (·.1)).Nodup) : (m.map (·.1)).Nodup ∧ (delta.map (·.1)).Nodup := by
  induction h with
  | start => exact ⟨hvars, List.nodup_nil⟩
  | set h hmem hnew hv ih => exact ⟨set_nodup ih.1 .., set_nodup ih.2 ..⟩

/-- If no entry depends on the others, a map reached holds the value each
    entry has on the variables themselves. -/
theorem Reached.values (hkeys : (ts.map (·.1)).Nodup)
    (hsame : ∀ done m delta, Reached svc now ts vars done m delta → ∀ e ∈ ts, e ∉ done →
      jsonOn svc now m e.2 = jsonOn svc now vars e.2)
    (h : Reached svc now ts vars done m delta) :
    (∀ e ∈ done, (GoMap.get m e.1).map Value.json = some (jsonOn svc now vars e.2) ∧
      (GoMap.get delta e.1).map Value.json = some (jsonOn svc now vars e.2)) ∧
    ∀ k, k ∉ done.map (·.1) → GoMap.get m k = GoMap.get vars k ∧ GoMap.get delta k = none := by
  induction h with
  | start => exact ⟨fun e he => absurd he List.not_mem_nil, fun k _ => ⟨rfl, rfl⟩⟩
  | @set done m delta x v h hmem hnew hv ih =>
    have hx : v.json = jsonOn svc now vars x.2 := by
      rw [← hsame done m delta h x hmem hnew, jsonOn, hv]
      rfl
    refine ⟨?_, ?_⟩
    · intro e he
      rw [GoMap.get_set, GoMap.get_set]
      rcases List.mem_append.mp he with he | he
      · have hne : x.1 ≠ e.1 := by
          intro heq
          have := GoMap.get_of_mem hkeys hmem
          rw [heq, GoMap.get_of_mem hkeys (h.subset e he)] at this
          exact hnew (Prod.ext heq (Option.some.inj this).symm ▸ he)
        rw [if_neg hne, if_neg hne]
        exact ih.1 e he
      · obtain rfl := List.mem_singleton.mp he
        rw [if_pos rfl, if_pos rfl]
        simp [hx]
    · intro k hk
      rw [List.map_append, List.mem_append, not_or] at hk
      have hne : x.1 ≠ k := by
        rintro rfl
        exact hk.2 (by simp)
      rw [GoMap.get_set, GoMap.get_set, if_neg hne, if_neg hne]
      exact ih.2 k hk.1

end Loop

/-! ## The handler -/

theorem variablesToMap_nodup {raw : Json} {vars : GoMap Value}
    (h : variablesToMap raw = .ok vars) : (vars.map (·.1)).Nodup := by
  unfold variablesToMap at h
  split at h
  · obtain ⟨ms, _, h⟩ := bind_eq_ok h
    cases h
    exact overlay_nodup (by simp)
  · cases h
    exact List.nodup_nil
  · cases h

/-- The patch as one rewriting of the row. -/
theorem updateInstanceVariablesPartial_eq {db : Db} {instanceID : Nat} {patch : GoMap Value}
    {p : GoMap Json} (h : marshalMembers patch = .ok p) :
    db.updateInstanceVariablesPartial instanceID patch =
      .ok (db.patchVars instanceID fun v => if patch.isEmpty then v else Db.mergeJson v p) := by
  unfold Db.updateInstanceVariablesPartial
  by_cases he : patch.isEmpty = true
  · simp only [he, if_true]
    exact congrArg _ (patchVars_id db instanceID).symm
  · simp only [he, h]
    rfl

/-- The column form of a merge does not show the order of the patch. -/
theorem mergeJson_congr {p p' : GoMap Json} (h : ∀ k, p.last k = p'.last k) (v : Json) :
    (Db.mergeJson v p).jsonb = (Db.mergeJson v p').jsonb := by
  unfold Db.mergeJson
  split
  · refine jsonb_obj_congr fun k => ?_
    rw [GoMap.last_overlay, GoMap.last_overlay, h]
  · refine jsonb_obj_congr fun k => ?_
    rw [GoMap.last_overlay, GoMap.last_overlay, h]

theorem patchVars_column {db : Db} {instanceID : Nat} {g g' : Json → Json}
    (h : ∀ v, (g v).jsonb = (g' v).jsonb) :
    (db.patchVars instanceID g).column = (db.patchVars instanceID g').column := by
  simp only [Db.column, Db.patchVars, Db.updateInstance, Table.update, List.map_map]
  congr 1
  refine List.map_congr_left fun r _ => ?_
  by_cases hr : r.id = instanceID
  · simp [hr, h]
  · simp [hr]

section Handler

variable {svc : Service} {now : Time} {tx : Tx} {step : WorkflowStep} {seID : Nat}
  {vars : GoMap Value}

/-- The outcome of the step when its map is ranged over in the given order. -/
def transformOutcome (svc : Service) (now : Time) (tx : Tx) (step : WorkflowStep) (seID : Nat)
    (order : GoMap Json) : HandlerOutcome :=
  .of (handleTransformation svc now tx { step with transformations := order } seID)

/-- The outcome of a step that has set all its entries. -/
def transformed (now : Time) (tx : Tx) (step : WorkflowStep) (seID : Nat) (m delta : GoMap Value) :
    HandlerOutcome :=
  match (Value.obj m).json with
  | none => .error
  | some merged =>
    match tx.db.updateInstanceVariablesPartial tx.inst.id delta with
    | .error _ => .error
    | .ok db => .advanced
        (Tx.removeFromCurrentSteps ⟨tx.db, { tx.inst with vars := merged }⟩ step.id).inst
        (db.column.completeStepExecutionByID now seID (some merged)) [step.nextStep]

/-- The outcome, by the way the loop ends. -/
theorem transformOutcome_eq (order : GoMap Json) (hvars : variablesToMap tx.inst.vars = .ok vars) :
    transformOutcome svc now tx step seID order =
      match runTransformations svc now order vars [] with
      | .error (.abort _) => .error
      | .error (.fail _) => .failed
      | .ok (m, delta) => transformed now tx step seID m delta := by
  unfold transformOutcome handleTransformation
  simp only [hvars]
  cases runTransformations svc now order vars [] with
  | error e =>
    cases e with
    | abort text => rfl
    | fail reason => rfl
  | ok md =>
    obtain ⟨m, delta⟩ := md
    dsimp only
    unfold transformed Value.json
    cases (Value.obj m).marshal with
    | error e => rfl
    | ok merged =>
      simp only [Except.toOption]
      cases tx.db.updateInstanceVariablesPartial tx.inst.id delta with
      | error e => rfl
      | ok db => rfl

/-- Maps and deltas with the same JSON values have the same outcome. -/
theorem transformed_congr {m delta m' delta' : GoMap Value} (hm : (m.map (·.1)).Nodup)
    (hm' : (m'.map (·.1)).Nodup) (hd : (delta.map (·.1)).Nodup) (hd' : (delta'.map (·.1)).Nodup)
    (hsame : ∀ k, (GoMap.get m k).map Value.json = (GoMap.get m' k).map Value.json)
    (hsame' : ∀ k, (GoMap.get delta k).map Value.json = (GoMap.get delta' k).map Value.json)
    (hjson : ∀ e ∈ delta, e.2.json.isSome) :
    transformed now tx step seID m delta = transformed now tx step seID m' delta' := by
  have hjson' : ∀ e ∈ delta', e.2.json.isSome := by
    intro e he
    have hk := hsame' e.1
    rw [GoMap.get_of_mem hd' he, Option.map_some] at hk
    obtain ⟨v, hv, hvj⟩ := Option.map_eq_some_iff.mp hk
    rw [← hvj]
    exact hjson _ (GoMap.mem_of_get hv)
  obtain ⟨p, hp⟩ := marshalMembers_isOk hjson
  obtain ⟨p', hp'⟩ := marshalMembers_isOk hjson'
  have hlast : ∀ k, GoMap.last p k = GoMap.last p' k := by
    intro k
    have hk := hsame' k
    rw [get_marshalMembers hp, get_marshalMembers hp'] at hk
    rw [GoMap.last_eq_get (marshalMembers_keys hp ▸ hd), GoMap.last_eq_get (marshalMembers_keys hp' ▸ hd')]
    exact Option.map_injective (Option.some_injective _) hk
  have hempty : delta.isEmpty = delta'.isEmpty := by
    have key : ∀ {d d' : GoMap Value}, (d'.map (·.1)).Nodup →
        (∀ k, (GoMap.get d k).map Value.json = (GoMap.get d' k).map Value.json) →
        d.isEmpty = true → d'.isEmpty = true := by
      intro d d' hnd h he
      rw [List.isEmpty_iff] at he ⊢
      subst he
      cases d' with
      | nil => rfl
      | cons e rest =>
        have hk := h e.1
        rw [GoMap.get_of_mem hnd (List.mem_cons_self ..)] at hk
        cases hk
    exact Bool.eq_iff_iff.mpr ⟨key hd' hsame', key hd fun k => (hsame' k).symm⟩
  unfold transformed
  rw [json_obj_congr hm hm' hsame, updateInstanceVariablesPartial_eq hp,
    updateInstanceVariablesPartial_eq hp', hempty]
  have hcol : (tx.db.patchVars tx.inst.id fun v => if delta'.isEmpty then v else Db.mergeJson v p).column =
      (tx.db.patchVars tx.inst.id fun v => if delta'.isEmpty then v else Db.mergeJson v p').column := by
    refine patchVars_column fun v => ?_
    split
    · rfl
    · exact mergeJson_congr hlast v
  simp only [hcol]

/-- A committed outcome shows the value of every key. -/
theorem transformed_lookup {m delta m' delta' : GoMap Value} {inst : WorkflowInstance} {db : Db}
    {next : List StepId} (h : transformed now tx step seID m delta = .advanced inst db next)
    (h' : transformed now tx step seID m' delta' = .advanced inst db next) (hm : (m.map (·.1)).Nodup)
    (hm' : (m'.map (·.1)).Nodup) (k : String) :
    (GoMap.get m k).map Value.json = (GoMap.get m' k).map Value.json := by
  have key : ∀ {m delta : GoMap Value}, transformed now tx step seID m delta = .advanced inst db next →
      (Value.obj m).json = some inst.vars := by
    intro m delta h
    unfold transformed at h
    split at h
    · cases h
    · rename_i merged hmerged
      split at h
      · cases h
      · cases h
        exact hmerged
  obtain ⟨p, hp, hv⟩ := marshal_obj_ok.mp (toOption_eq_some.mp (key h))
  obtain ⟨p', hp', hv'⟩ := marshal_obj_ok.mp (toOption_eq_some.mp (key h'))
  have hnd : (p.map (·.1)).Nodup := marshalMembers_keys hp ▸ hm
  have hnd' : (p'.map (·.1)).Nodup := marshalMembers_keys hp' ▸ hm'
  have hsort : sortByKey p = sortByKey p' := by
    rw [hv] at hv'
    exact Json.obj.inj hv'
  have hperm : p.Perm p' := (sortByKey_perm p).symm.trans (hsort ▸ sortByKey_perm p')
  rw [get_marshalMembers hp, get_marshalMembers hp', GoMap.get_of_perm hnd hperm]

/-- The values of a committed map have JSON forms. -/
theorem transformed_json {m delta : GoMap Value} {inst : WorkflowInstance} {db : Db}
    {next : List StepId} (h : transformed now tx step seID m delta = .advanced inst db next)
    {k : String} {v : Value} (hv : GoMap.get m k = some v) : v.json.isSome := by
  unfold transformed at h
  split at h
  · cases h
  · rename_i merged hmerged
    obtain ⟨p, hp, -⟩ := marshal_obj_ok.mp (toOption_eq_some.mp hmerged)
    exact json_of_marshalMembers hp _ (GoMap.mem_of_get hv)

/-- A map that cannot be marshalled is the only reason to reject it. -/
theorem transformed_error {ts : GoMap Json} {done : List (String × Json)} {m delta : GoMap Value}
    (h : Reached svc now ts vars done m delta) (hvars : (vars.map (·.1)).Nodup)
    (herr : transformed now tx step seID m delta = .error) : (Value.obj m).json = none := by
  cases hj : (Value.obj m).json with
  | none => rfl
  | some merged =>
    obtain ⟨p, hp, -⟩ := marshal_obj_ok.mp (toOption_eq_some.mp hj)
    obtain ⟨q, hq⟩ : ∃ q, marshalMembers delta = .ok q := by
      refine marshalMembers_isOk fun e he => ?_
      have hget := h.delta_get (GoMap.get_of_mem (h.keys_nodup hvars).2 he)
      exact json_of_marshalMembers hp _ (GoMap.mem_of_get hget)
    simp [transformed, hj, updateInstanceVariablesPartial_eq hq] at herr

/-- What has been set is the beginning of an order that goes on with the entry
    `e`, and the order ends as the entry decides. -/
theorem Reached.outcome {ts : GoMap Json} {done : List (String × Json)} {m delta : GoMap Value}
    (h : Reached svc now ts vars done m delta) (hvars : variablesToMap tx.inst.vars = .ok vars)
    {e : String × Json} (hmem : e ∈ ts) (hnew : e ∉ done) :
    ∃ order, order.Perm ts ∧
      (¬ readable e.2 → transformOutcome svc now tx step seID order = .error) ∧
      (readable e.2 → valueOn svc now m e.2 = none →
        transformOutcome svc now tx step seID order = .failed) ∧
      ∀ inst db next, (ts.map (·.1)).Nodup →
        transformOutcome svc now tx step seID order = .advanced inst db next →
        ∃ v m' delta', valueOn svc now m e.2 = some v ∧ GoMap.get m' e.1 = some v ∧
          (m'.map (·.1)).Nodup ∧ transformed now tx step seID m' delta' = .advanced inst db next := by
  obtain ⟨rest, hperm⟩ := h.extend hmem hnew
  obtain ⟨k, raw⟩ := e
  have hrun := h.run_append ((k, raw) :: rest)
  refine ⟨_, hperm, ?_, ?_, ?_⟩
  · intro hbad
    rw [transformOutcome_eq _ hvars, hrun, runTransformations]
    cases hr : raw.toValue with
    | error text => rfl
    | ok v₀ => exact absurd (by simp [readable, hr, Except.toOption]) hbad
  · intro hread hnone
    rw [transformOutcome_eq _ hvars, hrun, runTransformations]
    cases hr : raw.toValue with
    | error text => simp [readable, hr, Except.toOption] at hread
    | ok v₀ =>
      cases hv : resolveTemplate svc now m v₀ with
      | error text => simp [hv]
      | ok v =>
        rw [valueOn_eq_some.mpr ⟨v₀, hr, hv⟩] at hnone
        cases hnone
  · intro inst db next hkeys hout
    rw [transformOutcome_eq _ hvars, hrun, runTransformations] at hout
    cases hr : raw.toValue with
    | error text =>
      simp only [hr] at hout
      cases hout
    | ok v₀ =>
      cases hv : resolveTemplate svc now m v₀ with
      | error text =>
        simp only [hr, hv] at hout
        cases hout
      | ok v =>
        simp only [hr, hv] at hout
        split at hout
        · cases hout
        · cases hout
        · rename_i m' delta' hfinal
          have hkeys' : ((done ++ (k, raw) :: rest).map (·.1)).Nodup :=
            (hperm.map _).nodup_iff.mpr hkeys
          rw [List.map_append, List.map_cons, List.nodup_append, List.nodup_cons] at hkeys'
          -- the whole order is reached, so its keys stay distinct
          have hends := run_ends svc now vars (List.Nodup.of_map _ hkeys) hperm
          rw [hrun, runTransformations, hr] at hends
          simp only [hv, hfinal] at hends
          cases hends with
          | complete _ _ hreach =>
            refine ⟨v, m', delta', valueOn_eq_some.mpr ⟨v₀, hr, hv⟩, ?_,
              (hreach.keys_nodup (variablesToMap_nodup hvars)).1, hout⟩
            rw [get_of_run hfinal hkeys'.2.1.1, GoMap.get_set, if_pos rfl]

end Handler

/-! ## The condition -/

section OrderFree

variable {svc : Service} {now : Time} {tx : Tx} {step : WorkflowStep} {seID : Nat}
  {vars : GoMap Value}

/-- If all orders have one outcome, it is the one the condition describes. -/
theorem orderFree_of_same {ts : GoMap Json} (hkeys : (ts.map (·.1)).Nodup)
    (hvars : variablesToMap tx.inst.vars = .ok vars)
    (hsame : ∀ order, order.Perm ts → transformOutcome svc now tx step seID order =
      transformOutcome svc now tx step seID ts) : OrderFree svc now ts vars := by
  have hnd : ts.Nodup := List.Nodup.of_map _ hkeys
  cases hout : transformOutcome svc now tx step seID ts with
  | error =>
    refine .rejected ?_ ?_
    · intro done m delta h e hmem hnew hread
      obtain ⟨order, hperm, -, hfail, -⟩ := h.outcome hvars hmem hnew
      by_contra hnone
      have := hfail hread (Option.not_isSome_iff_eq_none.mp hnone)
      rw [hsame order hperm, hout] at this
      cases this
    · by_cases hbad : ∃ e ∈ ts, ¬ readable e.2
      · exact .inl hbad
      · refine .inr fun done m delta h hall => ?_
        have hperm := h.perm hnd hall
        have hdone : transformOutcome svc now tx step seID done = _ := transformOutcome_eq done hvars
        have hrun := h.run_append []
        rw [List.append_nil, runTransformations] at hrun
        rw [hsame done hperm, hout, hrun] at hdone
        exact transformed_error h (variablesToMap_nodup hvars) hdone.symm
  | failed =>
    refine .failing ?_ ?_
    · intro e hmem
      obtain ⟨order, hperm, hbad, -, -⟩ :=
        Reached.start.outcome hvars hmem List.not_mem_nil
      by_contra hread
      have := hbad hread
      rw [hsame order hperm, hout] at this
      cases this
    · intro done m delta h
      by_contra hall
      have hall' : ∀ e ∈ ts, e ∈ done := by
        intro e he
        by_contra hne
        exact hall ⟨e, he, hne⟩
      have hperm := h.perm hnd hall'
      have hdone : transformOutcome svc now tx step seID done = _ := transformOutcome_eq done hvars
      have hrun := h.run_append []
      rw [List.append_nil, runTransformations] at hrun
      rw [hsame done hperm, hout, hrun] at hdone
      dsimp only at hdone
      unfold transformed at hdone
      split at hdone
      · cases hdone
      · split at hdone <;> cases hdone
  | advanced inst db next =>
    have hvalue : ∀ e ∈ ts, ∃ v m' delta', valueOn svc now vars e.2 = some v ∧
        GoMap.get m' e.1 = some v ∧ (m'.map (·.1)).Nodup ∧
        transformed now tx step seID m' delta' = .advanced inst db next := by
      intro e hmem
      obtain ⟨order, hperm, -, -, hadv⟩ :=
        Reached.start.outcome hvars hmem List.not_mem_nil
      exact hadv inst db next hkeys ((hsame order hperm).trans hout)
    refine .independent ?_ ?_
    · intro e hmem
      obtain ⟨v, m', delta', hv, hget, -, hfinal⟩ := hvalue e hmem
      rw [jsonOn, hv]
      exact transformed_json hfinal hget
    · intro done m delta h e hmem hnew
      obtain ⟨v₀, m₀, delta₀, hv₀, hget₀, hnd₀, hfinal₀⟩ := hvalue e hmem
      obtain ⟨order, hperm, -, -, hadv⟩ := h.outcome hvars hmem hnew
      obtain ⟨v, m', delta', hv, hget, hnd', hfinal⟩ :=
        hadv inst db next hkeys ((hsame order hperm).trans hout)
      -- both orders show the value of the entry in the committed map
      have hlook := transformed_lookup hfinal hfinal₀ hnd' hnd₀ e.1
      rw [hget, hget₀] at hlook
      rw [jsonOn, jsonOn, hv, hv₀]
      exact Option.some.inj hlook

/-- And the condition gives all orders one outcome. -/
theorem same_of_orderFree {ts : GoMap Json} (hkeys : (ts.map (·.1)).Nodup)
    (hvars : variablesToMap tx.inst.vars = .ok vars) (hfree : OrderFree svc now ts vars)
    {order order' : GoMap Json} (hperm : order.Perm ts) (hperm' : order'.Perm ts) :
    transformOutcome svc now tx step seID order = transformOutcome svc now tx step seID order' := by
  have hnd : ts.Nodup := List.Nodup.of_map _ hkeys
  cases hfree with
  | independent hvalue hsame =>
    have hcomplete : ∀ order : GoMap Json, order.Perm ts → ∃ m delta,
        transformOutcome svc now tx step seID order = transformed now tx step seID m delta ∧
        Reached svc now ts vars order m delta := by
      intro order hp
      rw [transformOutcome_eq _ hvars]
      have hends := run_ends svc now vars hnd hp
      cases hr : runTransformations svc now order vars [] with
      | ok md =>
        rw [hr] at hends
        cases hends with
        | complete m delta h => exact ⟨m, delta, rfl, h⟩
      | error e =>
        -- an entry that has a value on the variables has one here
        have hsome : ∀ done m delta, Reached svc now ts vars done m delta → ∀ e ∈ ts, e ∉ done →
            (jsonOn svc now m e.2).isSome := by
          intro done m delta h e hmem hnew
          rw [hsame done m delta h e hmem hnew]
          exact hvalue e hmem
        rw [hr] at hends
        cases hends with
        | aborts done m delta e text h hmem hnew hbad =>
          have := hsome done m delta h e hmem hnew
          obtain ⟨j, hj⟩ := Option.isSome_iff_exists.mp this
          obtain ⟨v, hv, -⟩ := Option.bind_eq_some_iff.mp hj
          obtain ⟨v₀, hv₀, -⟩ := valueOn_eq_some.mp hv
          exact absurd (by simp [readable, hv₀, Except.toOption]) hbad
        | fails done m delta e text h hmem hnew hread hnone =>
          have := hsome done m delta h e hmem hnew
          rw [jsonOn, hnone] at this
          cases this
    obtain ⟨m, delta, hout, h⟩ := hcomplete order hperm
    obtain ⟨m', delta', hout', h'⟩ := hcomplete order' hperm'
    have hv := h.values hkeys hsame
    have hv' := h'.values hkeys hsame
    have hmem : ∀ {o : GoMap Json}, o.Perm ts → ∀ k, k ∈ o.map (·.1) ↔ k ∈ ts.map (·.1) :=
      fun hp k => (hp.map _).mem_iff
    have hvarsnd := variablesToMap_nodup hvars
    rw [hout, hout']
    refine transformed_congr (h.keys_nodup hvarsnd).1 (h'.keys_nodup hvarsnd).1
      (h.keys_nodup hvarsnd).2 (h'.keys_nodup hvarsnd).2 ?_ ?_ ?_
    · intro k
      by_cases hk : k ∈ ts.map (·.1)
      · obtain ⟨e, he, rfl⟩ := List.mem_map.mp hk
        rw [(hv.1 e (hperm.mem_iff.mpr he)).1, (hv'.1 e (hperm'.mem_iff.mpr he)).1]
      · rw [(hv.2 k fun h => hk ((hmem hperm k).mp h)).1,
          (hv'.2 k fun h => hk ((hmem hperm' k).mp h)).1]
    · intro k
      by_cases hk : k ∈ ts.map (·.1)
      · obtain ⟨e, he, rfl⟩ := List.mem_map.mp hk
        rw [(hv.1 e (hperm.mem_iff.mpr he)).2, (hv'.1 e (hperm'.mem_iff.mpr he)).2]
      · rw [(hv.2 k fun h => hk ((hmem hperm k).mp h)).2,
          (hv'.2 k fun h => hk ((hmem hperm' k).mp h)).2]
    · intro x hx
      have hget := GoMap.get_of_mem (h.keys_nodup hvarsnd).2 hx
      by_cases hk : x.1 ∈ ts.map (·.1)
      · obtain ⟨e, he, hek⟩ := List.mem_map.mp hk
        have hval := (hv.1 e (hperm.mem_iff.mpr he)).2
        rw [hek, hget, Option.map_some] at hval
        rw [Option.some.inj hval]
        exact hvalue e he
      · rw [(hv.2 x.1 fun h => hk ((hmem hperm x.1).mp h)).2] at hget
        cases hget
  | failing hread hstuck =>
    have hfailed : ∀ order : GoMap Json, order.Perm ts →
        transformOutcome svc now tx step seID order = .failed := by
      intro order hp
      rw [transformOutcome_eq _ hvars]
      have hends := run_ends svc now vars hnd hp
      generalize runTransformations svc now order vars [] = r at hends ⊢
      cases hends with
      | complete m delta h =>
        obtain ⟨e, he, hne⟩ := hstuck order m delta h
        exact absurd (hp.mem_iff.mpr he) hne
      | aborts done m delta e text h hmem hnew hbad => exact absurd (hread e hmem) hbad
      | fails done m delta e text h hmem hnew hread hnone => rfl
    rw [hfailed order hperm, hfailed order' hperm']
  | rejected hnever hbad =>
    have herror : ∀ order : GoMap Json, order.Perm ts →
        transformOutcome svc now tx step seID order = .error := by
      intro order hp
      rw [transformOutcome_eq _ hvars]
      have hends := run_ends svc now vars hnd hp
      generalize runTransformations svc now order vars [] = r at hends ⊢
      cases hends with
      | complete m delta h =>
        have hjson : (Value.obj m).json = none := by
          rcases hbad with ⟨e, he, hunread⟩ | hend
          · exact absurd (h.all_readable e (hp.mem_iff.mpr he)) hunread
          · exact hend order m delta h fun e he => hp.mem_iff.mpr he
        simp [transformed, hjson]
      | aborts done m delta e text h hmem hnew hbad => rfl
      | fails done m delta e text h hmem hnew hread hnone =>
        have := hnever done m delta h e hmem hnew hread
        rw [hnone] at this
        cases this
    rw [herror order hperm, herror order' hperm']

end OrderFree

/-- All iteration orders of a transformation step have one outcome if and only
    if the variables are no object or the entries are order free on them. -/
theorem transformation_order_free_iff (svc : Service) (now : Time) (tx : Tx) (step : WorkflowStep)
    (seID : Nat) (hkeys : (step.transformations.map (·.1)).Nodup) :
    (∀ order order', order.Perm step.transformations → order'.Perm step.transformations →
      transformOutcome svc now tx step seID order = transformOutcome svc now tx step seID order') ↔
      ∀ vars, variablesToMap tx.inst.vars = .ok vars →
        OrderFree svc now step.transformations vars := by
  constructor
  · intro hsame vars hvars
    exact orderFree_of_same hkeys hvars fun order hperm => hsame order _ hperm (.refl _)
  · intro hfree order order' hperm hperm'
    cases hvars : variablesToMap tx.inst.vars with
    | error e => simp [transformOutcome, handleTransformation, hvars]
    | ok vars => exact same_of_orderFree hkeys hvars (hfree vars hvars) hperm hperm'

/-- A service whose evaluator looks names up. -/
def Service.lookingUp : Service :=
  { Service.ofList [] with
    evaluateExpr := fun expr vars =>
      match vars.get expr with
      | some v => .ok v
      | none => .error "unknown name" }

/-- Sets a flag and clears the reason. -/
def approving : WorkflowStep where
  id := "approve"
  name := "approve"
  type := .transformation
  nextStep := "end"
  transformations := [("approved", .bool true), ("reason", .null)]

/-- Sets `count` and copies it. -/
def copying : WorkflowStep where
  id := "copy"
  name := "copy"
  type := .transformation
  nextStep := "end"
  transformations := [("count", .str "new"), ("copy", .str "${count}")]

/-- An instance at `stepID` whose `count` is still the old one. -/
def countingTx (stepID : StepId) : Tx where
  db := {}
  inst := { id := 0, definitionID := "counting", definitionVersion := 1, status := .active,
            currentStepIDs := [stepID], vars := .obj [("count", .str "old")] }

theorem transformation_order_free_iff_approving :
    transformOutcome .lookingUp 0 (countingTx "approve") approving 0 approving.transformations =
      transformOutcome .lookingUp 0 (countingTx "approve") approving 0
        approving.transformations.reverse := by
  refine (transformation_order_free_iff .lookingUp 0 (countingTx "approve") approving 0
    (by decide)).mpr ?_ _ _ (.refl _) (List.reverse_perm _)
  intro vars _
  -- both entries are literals
  have hliteral : ∀ m, ∀ e ∈ approving.transformations,
      jsonOn .lookingUp 0 m e.2 = some e.2 := by
    intro m e he
    simp only [approving, List.mem_cons, List.not_mem_nil, or_false] at he
    rcases he with rfl | rfl <;> rfl
  refine .independent ?_ ?_
  · intro e he
    rw [hliteral vars e he]
    rfl
  · intro done m delta _ e he _
    rw [hliteral m e he, hliteral vars e he]

/-- The copy is the new count or the old one. -/
theorem copy_depends_on_order :
    ¬ ∀ (svc : Service) (now : Time) (tx : Tx) (step : WorkflowStep) (seID : Nat),
      step.type = .transformation → (step.transformations.map (·.1)).Nodup →
      ∀ order order', order.Perm step.transformations → order'.Perm step.transformations →
        transformOutcome svc now tx step seID order =
          transformOutcome svc now tx step seID order' := by
  intro h
  have hsame := h .lookingUp 0 (countingTx "copy") copying 0 rfl (by decide) copying.transformations
    copying.transformations.reverse (.refl _) (List.reverse_perm _)
  have hvars : ∀ o o' : HandlerOutcome, o = o' →
      (match o with | .advanced inst _ _ => inst.vars | _ => .null) =
        (match o' with | .advanced inst _ _ => inst.vars | _ => .null) := by
    rintro o o' rfl
    rfl
  exact absurd (hvars _ _ hsame) (by decide +kernel)

end Rochallor
