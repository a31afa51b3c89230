import Rochallor.Data.Equality
import Rochallor.Safety.DecisionTables

/-! # Hit policies

    `handleDecisionTable` matches all rules and evaluates the outputs of all
    matching ones before it looks at the hit policy.  If no rule fails at that,
    the policy is applied to the rows: the output maps of the rules that match,
    in document order.

    Under policy `F` a rule behind the first matching one changes the outcome by
    failing.  Under policy `A` only the columns of the first row are compared,
    so a column of a later row is neither compared nor written.
-/

namespace Rochallor

/-! ## Rows -/

section Rule

variable (svc : Service) (now : Time) (vars : GoMap Value) (rule : DecisionTableRule)

/-- Whether the rule matches; `none` if a cell cannot be evaluated, or not to a
    boolean. -/
def DecisionTableRule.answer : Option Bool :=
  (ruleMatches svc vars 0 rule.conditions).toOption

/-- The rule fails the instance: over a cell, or over an output if it matches. -/
def DecisionTableRule.fails : Bool :=
  match rule.answer svc vars with
  | none => true
  | some false => false
  | some true => rule.outputs.any fun o => (valueOn svc now vars o.2).isNone

/-- The output map of a rule whose outputs evaluate. -/
def DecisionTableRule.row : GoMap Value :=
  rule.outputs.map fun o => (o.1, (valueOn svc now vars o.2).getD .null)

end Rule

/-- The rows of the rules that match, in document order. -/
def matchedRows (svc : Service) (now : Time) (vars : GoMap Value)
    (rules : List DecisionTableRule) : List (GoMap Value) :=
  (rules.filter fun r => r.answer svc vars = some true).map fun r => r.row svc now vars

section Rows

variable {svc : Service} {now : Time} {vars : GoMap Value} {rules : List DecisionTableRule}

/-- The index of a rule shows in messages only. -/
theorem ruleMatches_toOption (idx : Nat) (cells : GoMap String) :
    (ruleMatches svc vars idx cells).toOption = (ruleMatches svc vars 0 cells).toOption := by
  induction cells with
  | nil => rfl
  | cons cell rest ih =>
    obtain ⟨col, cell⟩ := cell
    rw [ruleMatches, ruleMatches]
    by_cases hblank : (trimSpace cell.toList).isEmpty = true
    · simp only [hblank, if_true]
      exact ih
    · simp only [hblank, Bool.false_eq_true, if_false]
      cases svc.evaluateExpr cell vars with
      | error e => rfl
      | ok v =>
        cases v with
        | bool b =>
          cases b with
          | true => exact ih
          | false => rfl
        | _ => simp only [Except.toOption]

variable (svc vars rules) in
/-- The loop fails at a rule without an answer, and finds the rules that match
    otherwise. -/
theorem matchRules_spec (n : Nat) :
    match matchRules svc vars (rules.zipIdx n) with
    | .error _ => ∃ r ∈ rules, r.answer svc vars = none
    | .ok matched => (∀ r ∈ rules, r.answer svc vars ≠ none) ∧
        matched.map (·.1) = rules.filter fun r => r.answer svc vars = some true := by
  induction rules generalizing n with
  | nil => exact ⟨fun r hr => absurd hr List.not_mem_nil, rfl⟩
  | cons rule rest ih =>
    have hanswer : (ruleMatches svc vars n rule.conditions).toOption = rule.answer svc vars :=
      ruleMatches_toOption n rule.conditions
    have hrest := ih (n + 1)
    rw [List.zipIdx_cons, matchRules]
    cases hm : ruleMatches svc vars n rule.conditions with
    | error e =>
      rw [hm] at hanswer
      exact ⟨rule, List.mem_cons_self .., hanswer.symm⟩
    | ok b =>
      rw [hm] at hanswer
      have hsome : rule.answer svc vars = some b := hanswer.symm
      cases hmatched : matchRules svc vars (rest.zipIdx (n + 1)) with
      | error e =>
        rw [hmatched] at hrest
        obtain ⟨r, hr, hnone⟩ := hrest
        exact ⟨r, List.mem_cons_of_mem _ hr, hnone⟩
      | ok matched =>
        rw [hmatched] at hrest
        refine ⟨?_, ?_⟩
        · intro r hr
          rcases List.mem_cons.mp hr with rfl | hr
          · rw [hsome]
            exact Option.some_ne_none b
          · exact hrest.1 r hr
        · cases b with
          | true => rw [List.filter_cons_of_pos (by simp [hsome]), ← hrest.2]; rfl
          | false => rw [List.filter_cons_of_neg (by simp [hsome]), ← hrest.2]; rfl

theorem traverse_outputOf (idx : Nat) {outputs : GoMap Json}
    (h : ∀ o ∈ outputs, (valueOn svc now vars o.2).isSome) :
    outputs.traverse (outputOf svc now vars idx) =
      .ok (outputs.map fun o => (o.1, (valueOn svc now vars o.2).getD .null)) := by
  induction outputs with
  | nil => rfl
  | cons o rest ih =>
    obtain ⟨k, raw⟩ := o
    obtain ⟨v, hv⟩ := Option.isSome_iff_exists.mp (h _ (List.mem_cons_self ..))
    rw [GoMap.traverse, outputOf_ok.mpr hv, ih fun o ho => h o (List.mem_cons_of_mem _ ho),
      List.map_cons, hv]
    rfl

variable (svc now vars) in
/-- The loop fails at an output without a value, and collects the rows
    otherwise. -/
theorem evaluateMatched_spec (matched : List (DecisionTableRule × Nat)) :
    match evaluateMatched svc now vars matched with
    | .error _ => ∃ x ∈ matched, ∃ o ∈ x.1.outputs, valueOn svc now vars o.2 = none
    | .ok rows => (∀ x ∈ matched, ∀ o ∈ x.1.outputs, (valueOn svc now vars o.2).isSome) ∧
        rows.map (·.1) = matched.map fun x => x.1.row svc now vars := by
  induction matched with
  | nil => exact ⟨fun x hx => absurd hx List.not_mem_nil, rfl⟩
  | cons x rest ih =>
    obtain ⟨rule, idx⟩ := x
    rw [evaluateMatched, evaluateRuleOutputs_eq]
    by_cases hall : ∀ o ∈ rule.outputs, (valueOn svc now vars o.2).isSome
    · rw [traverse_outputOf idx hall]
      cases hrows : evaluateMatched svc now vars rest with
      | error e =>
        rw [hrows] at ih
        obtain ⟨x, hx, hnone⟩ := ih
        exact ⟨x, List.mem_cons_of_mem _ hx, hnone⟩
      | ok rows =>
        rw [hrows] at ih
        refine ⟨List.forall_mem_cons.mpr ⟨hall, ih.1⟩, ?_⟩
        rw [List.map_cons, List.map_cons, ← ih.2]
        rfl
    · cases hr : rule.outputs.traverse (outputOf svc now vars idx) with
      | ok row =>
        refine absurd (fun o ho => ?_) hall
        obtain ⟨v, hv⟩ := traverse_ok hr o ho
        rw [outputOf_ok.mp hv]
        rfl
      | error e =>
        simp only [not_forall] at hall
        obtain ⟨o, ho, hnone⟩ := hall
        exact ⟨_, List.mem_cons_self .., o, ho, by simpa using hnone⟩

variable (svc now vars rules) in
/-- A rule that fails fails the table.  Otherwise the hit policy is applied to
    the rows. -/
theorem evaluateDecisionTable_spec (step : WorkflowStep) :
    (∃ r ∈ rules, r.fails svc now vars = true) ∧
        (∃ e, evaluateDecisionTable svc now vars { step with decisionTable := some ⟨rules⟩ } =
          .error e) ∨
      (∀ r ∈ rules, r.fails svc now vars = false) ∧
        ∃ rows, rows.map (·.1) = matchedRows svc now vars rules ∧
          evaluateDecisionTable svc now vars { step with decisionTable := some ⟨rules⟩ } =
            applyHitPolicy step.id step.policy rows := by
  simp only [evaluateDecisionTable]
  have hmatch := matchRules_spec svc vars rules 0
  cases hm : matchRules svc vars rules.zipIdx with
  | error e =>
    rw [hm] at hmatch
    obtain ⟨r, hr, hnone⟩ := hmatch
    exact .inl ⟨⟨r, hr, by simp [DecisionTableRule.fails, hnone]⟩, e, rfl⟩
  | ok matched =>
    rw [hm] at hmatch
    obtain ⟨hanswers, hfilter⟩ := hmatch
    have hmem : ∀ r, r ∈ matched.map (·.1) ↔ r ∈ rules ∧ r.answer svc vars = some true := by
      intro r
      rw [hfilter, List.mem_filter, decide_eq_true_eq]
    have hrows := evaluateMatched_spec svc now vars matched
    simp only [bind, Except.bind]
    cases hev : evaluateMatched svc now vars matched with
    | error e =>
      rw [hev] at hrows
      obtain ⟨x, hx, o, ho, hnone⟩ := hrows
      obtain ⟨hr, htrue⟩ := (hmem x.1).mp (List.mem_map_of_mem hx)
      refine .inl ⟨⟨x.1, hr, ?_⟩, ?_⟩
      · simp only [DecisionTableRule.fails, htrue, List.any_eq_true]
        exact ⟨o, ho, by rw [hnone]; rfl⟩
      · split
        · exact ⟨_, rfl⟩
        · exact ⟨e, rfl⟩
    | ok rows =>
      rw [hev] at hrows
      obtain ⟨hvalues, hrow⟩ := hrows
      refine .inr ⟨?_, rows, ?_, ?_⟩
      · intro r hr
        unfold DecisionTableRule.fails
        cases ha : r.answer svc vars with
        | none => exact absurd ha (hanswers r hr)
        | some b =>
          cases b with
          | false => rfl
          | true =>
            obtain ⟨x, hx, rfl⟩ := List.mem_map.mp ((hmem r).mpr ⟨hr, ha⟩)
            rw [← Bool.not_eq_true, List.any_eq_true]
            rintro ⟨o, ho, hnone⟩
            have hsome := hvalues x hx o ho
            rw [Option.isNone_iff_eq_none.mp hnone] at hsome
            cases hsome
      · rw [hrow, matchedRows, ← hfilter, List.map_map]
        rfl
      · by_cases he : matched.isEmpty = true
        · rw [if_pos he]
          rw [List.isEmpty_iff.mp he] at hrow
          rw [List.map_eq_nil_iff.mp hrow]
          rfl
        · rw [if_neg he]
          rfl

end Rows

/-! ## The handler -/

section Handler

variable {svc : Service} {now : Time} {tx : Tx} {step : WorkflowStep} {vars : GoMap Value}
  {rules : List DecisionTableRule}

theorem tableOutcome_of_fails (hvars : variablesToMap tx.inst.vars = .ok vars)
    (h : ∃ r ∈ rules, r.fails svc now vars = true) :
    tableOutcome svc now tx step rules = .failed := by
  rw [tableOutcome_eq hvars]
  rcases evaluateDecisionTable_spec svc now vars rules step with ⟨-, e, he⟩ | ⟨hok, -⟩
  · rw [he]
  · obtain ⟨r, hr, hfails⟩ := h
    rw [hok r hr] at hfails
    cases hfails

variable (tx step) in
/-- The outcome of a table none of whose rules fails. -/
theorem tableOutcome_of_rows (hvars : variablesToMap tx.inst.vars = .ok vars)
    (h : ∀ r ∈ rules, r.fails svc now vars = false) :
    ∃ rows, rows.map (·.1) = matchedRows svc now vars rules ∧
      tableOutcome svc now tx step rules =
        match applyHitPolicy step.id step.policy rows with
        | .error _ => .failed
        | .ok outputs => tabled now tx step vars outputs := by
  rcases evaluateDecisionTable_spec svc now vars rules step with
    ⟨⟨r, hr, hfails⟩, -⟩ | ⟨-, rows, hrows, heval⟩
  · rw [h r hr] at hfails
    cases hfails
  · refine ⟨rows, hrows, ?_⟩
    have hout : tableOutcome svc now tx step rules = _ := tableOutcome_eq hvars
    rw [heval] at hout
    refine hout.trans ?_
    cases applyHitPolicy step.id step.policy rows with
    | error e => rfl
    | ok outputs => rfl

end Handler

/-! ## Results -/

/-- The value of a variable, in its JSON form. -/
def variableOf (raw : Json) (k : String) : Option Json :=
  (memberOf raw k).bind Json.decoded

/-- Success or failure of the step, and the variables it leads to. -/
inductive TableResult where
  | rolledBack
  | failed
  | merged (vars : String → Option Json)

def HandlerOutcome.result : HandlerOutcome → TableResult
  | .error => .rolledBack
  | .failed => .failed
  | .advanced inst _ _ => .merged (variableOf inst.vars)

def TableResult.Succeeds (r : TableResult) : Prop :=
  ∃ vars, r = .merged vars

def tableResult (svc : Service) (now : Time) (tx : Tx) (step : WorkflowStep)
    (rules : List DecisionTableRule) : TableResult :=
  (tableOutcome svc now tx step rules).result

/-- The variables after the merge of an output map. -/
def written (vars outputs : GoMap Value) (k : String) : Option Json :=
  match GoMap.get outputs k with
  | some v => v.json.bind Json.decoded
  | none => (GoMap.get vars k).bind Value.json

/-- The result of merging an output map. -/
def writtenResult (vars outputs : GoMap Value) : TableResult :=
  if outputs.all fun e => e.2.json.isSome then .merged (written vars outputs) else .rolledBack

section Results

variable {tx : Tx} {step : WorkflowStep} {now : Time} {vars outputs : GoMap Value} {raw : Json}

theorem variablesToMap_stable (h : variablesToMap raw = .ok vars) : ∀ e ∈ vars, e.2.Stable := by
  unfold variablesToMap at h
  split at h
  · obtain ⟨vs, hvs, h⟩ := bind_eq_ok h
    cases h
    intro e he
    rcases GoMap.mem_overlay he with hlast | ⟨-, hnil⟩
    · exact toMembers_stable hvs _ (GoMap.mem_of_last hlast)
    · cases hnil
  · cases h
    exact fun e he => absurd he List.not_mem_nil
  · cases h

private theorem bind_of_map {α β γ : Type} {x : Option α} {y : Option β} {f : α → Option γ}
    {g : β → Option γ} (h : x.map f = y.map g) : x.bind f = y.bind g := by
  cases x with
  | none =>
    cases y with
    | none => rfl
    | some b => cases h
  | some a =>
    cases y with
    | none => cases h
    | some b => exact Option.some.inj h

theorem variableOf_eq (h : variablesToMap raw = .ok vars) (k : String) :
    variableOf raw k = (GoMap.get vars k).bind Value.json := by
  unfold variablesToMap at h
  split at h
  · rename_i ms
    obtain ⟨vs, hvs, h⟩ := bind_eq_ok h
    cases h
    exact (bind_of_map (get_decoded hvs k)).symm
  · cases h
    rfl
  · cases h

/-- The members of the document a map is written as. -/
theorem memberOf_marshal {m : GoMap Value} {j : Json} (hm : (m.map (·.1)).Nodup)
    (h : (Value.obj m).marshal = .ok j) (k : String) :
    memberOf j k = (GoMap.get m k).bind Value.json := by
  obtain ⟨p, hp, rfl⟩ := marshal_obj_ok.mp h
  rw [bind_of_map (get_marshalMembers hp k)]
  show GoMap.last (sortByKey p) k = _
  rw [last_sortByKey hm hp]
  cases GoMap.get p k with
  | none => rfl
  | some j => rfl

variable (now step) in
/-- Outputs that can be written are merged into the variables. -/
theorem tabled_advanced (hvars : variablesToMap tx.inst.vars = .ok vars)
    (hkeys : (outputs.map (·.1)).Nodup) (hjson : ∀ e ∈ outputs, e.2.json.isSome) :
    ∃ inst tables, tabled now tx step vars outputs = .advanced inst tables [step.nextStep] ∧
      (∀ k v, GoMap.get outputs k = some v → memberOf inst.vars k = v.json) ∧
      variableOf inst.vars = written vars outputs := by
  have hstable := variablesToMap_stable hvars
  have hvarsnd := variablesToMap_nodup hvars
  unfold tabled
  by_cases he : outputs.isEmpty = true
  · obtain rfl := List.isEmpty_iff.mp he
    simp only [he, if_true]
    refine ⟨_, _, rfl, fun k v hk => (Option.some_ne_none v hk.symm).elim, funext fun k => ?_⟩
    exact variableOf_eq hvars k
  · simp only [he, Bool.false_eq_true, if_false]
    obtain ⟨p, hp⟩ : ∃ p, marshalMembers (vars.overlay outputs) = .ok p := by
      refine marshalMembers_isOk fun e he => ?_
      rcases GoMap.mem_overlay he with hlast | ⟨-, hmem⟩
      · exact hjson _ (GoMap.mem_of_last hlast)
      · obtain ⟨j, hj, -⟩ := hstable e hmem
        simp [Value.json, hj, Except.toOption]
    obtain ⟨q, hq⟩ := marshalMembers_isOk hjson
    have hmarshal := marshal_obj_ok.mpr ⟨p, hp, rfl⟩
    have hmerged : (Value.obj (vars.overlay outputs)).json = some (.obj (sortByKey p)) := by
      rw [Value.json, hmarshal]
      rfl
    have hmember : ∀ k, memberOf (.obj (sortByKey p)) k =
        ((GoMap.get outputs k).or (GoMap.get vars k)).bind Value.json := by
      intro k
      rw [memberOf_marshal (overlay_nodup hvarsnd) hmarshal, GoMap.get_overlay,
        GoMap.last_eq_get hkeys]
    simp only [hmerged, updateInstanceVariablesPartial_eq hq]
    refine ⟨_, _, rfl, ?_, funext fun k => ?_⟩
    · intro k v hk
      show memberOf (.obj (sortByKey p)) k = _
      rw [hmember, hk]
      rfl
    · show (memberOf (.obj (sortByKey p)) k).bind Json.decoded = _
      rw [hmember, written]
      cases GoMap.get outputs k with
      | some v => rfl
      | none =>
        cases hk : GoMap.get vars k with
        | none => rfl
        | some v =>
          -- what has been decoded is written back as it is
          obtain ⟨j, hj, hdec⟩ := hstable _ (GoMap.mem_of_get hk)
          simp [Value.json, hj, Except.toOption, hdec]

/-- Outputs that cannot be written roll the transaction back. -/
theorem tabled_error (hkeys : (outputs.map (·.1)).Nodup)
    (hjson : ¬ ∀ e ∈ outputs, e.2.json.isSome) : tabled now tx step vars outputs = .error := by
  have hne : outputs.isEmpty = false := by
    rw [List.isEmpty_eq_false_iff]
    rintro rfl
    exact hjson fun e he => absurd he List.not_mem_nil
  have hnone : (Value.obj (vars.overlay outputs)).json = none := by
    cases hj : (Value.obj (vars.overlay outputs)).json with
    | none => rfl
    | some merged =>
      obtain ⟨q, hq, -⟩ := marshal_obj_ok.mp (toOption_eq_some.mp hj)
      refine absurd (fun e he => ?_) hjson
      refine json_of_marshalMembers hq _ (GoMap.mem_of_get (k := e.1) ?_)
      rw [GoMap.get_overlay, GoMap.last_eq_get hkeys, GoMap.get_of_mem hkeys he]
      rfl
  unfold tabled
  simp only [hne, Bool.false_eq_true, if_false, hnone]

theorem tabled_result (hvars : variablesToMap tx.inst.vars = .ok vars)
    (hkeys : (outputs.map (·.1)).Nodup) :
    (tabled now tx step vars outputs).result = writtenResult vars outputs := by
  unfold writtenResult
  by_cases hall : (outputs.all fun e => e.2.json.isSome) = true
  · obtain ⟨inst, tables, htabled, -, hvars'⟩ :=
      tabled_advanced step now hvars hkeys (List.all_eq_true.mp hall)
    rw [if_pos hall, htabled]
    exact congrArg TableResult.merged hvars'
  · rw [if_neg hall, tabled_error hkeys fun h => hall (List.all_eq_true.mpr h)]
    rfl

end Results

/-! ## First -/

section First

variable {svc : Service} {now : Time} {tx : Tx} {step : WorkflowStep} {vars : GoMap Value}
  {front post post' : List DecisionTableRule} {first : DecisionTableRule}

variable (now post) in
theorem matchedRows_first (hfront : ∀ r ∈ front, r.answer svc vars ≠ some true)
    (hfirst : first.answer svc vars = some true) :
    ∃ rows, matchedRows svc now vars (front ++ first :: post) = first.row svc now vars :: rows := by
  refine ⟨matchedRows svc now vars post, ?_⟩
  unfold matchedRows
  have hnone : front.filter (fun r => r.answer svc vars = some true) = [] := by
    rw [List.filter_eq_nil_iff]
    exact fun r hr => by simpa using hfront r hr
  rw [List.filter_append, hnone, List.filter_cons_of_pos (by simpa using hfirst)]
  rfl

/-- If no rule fails, the first matching one is the outcome. -/
theorem tableOutcome_first (hpolicy : step.hitPolicy = "F")
    (hvars : variablesToMap tx.inst.vars = .ok vars)
    (hfront : ∀ r ∈ front, r.answer svc vars ≠ some true)
    (hfirst : first.answer svc vars = some true)
    (h : ∀ r ∈ front ++ first :: post, r.fails svc now vars = false) :
    tableOutcome svc now tx step (front ++ first :: post) =
      tabled now tx step vars (first.row svc now vars) := by
  obtain ⟨rows, hrows, hout⟩ := tableOutcome_of_rows tx step hvars h
  obtain ⟨rest, hrest⟩ := matchedRows_first now post hfront hfirst
  rw [hrest] at hrows
  have hp : step.policy = "F" := by
    unfold WorkflowStep.policy
    rw [hpolicy]
    rfl
  cases rows with
  | nil => cases hrows
  | cons x others =>
    obtain ⟨row, idx⟩ := x
    have hrow : row = first.row svc now vars := (List.cons.inj hrows).1
    rw [hout, hp, hrow]
    rfl

end First

/-- Under policy `F` the rules behind the first matching one can be exchanged
    if and only if some rule fails both with the old and with the new ones, or
    neither with the old nor with the new ones. -/
theorem first_policy_suffix_iff (svc : Service) (now : Time) (tx : Tx) (step : WorkflowStep)
    (hpolicy : step.hitPolicy = "F") (vars : GoMap Value)
    (hvars : variablesToMap tx.inst.vars = .ok vars) (front : List DecisionTableRule)
    (first : DecisionTableRule) (hfront : ∀ r ∈ front, r.answer svc vars ≠ some true)
    (hfirst : first.answer svc vars = some true) (post post' : List DecisionTableRule) :
    tableOutcome svc now tx step (front ++ first :: post) =
        tableOutcome svc now tx step (front ++ first :: post') ↔
      (∃ r ∈ front ++ [first], r.fails svc now vars = true) ∨
        ((∃ r ∈ post, r.fails svc now vars = true) ↔
          ∃ r ∈ post', r.fails svc now vars = true) := by
  have hsplit : ∀ rest, (∃ r ∈ front ++ first :: rest, r.fails svc now vars = true) ↔
      (∃ r ∈ front ++ [first], r.fails svc now vars = true) ∨
        ∃ r ∈ rest, r.fails svc now vars = true := by
    intro rest
    have happend : front ++ first :: rest = (front ++ [first]) ++ rest := by simp
    rw [happend]
    simp only [List.mem_append (s := front ++ [first]), or_and_right, exists_or]
  -- the outcome shows whether some rule fails, and otherwise not the rules behind
  have hout : ∀ rest, (tableOutcome svc now tx step (front ++ first :: rest) = .failed ∧
        ∃ r ∈ front ++ first :: rest, r.fails svc now vars = true) ∨
      (tableOutcome svc now tx step (front ++ first :: rest) =
          tabled now tx step vars (first.row svc now vars) ∧
        ¬ ∃ r ∈ front ++ first :: rest, r.fails svc now vars = true) := by
    intro rest
    by_cases h : ∃ r ∈ front ++ first :: rest, r.fails svc now vars = true
    · exact .inl ⟨tableOutcome_of_fails hvars h, h⟩
    · refine .inr ⟨tableOutcome_first hpolicy hvars hfront hfirst fun r hr => ?_, h⟩
      rw [← Bool.not_eq_true]
      exact fun hr' => h ⟨r, hr, hr'⟩
  have hsame : (tableOutcome svc now tx step (front ++ first :: post) =
        tableOutcome svc now tx step (front ++ first :: post')) ↔
      ((∃ r ∈ front ++ first :: post, r.fails svc now vars = true) ↔
        ∃ r ∈ front ++ first :: post', r.fails svc now vars = true) := by
    rcases hout post with ⟨h, hf⟩ | ⟨h, hf⟩
    · rcases hout post' with ⟨h', hf'⟩ | ⟨h', hf'⟩
      · exact iff_of_true (h.trans h'.symm) (iff_of_true hf hf')
      · refine iff_of_false (fun heq => ?_) fun hiff => hf' (hiff.mp hf)
        exact tabled_ne_failed _ (h'.symm.trans (heq.symm.trans h))
    · rcases hout post' with ⟨h', hf'⟩ | ⟨h', hf'⟩
      · refine iff_of_false (fun heq => ?_) fun hiff => hf (hiff.mpr hf')
        exact tabled_ne_failed _ (h.symm.trans (heq.trans h'))
      · exact iff_of_true (h.trans h'.symm) (iff_of_false hf hf')
  rw [hsame, hsplit post, hsplit post']
  by_cases h : ∃ r ∈ front ++ [first], r.fails svc now vars = true
  · exact iff_of_true (iff_of_true (.inl h) (.inl h)) (.inl h)
  · rw [or_iff_right h, or_iff_right h, or_iff_right h]

/-- Grades by age, and everyone else basic. -/
def gradedByAge : List DecisionTableRule := [
  { conditions := [("age", "true")], outputs := [("tier", .str "gold")] },
  { conditions := [], outputs := [("tier", .str "basic")] }]

theorem first_policy_suffix_iff_graded :
    tableOutcome (.ofList []) 0 (countingTx "grade") (gradingStep []) gradedByAge =
      tableOutcome (.ofList []) 0 (countingTx "grade") (gradingStep []) (gradedByAge.take 1) :=
  (first_policy_suffix_iff (.ofList []) 0 (countingTx "grade") (gradingStep []) rfl
    [("count", .str "old")] rfl [] gradedByAge.head! (by simp) rfl gradedByAge.tail []).mpr
    (.inr (by decide +kernel))

/-- A later match is not ignored: its output fails the instance. -/
theorem later_match_not_ignored :
    ¬ ∀ (svc : Service) (now : Time) (tx : Tx) (step : WorkflowStep) (vars : GoMap Value)
      (front : List DecisionTableRule) (first : DecisionTableRule) (post post' : List DecisionTableRule),
      step.hitPolicy = "F" → variablesToMap tx.inst.vars = .ok vars →
      (∀ r ∈ front, r.answer svc vars ≠ some true) → first.answer svc vars = some true →
      tableOutcome svc now tx step (front ++ first :: post) =
        tableOutcome svc now tx step (front ++ first :: post') := by
  intro h
  have hsame := h (.ofList []) 0 (countingTx "grade") (gradingStep []) [("count", .str "old")]
    [] { conditions := [("age", "true")], outputs := [("tier", .str "gold")] } []
    [{ conditions := [], outputs := [("tier", .str "$\x7bfallback\x7d")] }] rfl rfl (by simp) rfl
  have hfailed : ∀ o o' : HandlerOutcome, o = o' →
      (match o with | .failed => true | _ => false) =
        (match o' with | .failed => true | _ => false) := by
    rintro o o' rfl
    rfl
  exact absurd (hfailed _ _ hsame) (by decide +kernel)

end Rochallor
