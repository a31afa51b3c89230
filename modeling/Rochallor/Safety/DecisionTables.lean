import Rochallor.Safety.Transformations

/-! # Decision tables and their iteration orders

    `handleDecisionTable` ranges over the cells and over the outputs of a rule,
    both Go maps.  The order of the outputs decides nothing but which of
    several failures is reported.  The order of the cells decides more: a rule
    with a false cell and a failing one does not match if the false cell comes
    first, and fails the instance if the failing one does.
-/

namespace Rochallor

/-! ## Rules -/

/-- The cell has to be evaluated. -/
def asked (cell : String × String) : Bool :=
  !(trimSpace cell.2.toList).isEmpty

/-- The cell evaluates to false. -/
def cellFalse (svc : Service) (vars : GoMap Value) (cell : String × String) : Bool :=
  asked cell &&
    match svc.evaluateExpr cell.2 vars with
    | .ok (.bool false) => true
    | _ => false

/-- The cell cannot be evaluated, or not to a boolean. -/
def cellFails (svc : Service) (vars : GoMap Value) (cell : String × String) : Bool :=
  asked cell &&
    match svc.evaluateExpr cell.2 vars with
    | .ok (.bool _) => false
    | _ => true

namespace DecisionTableRule

variable (svc : Service) (vars : GoMap Value) (rule : DecisionTableRule)

def hasFalse : Bool := rule.conditions.any (cellFalse svc vars)

def hasFailing : Bool := rule.conditions.any (cellFails svc vars)

/-- Whether it is skipped or fails the instance is up to the order of its
    cells. -/
def contested : Bool := rule.hasFalse svc vars && rule.hasFailing svc vars

/-- All its cells are true. -/
def passes : Bool := !rule.hasFalse svc vars && !rule.hasFailing svc vars

end DecisionTableRule

/-- The same rule with its maps in other orders. -/
structure Reordered (rule rule' : DecisionTableRule) : Prop where
  conditions : rule'.conditions.Perm rule.conditions
  outputs : rule'.outputs.Perm rule.outputs

variable (svc : Service) (now : Time)

/-- The outcome of the step when the maps of its rules are ranged over in the
    given orders. -/
def tableOutcome (tx : Tx) (step : WorkflowStep) (rules : List DecisionTableRule) :
    HandlerOutcome :=
  .of (handleDecisionTable svc now tx { step with decisionTable := some ⟨rules⟩ })

/-- The hit policy, unique by default. -/
def WorkflowStep.policy (step : WorkflowStep) : String :=
  if step.hitPolicy.isEmpty then "U" else step.hitPolicy

/-- The rules whose cells are all true, with their document indices. -/
def passing (vars : GoMap Value) (rules : List (DecisionTableRule × Nat)) :
    List (DecisionTableRule × Nat) :=
  rules.filter fun x => x.1.passes svc vars

/-- The table fails the instance whatever becomes of its contested rules. -/
inductive FailsAnyway (vars : GoMap Value) (step : WorkflowStep) (rules : List DecisionTableRule) :
    Prop
  | cell (rule : DecisionTableRule) (hmem : rule ∈ rules)
      (hfailing : rule.hasFailing svc vars = true) (hfalse : rule.hasFalse svc vars = false)
  | unmatched (hnone : passing svc vars rules.zipIdx = [])
  | output (x : DecisionTableRule × Nat) (hmem : x ∈ passing svc vars rules.zipIdx)
      (o : String × Json) (hout : o ∈ x.1.outputs) (hfails : valueOn svc now vars o.2 = none)
  | policy (rows : List (GoMap Value × Nat))
      (hrows : evaluateMatched svc now vars (passing svc vars rules.zipIdx) = .ok rows)
      (reason : String) (hfails : applyHitPolicy step.id step.policy rows = .error reason)

section Rules

variable {svc : Service} {now : Time} {vars : GoMap Value} {rule rule' : DecisionTableRule}

theorem Reordered.refl (rule : DecisionTableRule) : Reordered rule rule := ⟨.refl _, .refl _⟩

theorem Reordered.hasFalse (h : Reordered rule rule') :
    rule'.hasFalse svc vars = rule.hasFalse svc vars :=
  h.conditions.any_eq

theorem Reordered.hasFailing (h : Reordered rule rule') :
    rule'.hasFailing svc vars = rule.hasFailing svc vars :=
  h.conditions.any_eq

/-- What the answer of `ruleMatches` says about the cells. -/
theorem ruleMatches_spec (svc : Service) (vars : GoMap Value) (idx : Nat) (cells : GoMap String) :
    match ruleMatches svc vars idx cells with
    | .ok true => cells.any (cellFalse svc vars) = false ∧ cells.any (cellFails svc vars) = false
    | .ok false => cells.any (cellFalse svc vars) = true
    | .error _ => cells.any (cellFails svc vars) = true := by
  induction cells with
  | nil => simp [ruleMatches]
  | cons cell rest ih =>
    obtain ⟨col, cell⟩ := cell
    rw [ruleMatches]
    by_cases hblank : (trimSpace cell.toList).isEmpty = true
    · -- a blank cell is neither false nor failing
      have hfalse : cellFalse svc vars (col, cell) = false := by simp [cellFalse, asked, hblank]
      have hfails : cellFails svc vars (col, cell) = false := by simp [cellFails, asked, hblank]
      simpa only [hblank, if_true, List.any_cons, hfalse, hfails, Bool.false_or] using ih
    · simp only [hblank, Bool.false_eq_true, if_false, List.any_cons]
      have hasked : asked (col, cell) = true := by simp [asked, hblank]
      cases hv : svc.evaluateExpr cell vars with
      | error e => simp [cellFails, hasked, hv]
      | ok v =>
        cases v with
        | bool b =>
          cases b with
          | true =>
            have hfalse : cellFalse svc vars (col, cell) = false := by simp [cellFalse, hv]
            have hfails : cellFails svc vars (col, cell) = false := by simp [cellFails, hv]
            simpa only [hfalse, hfails, Bool.false_or] using ih
          | false => simp [cellFalse, hasked, hv]
        | _ => simp [cellFails, hasked, hv]

/-- A failing cell at the front fails the rule. -/
theorem ruleMatches_failing_first {idx : Nat} {cell : String × String} {rest : GoMap String}
    (h : cellFails svc vars cell = true) :
    ∃ e, ruleMatches svc vars idx (cell :: rest) = .error e := by
  obtain ⟨col, cell⟩ := cell
  simp only [cellFails, asked, Bool.and_eq_true, Bool.not_eq_true'] at h
  rw [ruleMatches, if_neg (by simp [h.1])]
  cases hv : svc.evaluateExpr cell vars with
  | error e => exact ⟨_, rfl⟩
  | ok v =>
    cases v with
    | bool b => simp [hv] at h
    | _ => exact ⟨_, rfl⟩

/-- A false cell at the front skips it. -/
theorem ruleMatches_false_first {idx : Nat} {cell : String × String} {rest : GoMap String}
    (h : cellFalse svc vars cell = true) :
    ruleMatches svc vars idx (cell :: rest) = .ok false := by
  obtain ⟨col, cell⟩ := cell
  simp only [cellFalse, asked, Bool.and_eq_true, Bool.not_eq_true'] at h
  rw [ruleMatches, if_neg (by simp [h.1])]
  cases hv : svc.evaluateExpr cell vars with
  | error e => simp [hv] at h
  | ok v =>
    cases v with
    | bool b =>
      cases b with
      | true => simp [hv] at h
      | false => rfl
    | _ => simp [hv] at h

/-- A rule with a cell of the kind has an order with such a cell in front. -/
theorem exists_first {p : String × String → Bool} {rule : DecisionTableRule}
    (h : rule.conditions.any p = true) :
    ∃ rule' cell rest, Reordered rule rule' ∧ p cell = true ∧ rule'.conditions = cell :: rest := by
  obtain ⟨cell, hmem, hp⟩ := List.any_eq_true.mp h
  obtain ⟨before, after, hsplit⟩ := List.append_of_mem hmem
  refine ⟨{ rule with conditions := cell :: (before ++ after) }, cell, before ++ after,
    ⟨?_, .refl _⟩, hp, rfl⟩
  rw [hsplit]
  exact List.perm_middle.symm

end Rules

/-! ## Tables -/

section Tables

variable {svc : Service} {now : Time} {vars : GoMap Value}

/-- One rule of an order, under the index of the rule it reorders. -/
def SameRule (x y : DecisionTableRule × Nat) : Prop :=
  Reordered x.1 y.1 ∧ x.2 = y.2

/-- A rule fails, or the rules that match are those whose cells are all true
    and no rule fails for certain. -/
theorem matchRules_reordered {rules rules' : List DecisionTableRule}
    (h : List.Forall₂ Reordered rules rules') (n : Nat) :
    (∃ e, matchRules svc vars (rules'.zipIdx n) = .error e) ∧
        (∃ rule ∈ rules, rule.hasFailing svc vars = true) ∨
      (∃ matched, matchRules svc vars (rules'.zipIdx n) = .ok matched ∧
        List.Forall₂ SameRule (passing svc vars (rules.zipIdx n)) matched) ∧
        ∀ rule ∈ rules, rule.hasFailing svc vars = true → rule.hasFalse svc vars = true := by
  induction h generalizing n with
  | nil => exact .inr ⟨⟨[], rfl, .nil⟩, by simp⟩
  | @cons rule rule' rules rules' hrule _ ih =>
    rw [List.zipIdx_cons, List.zipIdx_cons, matchRules]
    have hspec := ruleMatches_spec svc vars n rule'.conditions
    have hfalse : rule'.conditions.any (cellFalse svc vars) = rule.hasFalse svc vars :=
      hrule.hasFalse
    have hfailing : rule'.conditions.any (cellFails svc vars) = rule.hasFailing svc vars :=
      hrule.hasFailing
    rw [hfalse, hfailing] at hspec
    cases hm : ruleMatches svc vars n rule'.conditions with
    | error e =>
      rw [hm] at hspec
      exact .inl ⟨⟨e, rfl⟩, rule, List.mem_cons_self .., hspec⟩
    | ok b =>
      rw [hm] at hspec
      rcases ih (n + 1) with ⟨⟨e, he⟩, r, hr, hrf⟩ | ⟨⟨matched, hmatched, hall⟩, hcertain⟩
      · refine .inl ⟨⟨e, ?_⟩, r, List.mem_cons_of_mem _ hr, hrf⟩
        simp only [bind, Except.bind, he]
      · refine .inr ⟨?_, ?_⟩
        · simp only [bind, Except.bind, hmatched, pure, Except.pure]
          cases b with
          | true =>
            have hpass : rule.passes svc vars = true := by
              simp [DecisionTableRule.passes, hspec.1, hspec.2]
            refine ⟨_, rfl, ?_⟩
            rw [passing, List.filter_cons_of_pos (by simpa using hpass)]
            exact .cons ⟨hrule, rfl⟩ hall
          | false =>
            have hpass : rule.passes svc vars = false := by
              simp [DecisionTableRule.passes, hspec]
            refine ⟨_, rfl, ?_⟩
            rw [passing, List.filter_cons_of_neg (by simp [hpass])]
            exact hall
        · intro r hr hrf
          rcases List.mem_cons.mp hr with rfl | hr
          · cases b with
            | true => rw [hspec.2] at hrf; cases hrf
            | false => exact hspec
          · exact hcertain r hr hrf

/-- A table fails to match because one of its rules does. -/
theorem rule_of_matchRules_error {l : List (DecisionTableRule × Nat)} {e : String}
    (h : matchRules svc vars l = .error e) :
    ∃ x ∈ l, ruleMatches svc vars x.2 x.1.conditions = .error e := by
  induction l with
  | nil => cases h
  | cons x rest ih =>
    obtain ⟨rule, idx⟩ := x
    rw [matchRules] at h
    cases hm : ruleMatches svc vars idx rule.conditions with
    | error e' =>
      rw [hm] at h
      cases h
      exact ⟨(rule, idx), List.mem_cons_self .., hm⟩
    | ok b =>
      rw [hm] at h
      cases hrest : matchRules svc vars rest with
      | error e' =>
        rw [hrest] at h
        cases h
        obtain ⟨x, hx, hxe⟩ := ih hrest
        exact ⟨x, List.mem_cons_of_mem _ hx, hxe⟩
      | ok matched =>
        rw [hrest] at h
        cases h

/-- A rule that fails in this order fails the table. -/
theorem matchRules_error {rules : List DecisionTableRule} {rule : DecisionTableRule}
    (hmem : rule ∈ rules) (hfails : ∀ idx, ∃ e, ruleMatches svc vars idx rule.conditions = .error e)
    (n : Nat) : ∃ e, matchRules svc vars (rules.zipIdx n) = .error e := by
  induction rules generalizing n with
  | nil => cases hmem
  | cons r rest ih =>
    rw [List.zipIdx_cons, matchRules]
    rcases List.mem_cons.mp hmem with rfl | hmem
    · obtain ⟨e, he⟩ := hfails n
      exact ⟨e, by simp only [he, bind, Except.bind]⟩
    · cases hm : ruleMatches svc vars n r.conditions with
      | error e => exact ⟨e, rfl⟩
      | ok b =>
        obtain ⟨e, he⟩ := ih hmem (n + 1)
        exact ⟨e, by simp only [bind, Except.bind, he]⟩

end Tables

/-! ## Outputs -/

/-- The value of one output. -/
def outputOf (svc : Service) (now : Time) (vars : GoMap Value) (idx : Nat) (k : String)
    (raw : Json) : Except String Value :=
  let label := "DecisionTableOutputError: ruleIndex=" ++ toString idx ++ " output=" ++ quote k
  match raw.toValue with
  | .error e => .error (label ++ " unmarshal: " ++ e)
  | .ok v₀ =>
    match resolveTemplate svc now vars v₀ with
    | .error e => .error (label ++ " expr=" ++ quote v₀.templateExpr ++ " err=" ++ e)
    | .ok v => .ok v

/-- Two rows with the same outputs. -/
structure SameRow (a b : GoMap Value × Nat) : Prop where
  outputs : a.1.Perm b.1
  index : a.2 = b.2
  nodup : (a.1.map (·.1)).Nodup

/-- Two output maps with the same entries. -/
structure SameOutputs (a b : GoMap Value) : Prop where
  perm : a.Perm b
  nodup : (a.map (·.1)).Nodup

section Outputs

variable {svc : Service} {now : Time} {vars : GoMap Value}

theorem evaluateRuleOutputs_eq (idx : Nat) (outputs : GoMap Json) :
    evaluateRuleOutputs svc now vars idx outputs =
      outputs.traverse (outputOf svc now vars idx) := by
  induction outputs with
  | nil => rfl
  | cons o rest ih =>
    obtain ⟨k, raw⟩ := o
    rw [evaluateRuleOutputs, GoMap.traverse, outputOf]
    cases raw.toValue with
    | error e => rfl
    | ok v₀ =>
      simp only
      cases resolveTemplate svc now vars v₀ with
      | error e => rfl
      | ok v =>
        rw [ih]
        rfl

theorem outputOf_ok {idx : Nat} {k : String} {raw : Json} {v : Value} :
    outputOf svc now vars idx k raw = .ok v ↔ valueOn svc now vars raw = some v := by
  rw [valueOn_eq_some, outputOf]
  cases hr : raw.toValue with
  | error e => simp
  | ok v₀ =>
    cases hv : resolveTemplate svc now vars v₀ with
    | error e => simp [hv]
    | ok w => simp [hv]

theorem evaluateMatched_reordered {xs ys : List (DecisionTableRule × Nat)}
    (h : List.Forall₂ SameRule xs ys) (hkeys : ∀ x ∈ xs, (x.1.outputs.map (·.1)).Nodup) :
    Alike (List.Forall₂ SameRow) (evaluateMatched svc now vars xs)
      (evaluateMatched svc now vars ys) := by
  induction h with
  | nil => exact List.Forall₂.nil
  | @cons x y xs ys hxy _ ih =>
    obtain ⟨rule, idx⟩ := x
    obtain ⟨rule', idx'⟩ := y
    obtain ⟨hrule, rfl⟩ := hxy
    rw [evaluateMatched, evaluateMatched, evaluateRuleOutputs_eq, evaluateRuleOutputs_eq]
    have hrow := traverse_perm (f := outputOf svc now vars idx) hrule.outputs.symm
    have hnd := hkeys _ (List.mem_cons_self ..)
    cases ha : rule.outputs.traverse (outputOf svc now vars idx) with
    | error e =>
      cases hb : rule'.outputs.traverse (outputOf svc now vars idx) with
      | error e' => trivial
      | ok b =>
        rw [ha, hb] at hrow
        exact hrow.elim
    | ok a =>
      cases hb : rule'.outputs.traverse (outputOf svc now vars idx) with
      | error e' =>
        rw [ha, hb] at hrow
        exact hrow.elim
      | ok b =>
        rw [ha, hb] at hrow
        refine (ih fun x hx => hkeys x (List.mem_cons_of_mem _ hx)).bind fun r r' hr => ?_
        exact .cons ⟨hrow, rfl, (traverse_keys ha).symm ▸ hnd⟩ hr

/-- A failing output fails the rows. -/
theorem evaluateMatched_error {xs : List (DecisionTableRule × Nat)}
    {x : DecisionTableRule × Nat} (hx : x ∈ xs) {o : String × Json} (ho : o ∈ x.1.outputs)
    (hfails : valueOn svc now vars o.2 = none) :
    ∃ e, evaluateMatched svc now vars xs = .error e := by
  induction xs with
  | nil => cases hx
  | cons y rest ih =>
    obtain ⟨rule, idx⟩ := y
    rw [evaluateMatched]
    cases hr : evaluateRuleOutputs svc now vars idx rule.outputs with
    | error e => exact ⟨e, rfl⟩
    | ok row =>
      rcases List.mem_cons.mp hx with rfl | hx
      · rw [evaluateRuleOutputs_eq] at hr
        obtain ⟨v, hv⟩ := traverse_ok hr o ho
        rw [outputOf_ok.mp hv] at hfails
        cases hfails
      · obtain ⟨e, he⟩ := ih hx
        exact ⟨e, by simp only [bind, Except.bind, he]⟩

/-- And nothing else does. -/
theorem output_of_evaluateMatched_error {xs : List (DecisionTableRule × Nat)} {e : String}
    (h : evaluateMatched svc now vars xs = .error e) :
    ∃ x ∈ xs, ∃ o ∈ x.1.outputs, valueOn svc now vars o.2 = none := by
  induction xs with
  | nil => cases h
  | cons y rest ih =>
    obtain ⟨rule, idx⟩ := y
    rw [evaluateMatched] at h
    cases hr : evaluateRuleOutputs svc now vars idx rule.outputs with
    | error e' =>
      rw [evaluateRuleOutputs_eq] at hr
      obtain ⟨o, ho, hfails⟩ := traverse_error hr
      refine ⟨_, List.mem_cons_self .., o, ho, ?_⟩
      cases hv : valueOn svc now vars o.2 with
      | none => rfl
      | some v =>
        rw [outputOf_ok.mpr hv] at hfails
        cases hfails
    | ok row =>
      rw [hr] at h
      cases hrest : evaluateMatched svc now vars rest with
      | error e' =>
        rw [hrest] at h
        cases h
        obtain ⟨x, hx, o, ho, hnone⟩ := ih hrest
        exact ⟨x, List.mem_cons_of_mem _ hx, o, ho, hnone⟩
      | ok rows =>
        rw [hrest] at h
        cases h

end Outputs

/-! ## Hit policies -/

section Policies

variable {rows rows' : List (GoMap Value × Nat)}

theorem SameRow.column {a b : GoMap Value × Nat} (h : SameRow a b) (col : String) :
    column a.1 col = column b.1 col := by
  unfold Rochallor.column
  rw [GoMap.get_of_perm h.nodup h.outputs]

theorem columns_eq (h : List.Forall₂ SameRow rows rows') (col : String) :
    (rows.map (·.1)).map (fun m => column m col) =
      (rows'.map (·.1)).map fun m => column m col := by
  induction h with
  | nil => rfl
  | cons hrow _ ih => simp only [List.map_cons, hrow.column col, ih]

theorem buildColumnLists_perm (h : List.Forall₂ SameRow rows rows') :
    (buildColumnLists (rows.map (·.1))).Perm (buildColumnLists (rows'.map (·.1))) := by
  have hcols : ((rows.map (·.1)).flatMap fun m => m.map (·.1)).Perm
      ((rows'.map (·.1)).flatMap fun m => m.map (·.1)) := by
    induction h with
    | nil => exact .refl _
    | cons hrow _ ih =>
      simp only [List.map_cons, List.flatMap_cons]
      exact (hrow.outputs.map _).append ih
  unfold buildColumnLists
  simp only [columns_eq h]
  exact hcols.dedup.map _

theorem buildColumnLists_nodup (evaluated : List (GoMap Value)) :
    ((buildColumnLists evaluated).map (·.1)).Nodup := by
  have hkeys : (buildColumnLists evaluated).map (·.1) =
      (evaluated.flatMap fun m => m.map (·.1)).dedup := by
    simp [buildColumnLists, Function.comp_def]
  rw [hkeys]
  exact List.nodup_dedup _

/-- One aggregated column. -/
def aggregated (stepID : StepId) (suffix : Char) (col : String) (vals : List Value) :
    Except String Value :=
  match aggregateColumn suffix vals with
  | .error e => .error ("DecisionTableAggregatorTypeError: step " ++ quote stepID ++
      ", column=" ++ quote col ++ ": " ++ e)
  | .ok v => .ok v

theorem aggregateColumns_eq (stepID : StepId) (suffix : Char) (lists : GoMap (List Value)) :
    aggregateColumns stepID suffix lists = lists.traverse (aggregated stepID suffix) := by
  induction lists with
  | nil => rfl
  | cons x rest ih =>
    obtain ⟨col, vals⟩ := x
    rw [aggregateColumns, GoMap.traverse, aggregated]
    cases aggregateColumn suffix vals with
    | error e => rfl
    | ok v =>
      rw [ih]
      rfl

theorem anyConflict_eq_none {stepID : StepId} {first : GoMap Value} {firstIdx : Nat}
    {others : List (GoMap Value × Nat)} : anyConflict stepID first firstIdx others = none ↔
      ∀ x ∈ first, ∀ o ∈ others, x.2.deepEqual (column o.1 x.1) = true := by
  unfold anyConflict
  simp only [List.findSome?_eq_none_iff, ite_eq_left_iff, reduceCtorEq, imp_false, not_not]

theorem agrees_congr (h : List.Forall₂ SameRow rows rows') (x : String × Value) :
    (∀ o ∈ rows, x.2.deepEqual (column o.1 x.1) = true) ↔
      ∀ o ∈ rows', x.2.deepEqual (column o.1 x.1) = true := by
  induction h with
  | nil => rfl
  | cons ho _ ih => rw [List.forall_mem_cons, List.forall_mem_cons, ho.column, ih]

/-- The hit policy reads the rows as maps. -/
theorem applyHitPolicy_reordered (h : List.Forall₂ SameRow rows rows') (stepID : StepId)
    (policy : String) :
    Alike SameOutputs (applyHitPolicy stepID policy rows) (applyHitPolicy stepID policy rows') := by
  cases h with
  | nil => trivial
  | @cons a b others others' hrow hothers =>
    obtain ⟨first, idx⟩ := a
    obtain ⟨first', idx'⟩ := b
    have hfirst : SameOutputs first first' := ⟨hrow.outputs, hrow.nodup⟩
    have hlists := buildColumnLists_perm (.cons hrow hothers)
    have hnd := buildColumnLists_nodup (((first, idx) :: others).map (·.1))
    simp only [applyHitPolicy]
    by_cases hU : policy = "U"
    · rw [if_pos hU, if_pos hU]
      cases hothers with
      | nil => exact hfirst
      | cons _ _ => trivial
    rw [if_neg hU, if_neg hU]
    by_cases hF : policy = "F"
    · rw [if_pos hF, if_pos hF]
      exact hfirst
    rw [if_neg hF, if_neg hF]
    by_cases hA : policy = "A"
    · rw [if_pos hA, if_pos hA]
      have hconflict : anyConflict stepID first idx others = none ↔
          anyConflict stepID first' idx' others' = none := by
        rw [anyConflict_eq_none, anyConflict_eq_none]
        constructor
        · intro hall x hx
          exact (agrees_congr hothers x).mp (hall x (hrow.outputs.mem_iff.mpr hx))
        · intro hall x hx
          exact (agrees_congr hothers x).mpr (hall x (hrow.outputs.mem_iff.mp hx))
      cases hc : anyConflict stepID first idx others with
      | none =>
        rw [hconflict.mp hc]
        exact hfirst
      | some reason =>
        cases hc' : anyConflict stepID first' idx' others' with
        | none =>
          rw [hconflict.mpr hc'] at hc
          cases hc
        | some reason' => trivial
    rw [if_neg hA, if_neg hA]
    by_cases hRC : policy = "R" ∨ policy = "C"
    · rw [if_pos hRC, if_pos hRC]
      refine ⟨hlists.map _, ?_⟩
      rw [List.map_map]
      exact hnd
    rw [if_neg hRC, if_neg hRC]
    split
    · rename_i suffix _
      split
      · rw [aggregateColumns_eq, aggregateColumns_eq]
        have halike := traverse_perm (f := aggregated stepID suffix) hlists
        cases hx : GoMap.traverse (aggregated stepID suffix)
            (buildColumnLists (((first, idx) :: others).map (·.1))) with
        | error e =>
          cases hy : GoMap.traverse (aggregated stepID suffix)
              (buildColumnLists (((first', idx') :: others').map (·.1))) with
          | error e' => trivial
          | ok y =>
            rw [hx, hy] at halike
            exact halike.elim
        | ok x =>
          cases hy : GoMap.traverse (aggregated stepID suffix)
              (buildColumnLists (((first', idx') :: others').map (·.1))) with
          | error e' =>
            rw [hx, hy] at halike
            exact halike.elim
          | ok y =>
            rw [hx, hy] at halike
            exact ⟨halike, (traverse_keys hx).symm ▸ hnd⟩
      · exact ⟨.refl _, List.nodup_nil⟩
    · exact ⟨.refl _, List.nodup_nil⟩

end Policies

/-! ## The handler -/

/-- What the rules whose cells are all true output. -/
def settled (svc : Service) (now : Time) (vars : GoMap Value) (step : WorkflowStep)
    (rules : List DecisionTableRule) : Except String (GoMap Value) :=
  let matched := passing svc vars rules.zipIdx
  if matched.isEmpty then .error "DecisionTableNoRuleMatched"
  else do
    let rows ← evaluateMatched svc now vars matched
    applyHitPolicy step.id step.policy rows

/-- The outcome of a table that outputs the map. -/
def tabled (now : Time) (tx : Tx) (step : WorkflowStep) (vars outputs : GoMap Value) :
    HandlerOutcome :=
  if outputs.isEmpty then
    .advanced (closeByStep now tx step).inst
      (tx.db.column.completeStepExecutionByStepNoOutput now tx.inst.id step.id) [step.nextStep]
  else
    match (Value.obj (vars.overlay outputs)).json with
    | none => .error
    | some merged =>
      match tx.db.updateInstanceVariablesPartial tx.inst.id outputs with
      | .error _ => .error
      | .ok db => .advanced (closeByStep now ⟨tx.db, { tx.inst with vars := merged }⟩ step).inst
          (db.column.completeStepExecutionByStepNoOutput now tx.inst.id step.id) [step.nextStep]

section Handler

variable {svc : Service} {now : Time} {tx : Tx} {step : WorkflowStep} {vars : GoMap Value}
  {rules rules' : List DecisionTableRule}

theorem tableOutcome_eq (hvars : variablesToMap tx.inst.vars = .ok vars) :
    tableOutcome svc now tx step rules =
      match evaluateDecisionTable svc now vars { step with decisionTable := some ⟨rules⟩ } with
      | .error _ => .failed
      | .ok outputs => tabled now tx step vars outputs := by
  unfold tableOutcome handleDecisionTable
  simp only [hvars]
  cases evaluateDecisionTable svc now vars { step with decisionTable := some ⟨rules⟩ } with
  | error e => rfl
  | ok outputs =>
    dsimp only
    unfold tabled Value.json
    by_cases he : outputs.isEmpty = true
    · simp only [he, if_true]
      rfl
    · simp only [he]
      cases (Value.obj (vars.overlay outputs)).marshal with
      | error e => rfl
      | ok merged =>
        simp only [Except.toOption]
        cases tx.db.updateInstanceVariablesPartial tx.inst.id outputs with
        | error e => rfl
        | ok db => rfl

/-- A table that outputs does not fail the instance. -/
theorem tabled_ne_failed (outputs : GoMap Value) : tabled now tx step vars outputs ≠ .failed := by
  unfold tabled
  split
  · exact HandlerOutcome.noConfusion
  · split
    · exact HandlerOutcome.noConfusion
    · split
      · exact HandlerOutcome.noConfusion
      · exact HandlerOutcome.noConfusion

theorem tabled_congr (hvars : variablesToMap tx.inst.vars = .ok vars) {a b : GoMap Value}
    (h : SameOutputs a b) : tabled now tx step vars a = tabled now tx step vars b := by
  have hb : (b.map (·.1)).Nodup := (h.perm.map _).nodup_iff.mp h.nodup
  have hempty : a.isEmpty = b.isEmpty := by
    rw [Bool.eq_iff_iff, List.isEmpty_iff, List.isEmpty_iff]
    exact ⟨fun ha => by rw [ha] at h; exact h.perm.nil_eq.symm,
      fun hb => by rw [hb] at h; exact h.perm.eq_nil⟩
  have hvarsnd := variablesToMap_nodup hvars
  have hjson : (Value.obj (vars.overlay a)).json = (Value.obj (vars.overlay b)).json := by
    refine json_obj_congr (overlay_nodup hvarsnd) (overlay_nodup hvarsnd) fun k => ?_
    rw [GoMap.get_overlay, GoMap.get_overlay, GoMap.last_eq_get h.nodup, GoMap.last_eq_get hb,
      GoMap.get_of_perm h.nodup h.perm]
  unfold tabled
  rw [hempty, hjson]
  cases hj : (Value.obj (vars.overlay b)).json with
  | none => rfl
  | some merged =>
    -- both patches can be marshalled, and their merges have one column form
    have hp : ∀ {c : GoMap Value}, (c.map (·.1)).Nodup →
        (Value.obj (vars.overlay c)).json = some merged → ∃ p, marshalMembers c = .ok p := by
      intro c hc hmarshal
      obtain ⟨q, hq, -⟩ := marshal_obj_ok.mp (toOption_eq_some.mp hmarshal)
      refine marshalMembers_isOk fun e he => ?_
      refine json_of_marshalMembers hq _ (GoMap.mem_of_get (k := e.1) ?_)
      rw [GoMap.get_overlay, GoMap.last_eq_get hc, GoMap.get_of_mem hc he]
      rfl
    obtain ⟨p, hp₁⟩ := hp h.nodup (hjson.trans hj)
    obtain ⟨q, hq₁⟩ := hp hb hj
    have hlast : ∀ k, GoMap.last p k = GoMap.last q k := by
      intro k
      rw [GoMap.last_eq_get (marshalMembers_keys hp₁ ▸ h.nodup),
        GoMap.last_eq_get (marshalMembers_keys hq₁ ▸ hb)]
      refine Option.map_injective (Option.some_injective _) ?_
      rw [← get_marshalMembers hp₁, ← get_marshalMembers hq₁, GoMap.get_of_perm h.nodup h.perm]
    have hcol : (tx.db.patchVars tx.inst.id fun v => if b.isEmpty then v else Db.mergeJson v p).column =
        (tx.db.patchVars tx.inst.id fun v => if b.isEmpty then v else Db.mergeJson v q).column := by
      refine patchVars_column fun v => ?_
      split
      · rfl
      · exact mergeJson_congr hlast v
    simp only [updateInstanceVariablesPartial_eq hp₁, updateInstanceVariablesPartial_eq hq₁,
      hempty, hcol]

variable (now step) in
/-- An order in which no rule fails outputs what the rules whose cells are all
    true output. -/
theorem evaluate_of_matched (hkeys : ∀ r ∈ rules, (r.outputs.map (·.1)).Nodup)
    {matched : List (DecisionTableRule × Nat)}
    (hmatched : matchRules svc vars rules'.zipIdx = .ok matched)
    (hall : List.Forall₂ SameRule (passing svc vars rules.zipIdx) matched) :
    Alike SameOutputs (settled svc now vars step rules)
      (evaluateDecisionTable svc now vars { step with decisionTable := some ⟨rules'⟩ }) := by
  have hout : ∀ x ∈ passing svc vars rules.zipIdx, (x.1.outputs.map (·.1)).Nodup := by
    intro x hx
    exact hkeys x.1 (List.fst_mem_of_mem_zipIdx (List.mem_filter.mp hx).1)
  have hrows : Alike (List.Forall₂ SameRow)
      (evaluateMatched svc now vars (passing svc vars rules.zipIdx))
      (evaluateMatched svc now vars matched) := evaluateMatched_reordered hall hout
  have hempty : (passing svc vars rules.zipIdx).isEmpty = matched.isEmpty := by
    rw [Bool.eq_iff_iff, List.isEmpty_iff_length_eq_zero, List.isEmpty_iff_length_eq_zero,
      hall.length_eq]
  unfold settled
  simp only [evaluateDecisionTable, hmatched, bind, Except.bind, hempty]
  by_cases he : matched.isEmpty = true
  · simp only [he, if_true]
    trivial
  · simp only [he]
    exact hrows.bind fun rows rows' hr => applyHitPolicy_reordered hr step.id step.policy

/-- Why the rules that match for certain may output nothing. -/
theorem failsAnyway_of_settled {e : String} (h : settled svc now vars step rules = .error e) :
    FailsAnyway svc now vars step rules := by
  unfold settled at h
  simp only at h
  by_cases he : (passing svc vars rules.zipIdx).isEmpty = true
  · exact .unmatched (List.isEmpty_iff.mp he)
  · rw [if_neg he] at h
    cases hrows : evaluateMatched svc now vars (passing svc vars rules.zipIdx) with
    | error e' =>
      obtain ⟨x, hx, o, ho, hfails⟩ := output_of_evaluateMatched_error hrows
      exact .output x hx o ho hfails
    | ok rows =>
      rw [hrows] at h
      exact .policy rows hrows e h

/-- A table that fails anyway has nothing to output for the rules that match
    for certain, if no rule fails for certain. -/
theorem settled_of_failsAnyway (hfails : FailsAnyway svc now vars step rules)
    (hcertain : ∀ rule ∈ rules, rule.hasFailing svc vars = true → rule.hasFalse svc vars = true) :
    ∃ e, settled svc now vars step rules = .error e := by
  unfold settled
  cases hfails with
  | cell rule hmem hfailing hfalse =>
    rw [hcertain rule hmem hfailing] at hfalse
    cases hfalse
  | unmatched hnone => exact ⟨_, by rw [hnone]; rfl⟩
  | output x hmem o hout hnone =>
    obtain ⟨e, he⟩ := evaluateMatched_error hmem hout hnone
    have hne : (passing svc vars rules.zipIdx).isEmpty = false :=
      List.isEmpty_eq_false_iff.mpr (List.ne_nil_of_mem hmem)
    exact ⟨e, by simp only [hne, he, bind, Except.bind]; rfl⟩
  | policy rows hrows reason hreason =>
    by_cases he : (passing svc vars rules.zipIdx).isEmpty = true
    · exact ⟨"DecisionTableNoRuleMatched", by simp only [he, if_true]⟩
    · exact ⟨reason, by simp only [he, hrows, bind, Except.bind]; exact hreason⟩

variable (svc now step) in
/-- The outcome in any order: the instance is failed over a rule, or it is the
    outcome of the rules whose cells are all true. -/
theorem tableOutcome_reordered (hvars : variablesToMap tx.inst.vars = .ok vars)
    (hkeys : ∀ r ∈ rules, (r.outputs.map (·.1)).Nodup) (h : List.Forall₂ Reordered rules rules') :
    (tableOutcome svc now tx step rules' = .failed ∧
        ∃ rule ∈ rules, rule.hasFailing svc vars = true) ∨
      (tableOutcome svc now tx step rules' =
          match settled svc now vars step rules with
          | .error _ => .failed
          | .ok outputs => tabled now tx step vars outputs) ∧
        ∀ rule ∈ rules, rule.hasFailing svc vars = true → rule.hasFalse svc vars = true := by
  rw [tableOutcome_eq hvars]
  rcases matchRules_reordered h 0 with
    ⟨⟨e, he⟩, hfail⟩ | ⟨⟨matched, hmatched, hall⟩, hcertain⟩
  · refine .inl ⟨?_, hfail⟩
    simp only [evaluateDecisionTable, he, bind, Except.bind]
  · refine .inr ⟨?_, hcertain⟩
    have halike := evaluate_of_matched now step hkeys hmatched hall
    cases hs : settled svc now vars step rules with
    | error e =>
      cases hev : evaluateDecisionTable svc now vars { step with decisionTable := some ⟨rules'⟩ } with
      | error e' => rfl
      | ok outputs =>
        rw [hs, hev] at halike
        exact halike.elim
    | ok a =>
      cases hev : evaluateDecisionTable svc now vars { step with decisionTable := some ⟨rules'⟩ } with
      | error e' =>
        rw [hs, hev] at halike
        exact halike.elim
      | ok b =>
        rw [hs, hev] at halike
        exact (tabled_congr hvars halike).symm

end Handler

/-! ## The condition -/

/-- The order has a cell of the given kind in front of the rule, if the rule
    has one. -/
structure Leads (p : String × String → Bool) (rule rule' : DecisionTableRule) : Prop where
  reordered : Reordered rule rule'
  first : rule.conditions.any p = true →
    ∃ cell rest, p cell = true ∧ rule'.conditions = cell :: rest

theorem exists_order (p : String × String → Bool) (rules : List DecisionTableRule) :
    ∃ rules', List.Forall₂ (Leads p) rules rules' := by
  induction rules with
  | nil => exact ⟨[], .nil⟩
  | cons rule rest ih =>
    obtain ⟨rest', hrest⟩ := ih
    by_cases hp : rule.conditions.any p = true
    · obtain ⟨rule', cell, cells, hrule, hcell, hcons⟩ := exists_first hp
      exact ⟨rule' :: rest', .cons ⟨hrule, fun _ => ⟨cell, cells, hcell, hcons⟩⟩ hrest⟩
    · exact ⟨rule :: rest', .cons ⟨.refl rule, fun h => absurd h hp⟩ hrest⟩

theorem leads_left {p : String × String → Bool} {rules rules' : List DecisionTableRule}
    (h : List.Forall₂ (Leads p) rules rules') {rule : DecisionTableRule} (hmem : rule ∈ rules) :
    ∃ rule' ∈ rules', Leads p rule rule' := by
  induction h with
  | nil => cases hmem
  | cons hrule _ ih =>
    rcases List.mem_cons.mp hmem with rfl | hmem
    · exact ⟨_, List.mem_cons_self .., hrule⟩
    · obtain ⟨rule', hmem', hlead⟩ := ih hmem
      exact ⟨rule', List.mem_cons_of_mem _ hmem', hlead⟩

theorem leads_right {p : String × String → Bool} {rules rules' : List DecisionTableRule}
    (h : List.Forall₂ (Leads p) rules rules') {rule' : DecisionTableRule} (hmem : rule' ∈ rules') :
    ∃ rule ∈ rules, Leads p rule rule' := by
  induction h with
  | nil => cases hmem
  | cons hrule _ ih =>
    rcases List.mem_cons.mp hmem with rfl | hmem
    · exact ⟨_, List.mem_cons_self .., hrule⟩
    · obtain ⟨rule, hmem', hlead⟩ := ih hmem
      exact ⟨rule, List.mem_cons_of_mem _ hmem', hlead⟩

section Condition

variable {svc : Service} {now : Time} {tx : Tx} {step : WorkflowStep} {vars : GoMap Value}
  {rules : List DecisionTableRule}

/-- Failing cells first: a contested rule fails the instance. -/
theorem exists_failed (hvars : variablesToMap tx.inst.vars = .ok vars) {rule : DecisionTableRule}
    (hmem : rule ∈ rules) (hfailing : rule.hasFailing svc vars = true) :
    ∃ rules', List.Forall₂ Reordered rules rules' ∧
      tableOutcome svc now tx step rules' = .failed := by
  obtain ⟨rules', hlead⟩ := exists_order (cellFails svc vars) rules
  obtain ⟨rule', hmem', hrule⟩ := leads_left hlead hmem
  obtain ⟨cell, cells, hcell, hcons⟩ := hrule.first hfailing
  obtain ⟨e, he⟩ := matchRules_error hmem'
    (fun idx => hcons ▸ ruleMatches_failing_first hcell) 0
  refine ⟨rules', hlead.imp fun _ _ h => h.reordered, ?_⟩
  rw [tableOutcome_eq hvars]
  simp only [evaluateDecisionTable, he, bind, Except.bind]

/-- False cells first: a contested rule is skipped. -/
theorem exists_skipped (hvars : variablesToMap tx.inst.vars = .ok vars)
    (hkeys : ∀ r ∈ rules, (r.outputs.map (·.1)).Nodup) :
    ∃ rules', List.Forall₂ Reordered rules rules' ∧
      (tableOutcome svc now tx step rules' = .failed → FailsAnyway svc now vars step rules) := by
  obtain ⟨rules', hlead⟩ := exists_order (cellFalse svc vars) rules
  have hreordered : List.Forall₂ Reordered rules rules' := hlead.imp fun _ _ h => h.reordered
  refine ⟨rules', hreordered, ?_⟩
  intro hfailed
  rw [tableOutcome_eq hvars] at hfailed
  cases hm : matchRules svc vars rules'.zipIdx with
  | error e =>
    -- the rule that fails has no false cell, or that would come first
    obtain ⟨x, hx, hxe⟩ := rule_of_matchRules_error hm
    obtain ⟨rule, hmem, hrule⟩ := leads_right hlead (List.fst_mem_of_mem_zipIdx hx)
    have hspec := ruleMatches_spec svc vars x.2 x.1.conditions
    rw [hxe] at hspec
    refine .cell rule hmem (hrule.reordered.hasFailing ▸ hspec) ?_
    cases hfalse : rule.hasFalse svc vars with
    | false => rfl
    | true =>
      obtain ⟨cell, cells, hcell, hcons⟩ := hrule.first hfalse
      rw [hcons, ruleMatches_false_first hcell] at hxe
      cases hxe
  | ok matched =>
    rcases matchRules_reordered hreordered 0 with
      ⟨⟨e, he⟩, -⟩ | ⟨⟨matched', hmatched, hall⟩, -⟩
    · rw [hm] at he
      cases he
    · have halike := evaluate_of_matched now step hkeys hmatched hall
      cases hs : settled svc now vars step rules with
      | error e => exact failsAnyway_of_settled hs
      | ok outputs =>
        cases hev : evaluateDecisionTable svc now vars
            { step with decisionTable := some ⟨rules'⟩ } with
        | error e =>
          rw [hs, hev] at halike
          exact halike.elim
        | ok b =>
          rw [hev] at hfailed
          exact absurd hfailed (tabled_ne_failed b)

end Condition

/-- All iteration orders of a decision table have one outcome if and only if
    the variables are no object, no rule has both a false cell and a failing
    one, or the table fails whatever becomes of such rules. -/
theorem decision_table_order_free_iff (svc : Service) (now : Time) (tx : Tx) (step : WorkflowStep)
    (dt : DecisionTable) (hkeys : ∀ r ∈ dt.rules, (r.outputs.map (·.1)).Nodup) :
    (∀ rules rules', List.Forall₂ Reordered dt.rules rules →
      List.Forall₂ Reordered dt.rules rules' →
      tableOutcome svc now tx step rules = tableOutcome svc now tx step rules') ↔
      ∀ vars, variablesToMap tx.inst.vars = .ok vars →
        (∀ r ∈ dt.rules, r.contested svc vars = false) ∨
          FailsAnyway svc now vars step dt.rules := by
  constructor
  · intro hsame vars hvars
    by_cases hfree : ∀ r ∈ dt.rules, r.contested svc vars = false
    · exact .inl hfree
    · simp only [not_forall, Bool.not_eq_false] at hfree
      obtain ⟨rule, hmem, hcontested⟩ := hfree
      rw [DecisionTableRule.contested, Bool.and_eq_true] at hcontested
      obtain ⟨rules, hrules, hfailed⟩ := exists_failed hvars hmem hcontested.2
      obtain ⟨rules', hrules', hskipped⟩ := exists_skipped hvars hkeys
      exact .inr (hskipped ((hsame rules' rules hrules' hrules).trans hfailed))
  · intro hcond rules rules' hrules hrules'
    cases hvars : variablesToMap tx.inst.vars with
    | error e => simp [tableOutcome, handleDecisionTable, hvars]
    | ok vars =>
      have hout := tableOutcome_reordered svc now step hvars hkeys hrules
      have hout' := tableOutcome_reordered svc now step hvars hkeys hrules'
      rcases hcond vars hvars with hfree | hfails
      · -- a failing rule has no false cell, so it fails in both orders
        have hfalse : ∀ r ∈ dt.rules, r.hasFailing svc vars = true → r.hasFalse svc vars = false := by
          intro r hr hfailing
          have hr' := hfree r hr
          rw [DecisionTableRule.contested, hfailing, Bool.and_true] at hr'
          exact hr'
        rcases hout with ⟨hf, r, hr, hrf⟩ | ⟨hs, hcertain⟩
        · rcases hout' with ⟨hf', -⟩ | ⟨-, hcertain⟩
          · rw [hf, hf']
          · have := hfalse r hr hrf
            rw [hcertain r hr hrf] at this
            cases this
        · rcases hout' with ⟨-, r, hr, hrf⟩ | ⟨hs', -⟩
          · have := hfalse r hr hrf
            rw [hcertain r hr hrf] at this
            cases this
          · rw [hs, hs']
      · have hfailed : ∀ {o : HandlerOutcome}, (o = .failed ∧
              ∃ rule ∈ dt.rules, rule.hasFailing svc vars = true) ∨
            (o = match settled svc now vars step dt.rules with
              | .error _ => .failed
              | .ok outputs => tabled now tx step vars outputs) ∧
              (∀ rule ∈ dt.rules, rule.hasFailing svc vars = true →
                rule.hasFalse svc vars = true) → o = .failed := by
          rintro o (⟨hf, -⟩ | ⟨hs, hcertain⟩)
          · exact hf
          · obtain ⟨e, he⟩ := settled_of_failsAnyway hfails hcertain
            rw [hs, he]
        rw [hfailed hout, hfailed hout']

/-- Grades everyone basic whom the first rule, with these cells, passes by. -/
def grading (cells : GoMap String) : DecisionTable where
  rules := [
    { conditions := cells, outputs := [("tier", .str "gold")] },
    { conditions := [], outputs := [("tier", .str "basic")] }]

def gradingStep (cells : GoMap String) : WorkflowStep where
  id := "grade"
  name := "grade"
  type := .decisionTable
  nextStep := "end"
  decisionTable := some (grading cells)
  hitPolicy := "F"

theorem decision_table_order_free_iff_grading :
    tableOutcome (.ofList []) 0 (countingTx "grade")
        (gradingStep [("age", "false"), ("income", "true")])
        (grading [("age", "false"), ("income", "true")]).rules =
      tableOutcome (.ofList []) 0 (countingTx "grade")
        (gradingStep [("age", "false"), ("income", "true")])
        (grading [("income", "true"), ("age", "false")]).rules := by
  refine (decision_table_order_free_iff (.ofList []) 0 (countingTx "grade")
    (gradingStep [("age", "false"), ("income", "true")])
    (grading [("age", "false"), ("income", "true")]) (by decide)).mpr ?_ _ _
    (.cons (.refl _) (.cons (.refl _) .nil)) (.cons ⟨.swap .., .refl _⟩ (.cons (.refl _) .nil))
  intro vars _
  refine .inl fun r hr => ?_
  simp only [grading, List.mem_cons, List.not_mem_nil, or_false] at hr
  rcases hr with rfl | rfl <;> rfl

/-- The first rule is skipped or fails the instance. -/
theorem grading_depends_on_order :
    ¬ ∀ (svc : Service) (now : Time) (tx : Tx) (step : WorkflowStep) (dt : DecisionTable),
      step.type = .decisionTable → step.decisionTable = some dt →
      (∀ r ∈ dt.rules, (r.conditions.map (·.1)).Nodup ∧ (r.outputs.map (·.1)).Nodup) →
      ∀ rules rules', List.Forall₂ Reordered dt.rules rules →
        List.Forall₂ Reordered dt.rules rules' →
        tableOutcome svc now tx step rules = tableOutcome svc now tx step rules' := by
  intro h
  have hsame := h (.ofList []) 0 (countingTx "grade")
    (gradingStep [("age", "false"), ("income", "oops")]) _ rfl rfl (by decide)
    (grading [("age", "false"), ("income", "oops")]).rules
    (grading [("income", "oops"), ("age", "false")]).rules
    (.cons (.refl _) (.cons (.refl _) .nil))
    (.cons ⟨.swap .., .refl _⟩ (.cons (.refl _) .nil))
  have hfailed : ∀ o o' : HandlerOutcome, o = o' →
      (match o with | .failed => true | _ => false) =
        (match o' with | .failed => true | _ => false) := by
    rintro o o' rfl
    rfl
  exact absurd (hfailed _ _ hsame) (by decide +kernel)

end Rochallor
