import Rochallor.Modeller.Validate
import Rochallor.Safety.Collecting
import Rochallor.Safety.Unanimity

/-! # Rules behind a catch-all

    The modeller warns that a rule behind a catch-all is unreachable, whatever
    the hit policy.  `handleDecisionTable` evaluates that rule all the same: it
    can fail the step, and except under policy `F` its row counts.

    `policyResult` is the hit policy on rows; the effect of a deleted rule is
    the effect of a row that is left out.
-/

namespace Rochallor

/-! ## The hit policies on rows -/

/-- What a collect policy makes of the list of a column; `none` if it needs
    numbers and finds another value. -/
def collected (policy : String) (vals : List Value) : Option Value :=
  if policy = "R" ∨ policy = "C" then some (.arr vals)
  else (aggregateColumn (policy.toList.getLast?.getD ' ') vals).toOption

/-- Some column cannot be collected. -/
def uncollectable (policy : String) (rows : List (GoMap Value)) : Bool :=
  (columnsOf rows).any fun col => (collected policy (columnList rows col)).isNone

/-- The outputs of a collect policy. -/
def collectedRow (policy : String) (rows : List (GoMap Value)) : GoMap Value :=
  (columnsOf rows).map fun col => (col, (collected policy (columnList rows col)).getD .null)

def collectResult (vars : GoMap Value) (policy : String) (rows : List (GoMap Value)) : TableResult :=
  if uncollectable policy rows then .failed else writtenResult vars (collectedRow policy rows)

/-- The result of a hit policy on the rows of the rules that match. -/
def policyResult (vars : GoMap Value) (policy : String) (rows : List (GoMap Value)) : TableResult :=
  match rows with
  | [] => .failed
  | first :: others =>
    if policy = "U" then if others.isEmpty then writtenResult vars first else .failed
    else if policy = "F" then writtenResult vars first
    else if policy = "A" then anyResult vars (first :: others)
    else if policy ∈ collectPolicies then collectResult vars policy (first :: others)
    else writtenResult vars []

section Policies

variable {vars : GoMap Value} {rows : List (GoMap Value)} {policy : String} {stepID : StepId}

variable (stepID) in
theorem aggregateColumns_toOption (suffix : Char) (rows : List (GoMap Value)) :
    match aggregateColumns stepID suffix (buildColumnLists rows) with
    | .error _ => ∃ col ∈ columnsOf rows, (aggregateColumn suffix (columnList rows col)).toOption = none
    | .ok delta =>
      (∀ col ∈ columnsOf rows, (aggregateColumn suffix (columnList rows col)).toOption.isSome) ∧
        delta = (columnsOf rows).map fun col =>
          (col, (aggregateColumn suffix (columnList rows col)).toOption.getD .null) := by
  rw [aggregateColumns_eq, buildColumnLists_eq]
  induction columnsOf rows with
  | nil => exact ⟨by simp, rfl⟩
  | cons col rest ih =>
    rw [List.map_cons, GoMap.traverse, aggregated]
    cases ha : aggregateColumn suffix (columnList rows col) with
    | error e => exact ⟨col, List.mem_cons_self .., by rw [ha]; rfl⟩
    | ok v =>
      cases hr : GoMap.traverse (aggregated stepID suffix)
          (rest.map fun col => (col, columnList rows col)) with
      | error e =>
        rw [hr] at ih
        obtain ⟨c, hc, hnone⟩ := ih
        exact ⟨c, List.mem_cons_of_mem _ hc, hnone⟩
      | ok delta =>
        rw [hr] at ih
        obtain ⟨hsome, hdelta⟩ := ih
        refine ⟨List.forall_mem_cons.mpr ⟨by rw [ha]; rfl, hsome⟩, ?_⟩
        rw [List.map_cons, ha, ← hdelta]
        rfl

variable (stepID) in
theorem aggregateColumns_uncollectable {suffix : Char} (hpolicy : (policy, suffix) ∈ aggregators)
    (rows : List (GoMap Value)) :
    match aggregateColumns stepID suffix (buildColumnLists rows) with
    | .error _ => uncollectable policy rows = true
    | .ok delta => uncollectable policy rows = false ∧ delta = collectedRow policy rows := by
  have hcollected : ∀ vals, collected policy vals = (aggregateColumn suffix vals).toOption := by
    intro vals
    simp only [aggregators, List.mem_cons, List.not_mem_nil, or_false, Prod.mk.injEq] at hpolicy
    rcases hpolicy with ⟨rfl, rfl⟩ | ⟨rfl, rfl⟩ | ⟨rfl, rfl⟩ | ⟨rfl, rfl⟩ <;> rfl
  have hspec := aggregateColumns_toOption stepID suffix rows
  simp only [uncollectable, collectedRow, hcollected]
  cases ha : aggregateColumns stepID suffix (buildColumnLists rows) with
  | error e =>
    rw [ha] at hspec
    obtain ⟨col, hcol, hnone⟩ := hspec
    exact List.any_eq_true.mpr ⟨col, hcol, by rw [hnone]; rfl⟩
  | ok delta =>
    rw [ha] at hspec
    refine ⟨List.any_eq_false.mpr fun col hcol => ?_, hspec.2⟩
    have := hspec.1 col hcol
    simpa using Option.isSome_iff_ne_none.mp this

/-- An unknown policy outputs nothing. -/
theorem applyHitPolicy_unknown (h : policy ∉ "U" :: "F" :: "A" :: collectPolicies)
    (first : GoMap Value × Nat) (others : List (GoMap Value × Nat)) :
    applyHitPolicy stepID policy (first :: others) = .ok [] := by
  simp only [collectPolicies, List.mem_cons, List.not_mem_nil, or_false, not_or] at h
  obtain ⟨hU, hF, hA, hR, hC, hsum, hcount, hmax, hmin⟩ := h
  unfold applyHitPolicy
  simp only [hU, hF, hA, hR, hC, or_self, if_false]
  split
  · rename_i suffix htext
    split
    · rename_i hsuffix
      have hpolicy : policy = String.ofList ['C', suffix] := by
        rw [← htext, String.ofList_toList]
      simp only [List.contains_eq_mem, List.mem_cons, List.not_mem_nil, or_false,
        decide_eq_true_eq] at hsuffix
      rcases hsuffix with rfl | rfl | rfl | rfl
      · exact absurd hpolicy hsum
      · exact absurd hpolicy hcount
      · exact absurd hpolicy hmax
      · exact absurd hpolicy hmin
    · rfl
  · rfl

end Policies

/-! ## The handler -/

section Handler

variable {svc : Service} {now : Time} {tx : Tx} {step : WorkflowStep} {vars : GoMap Value}
  {rules : List DecisionTableRule}

theorem collectedRow_keys (policy : String) (rows : List (GoMap Value)) :
    ((collectedRow policy rows).map (·.1)).Nodup := by
  rw [collectedRow, List.map_map]
  exact (List.map_id _).symm ▸ List.nodup_dedup _

variable (now step) in
/-- The outputs of a collect policy, or the failure. -/
theorem collect_result (hvars : variablesToMap tx.inst.vars = .ok vars) {policy : String}
    (hpolicy : policy ∈ collectPolicies) {rows : List (GoMap Value × Nat)} (hne : rows ≠ []) :
    (∀ e, applyHitPolicy step.id policy rows = .error e →
      collectResult vars policy (rows.map (·.1)) = .failed) ∧
    ∀ outputs, applyHitPolicy step.id policy rows = .ok outputs →
      collectResult vars policy (rows.map (·.1)) = (tabled now tx step vars outputs).result := by
  have hlists : ∀ p, p = "R" ∨ p = "C" → collectResult vars p (rows.map (·.1)) =
      (tabled now tx step vars ((buildColumnLists (rows.map (·.1))).map fun e =>
        (e.1, Value.arr e.2))).result := by
    intro p hp
    have hcollected : ∀ vals, collected p vals = some (.arr vals) := fun vals => if_pos hp
    have hrow : collectedRow p (rows.map (·.1)) =
        (buildColumnLists (rows.map (·.1))).map fun e => (e.1, Value.arr e.2) := by
      rw [buildColumnLists_eq, List.map_map]
      exact List.map_congr_left fun col _ => by rw [hcollected]; rfl
    have hsome : uncollectable p (rows.map fun x => x.1) = false := by
      simp [uncollectable, hcollected]
    rw [← hrow, tabled_result hvars (collectedRow_keys ..), collectResult, hsome]
    rfl
  have hlists' : ∀ p, p = "R" ∨ p = "C" → applyHitPolicy step.id p rows =
        .ok ((buildColumnLists (rows.map (·.1))).map fun e => (e.1, Value.arr e.2)) →
      (∀ e, applyHitPolicy step.id p rows = .error e →
        collectResult vars p (rows.map (·.1)) = .failed) ∧
      ∀ outputs, applyHitPolicy step.id p rows = .ok outputs →
        collectResult vars p (rows.map (·.1)) = (tabled now tx step vars outputs).result := by
    intro p hp hok
    rw [hok]
    refine ⟨by rintro e ⟨⟩, ?_⟩
    rintro outputs ⟨⟩
    exact hlists p hp
  have haggregate : ∀ {p : String} {suffix : Char}, (p, suffix) ∈ aggregators →
      applyHitPolicy step.id p rows =
        aggregateColumns step.id suffix (buildColumnLists (rows.map (·.1))) →
      (∀ e, applyHitPolicy step.id p rows = .error e →
        collectResult vars p (rows.map (·.1)) = .failed) ∧
      ∀ outputs, applyHitPolicy step.id p rows = .ok outputs →
        collectResult vars p (rows.map (·.1)) = (tabled now tx step vars outputs).result := by
    intro p suffix hp happly
    have hspec := aggregateColumns_uncollectable step.id hp (rows.map (·.1))
    rw [happly]
    cases ha : aggregateColumns step.id suffix (buildColumnLists (rows.map (·.1))) with
    | error e =>
      rw [ha] at hspec
      refine ⟨fun _ _ => if_pos hspec, ?_⟩
      rintro outputs ⟨⟩
    | ok delta =>
      rw [ha] at hspec
      refine ⟨by rintro e ⟨⟩, ?_⟩
      rintro outputs ⟨⟩
      rw [collectResult, if_neg (by rw [hspec.1]; decide), ← hspec.2]
      exact (tabled_result hvars (hspec.2 ▸ collectedRow_keys ..)).symm
  obtain ⟨x, others, rfl⟩ := List.exists_cons_of_ne_nil hne
  simp only [collectPolicies, List.mem_cons, List.not_mem_nil, or_false] at hpolicy
  rcases hpolicy with rfl | rfl | rfl | rfl | rfl | rfl
  · exact hlists' "R" (.inl rfl) rfl
  · exact hlists' "C" (.inr rfl) rfl
  · exact haggregate (show ("C+", '+') ∈ aggregators by decide) rfl
  · exact haggregate (show ("C#", '#') ∈ aggregators by decide) rfl
  · exact haggregate (show ("C>", '>') ∈ aggregators by decide) rfl
  · exact haggregate (show ("C<", '<') ∈ aggregators by decide) rfl

/-- A table none of whose rules fails results in its policy on the rows. -/
theorem tableResult_policy (hvars : variablesToMap tx.inst.vars = .ok vars)
    (hkeys : ∀ r ∈ rules, (r.outputs.map (·.1)).Nodup)
    (hok : ∀ r ∈ rules, r.fails svc now vars = false) :
    tableResult svc now tx step rules =
      policyResult vars step.policy (matchedRows svc now vars rules) := by
  by_cases hA : step.hitPolicy = "A"
  · have hp : step.policy = "A" := by
      unfold WorkflowStep.policy
      rw [hA]
      rfl
    rw [tableResult_any hA hvars hkeys hok, hp]
    cases matchedRows svc now vars rules with
    | nil => rfl
    | cons first others => rfl
  have hA' : step.policy ≠ "A" := by
    unfold WorkflowStep.policy
    split
    · decide
    · exact hA
  obtain ⟨rows, hrows, hout⟩ := tableOutcome_of_rows tx step hvars hok
  unfold tableResult
  rw [hout, ← hrows]
  cases rows with
  | nil => rfl
  | cons x others =>
    obtain ⟨first, idx⟩ := x
    have hnd : (first.map (·.1)).Nodup := by
      have hmem : first ∈ matchedRows svc now vars rules := by
        rw [← hrows]
        exact List.mem_cons_self ..
      obtain ⟨r, hr, rfl⟩ := List.mem_map.mp hmem
      rw [row_keys]
      exact hkeys r (List.mem_filter.mp hr).1
    rw [List.map_cons, policyResult]
    by_cases hU : step.policy = "U"
    · rw [if_pos hU, hU, applyHitPolicy, if_pos rfl]
      cases others with
      | nil => exact tabled_result hvars hnd
      | cons y rest => rfl
    by_cases hF : step.policy = "F"
    · rw [if_neg hU, if_pos hF, hF]
      exact tabled_result hvars hnd
    rw [if_neg hU, if_neg hF, if_neg hA']
    by_cases hcollect : step.policy ∈ collectPolicies
    · rw [if_pos hcollect]
      have hresult := collect_result now step hvars hcollect (List.cons_ne_nil (first, idx) others)
      cases happly : applyHitPolicy step.id step.policy ((first, idx) :: others) with
      | error e => exact (hresult.1 e happly).symm
      | ok outputs => exact (hresult.2 outputs happly).symm
    · rw [if_neg hcollect, applyHitPolicy_unknown
        (by simp only [List.mem_cons, not_or]; exact ⟨hU, hF, hA', hcollect⟩)]
      exact tabled_result hvars List.nodup_nil

theorem tableResult_of_fails (hvars : variablesToMap tx.inst.vars = .ok vars)
    (h : ∃ r ∈ rules, r.fails svc now vars = true) :
    tableResult svc now tx step rules = .failed := by
  rw [tableResult, tableOutcome_of_fails hvars h]
  rfl

end Handler

/-! ## A row that is left out -/

/-- The policy fails on the rows. -/
def PolicyFails (policy : String) (rows : List (GoMap Value)) : Prop :=
  policy = "U" ∧ 1 < rows.length ∨
  policy = "A" ∧ (∃ first others, rows = first :: others ∧ others.all (agrees first) = false) ∨
  policy ∈ collectPolicies ∧ uncollectable policy rows = true

/-- The policy comes to the same with the row as without it. -/
def Indifferent (vars : GoMap Value) (policy : String) (before : List (GoMap Value))
    (row : GoMap Value) (after : List (GoMap Value)) : Prop :=
  policy = "U" ∧ 1 < (before ++ after).length ∨
  policy = "F" ∨
  policy = "A" ∧ (∃ first others, before = first :: others ∧
    (agrees first row = true ∨ (others ++ after).all (agrees first) = false)) ∨
  policy ∈ collectPolicies ∧
    collectResult vars policy (before ++ row :: after) = collectResult vars policy (before ++ after) ∨
  policy ∉ "U" :: "F" :: "A" :: collectPolicies

section Row

variable {vars first row : GoMap Value} {policy : String} {rows others after : List (GoMap Value)}

theorem writtenResult_ne_failed (vars outputs : GoMap Value) :
    writtenResult vars outputs ≠ .failed := by
  unfold writtenResult
  split
  · exact TableResult.noConfusion
  · exact TableResult.noConfusion

/-- The policies are different ones. -/
theorem policy_cases (policy : String) :
    policy = "U" ∨ policy = "F" ∨ policy = "A" ∨
      (policy ∈ collectPolicies ∧ policy ≠ "U" ∧ policy ≠ "F" ∧ policy ≠ "A") ∨
      policy ∉ "U" :: "F" :: "A" :: collectPolicies := by
  by_cases hcollect : policy ∈ collectPolicies
  · refine .inr (.inr (.inr (.inl ⟨hcollect, ?_, ?_, ?_⟩)))
    · rintro rfl
      exact absurd hcollect (by decide)
    · rintro rfl
      exact absurd hcollect (by decide)
    · rintro rfl
      exact absurd hcollect (by decide)
  · simp only [List.mem_cons, hcollect, or_false]
    tauto

theorem policyResult_collect (h : policy ∈ collectPolicies) (hU : policy ≠ "U") (hF : policy ≠ "F")
    (hA : policy ≠ "A") : policyResult vars policy (first :: others) =
      collectResult vars policy (first :: others) := by
  rw [policyResult, if_neg hU, if_neg hF, if_neg hA, if_pos h]

theorem policyResult_unknown (h : policy ∉ "U" :: "F" :: "A" :: collectPolicies) :
    policyResult vars policy (first :: others) = writtenResult vars [] := by
  simp only [List.mem_cons, not_or] at h
  rw [policyResult, if_neg h.1, if_neg h.2.1, if_neg h.2.2.1, if_neg h.2.2.2]

theorem policyResult_eq_failed_iff :
    policyResult vars policy (first :: others) = .failed ↔ PolicyFails policy (first :: others) := by
  have hwritten := writtenResult_ne_failed vars
  rcases policy_cases policy with rfl | rfl | rfl | ⟨hcollect, hU, hF, hA⟩ | hunknown
  · have hnot : "U" ∉ collectPolicies := by decide
    cases others with
    | nil => simp [policyResult, PolicyFails, hwritten, hnot]
    | cons o rest => simp [policyResult, PolicyFails]
  · have hnot : "F" ∉ collectPolicies := by decide
    simp [policyResult, PolicyFails, hwritten, hnot]
  · have hnot : "A" ∉ collectPolicies := by decide
    show anyResult vars (first :: others) = .failed ↔ _
    rw [anyResult]
    cases hall : others.all (agrees first) with
    | true =>
      rw [if_pos rfl]
      refine iff_of_false (hwritten first) ?_
      rintro (⟨h, -⟩ | ⟨-, first', others', heq, hfalse⟩ | ⟨h, -⟩)
      · exact absurd h (by decide)
      · obtain ⟨rfl, rfl⟩ := List.cons.inj heq
        rw [hall] at hfalse
        cases hfalse
      · exact hnot h
    | false => exact iff_of_true rfl (.inr (.inl ⟨rfl, first, others, rfl, hall⟩))
  · rw [policyResult_collect hcollect hU hF hA, collectResult]
    cases hun : uncollectable policy (first :: others) with
    | true => exact iff_of_true rfl (.inr (.inr ⟨hcollect, hun⟩))
    | false =>
      refine iff_of_false (hwritten _) ?_
      rintro (⟨h, -⟩ | ⟨h, -⟩ | ⟨-, htrue⟩)
      · exact hU h
      · exact hA h
      · rw [hun] at htrue
        cases htrue
  · rw [policyResult_unknown hunknown]
    simp only [List.mem_cons, not_or] at hunknown
    refine iff_of_false (hwritten _) ?_
    rintro (⟨h, -⟩ | ⟨h, -⟩ | ⟨h, -⟩)
    · exact hunknown.1 h
    · exact hunknown.2.2.1 h
    · exact hunknown.2.2.2 h

theorem policyResult_insert_iff :
    policyResult vars policy (first :: (others ++ row :: after)) =
        policyResult vars policy (first :: (others ++ after)) ↔
      Indifferent vars policy (first :: others) row after := by
  have hwritten := writtenResult_ne_failed vars
  rcases policy_cases policy with rfl | rfl | rfl | ⟨hcollect, hU, hF, hA⟩ | hunknown
  · -- with the row there are two at least
    have hnot : "U" ∉ collectPolicies := by decide
    have hwith : policyResult vars "U" (first :: (others ++ row :: after)) = .failed := by
      rw [policyResult, if_pos rfl, if_neg (by simp)]
    rw [hwith, eq_comm, policyResult_eq_failed_iff]
    simp [PolicyFails, Indifferent, hnot]
  · exact iff_of_true rfl (.inr (.inl rfl))
  · have hnot : "A" ∉ collectPolicies := by decide
    have hindifferent : Indifferent vars "A" (first :: others) row after ↔
        (agrees first row = true ∨ (others ++ after).all (agrees first) = false) := by
      constructor
      · rintro (⟨h, -⟩ | h | ⟨-, first', others', heq, h⟩ | ⟨h, -⟩ | h)
        · exact absurd h (by decide)
        · exact absurd h (by decide)
        · obtain ⟨rfl, rfl⟩ := List.cons.inj heq
          exact h
        · exact absurd h hnot
        · exact absurd (by simp) h
      · exact fun h => .inr (.inr (.inl ⟨rfl, first, others, rfl, h⟩))
    rw [hindifferent]
    show anyResult vars (first :: (others ++ row :: after)) =
      anyResult vars (first :: (others ++ after)) ↔ _
    rw [anyResult, anyResult]
    have hsplit : (others ++ row :: after).all (agrees first) =
        (agrees first row && (others ++ after).all (agrees first)) := by
      rw [List.all_append, List.all_cons, List.all_append]
      exact Bool.and_left_comm ..
    rw [hsplit]
    cases agrees first row with
    | true => simp
    | false =>
      cases (others ++ after).all (agrees first) with
      | false => simp
      | true => simpa using (hwritten first).symm
  · rw [policyResult_collect hcollect hU hF hA, policyResult_collect hcollect hU hF hA]
    constructor
    · exact fun h => .inr (.inr (.inr (.inl ⟨hcollect, h⟩)))
    · rintro (⟨h, -⟩ | h | ⟨h, -⟩ | ⟨-, h⟩ | h)
      · exact absurd h hU
      · exact absurd h hF
      · exact absurd h hA
      · exact h
      · exact absurd (by simp [hcollect]) h
  · rw [policyResult_unknown hunknown, policyResult_unknown hunknown]
    exact iff_of_true rfl (.inr (.inr (.inr (.inr hunknown))))

end Row

/-! ## A rule that is deleted -/

/-- Deleting the rule changes nothing: another rule fails; or the rule fails
    and so does the policy without it; or the rule does not match; or its row
    makes no difference to the policy. -/
def Removable (svc : Service) (now : Time) (vars : GoMap Value) (policy : String)
    (before : List DecisionTableRule) (rule : DecisionTableRule) (after : List DecisionTableRule) :
    Prop :=
  (∃ r ∈ before ++ after, r.fails svc now vars = true) ∨
  (rule.fails svc now vars = true ∧ PolicyFails policy (matchedRows svc now vars (before ++ after))) ∨
  (rule.fails svc now vars = false ∧ rule.answer svc vars ≠ some true) ∨
  (rule.fails svc now vars = false ∧ rule.answer svc vars = some true ∧
    Indifferent vars policy (matchedRows svc now vars before) (rule.row svc now vars)
      (matchedRows svc now vars after))

section Rule

variable {svc : Service} {now : Time} {vars : GoMap Value}

theorem matchedRows_append (rules rules' : List DecisionTableRule) :
    matchedRows svc now vars (rules ++ rules') =
      matchedRows svc now vars rules ++ matchedRows svc now vars rules' := by
  rw [matchedRows, List.filter_append, List.map_append]
  rfl

theorem matchedRows_cons (rule : DecisionTableRule) (rules : List DecisionTableRule) :
    matchedRows svc now vars (rule :: rules) =
      if rule.answer svc vars = some true then
        rule.row svc now vars :: matchedRows svc now vars rules
      else matchedRows svc now vars rules := by
  rw [matchedRows, List.filter_cons]
  simp only [decide_eq_true_eq]
  split
  · rfl
  · rfl

variable (svc now vars) in
/-- A catch-all matches. -/
theorem matchedRows_of_catchAll {rules : List DecisionTableRule}
    (h : ∃ r ∈ rules, r.conditions = []) :
    ∃ first others, matchedRows svc now vars rules = first :: others := by
  obtain ⟨r, hr, hconditions⟩ := h
  refine List.exists_cons_of_ne_nil (List.ne_nil_of_mem
    (a := r.row svc now vars) (List.mem_map_of_mem (List.mem_filter.mpr ⟨hr, ?_⟩)))
  rw [DecisionTableRule.answer, hconditions]
  rfl

/-- What deleting a rule behind a catch-all changes. -/
theorem tableResult_delete_iff {tx : Tx} {step : WorkflowStep}
    (hvars : variablesToMap tx.inst.vars = .ok vars) {before after : List DecisionTableRule}
    {rule : DecisionTableRule} (hkeys : ∀ r ∈ before ++ rule :: after, (r.outputs.map (·.1)).Nodup)
    (hcatch : ∃ r ∈ before, r.conditions = []) :
    tableResult svc now tx step (before ++ rule :: after) =
        tableResult svc now tx step (before ++ after) ↔
      Removable svc now vars step.policy before rule after := by
  have hkeys' : ∀ r ∈ before ++ after, (r.outputs.map (·.1)).Nodup := by
    intro r hr
    refine hkeys r ?_
    rcases List.mem_append.mp hr with hr | hr
    · exact List.mem_append_left _ hr
    · exact List.mem_append_right _ (List.mem_cons_of_mem _ hr)
  obtain ⟨first, others, hbefore⟩ := matchedRows_of_catchAll svc now vars hcatch
  by_cases hothers : ∃ r ∈ before ++ after, r.fails svc now vars = true
  · -- the step fails either way
    have hwith : ∃ r ∈ before ++ rule :: after, r.fails svc now vars = true := by
      obtain ⟨r, hr, hfails⟩ := hothers
      refine ⟨r, ?_, hfails⟩
      rcases List.mem_append.mp hr with hr | hr
      · exact List.mem_append_left _ hr
      · exact List.mem_append_right _ (List.mem_cons_of_mem _ hr)
    exact iff_of_true ((tableResult_of_fails hvars hwith).trans
      (tableResult_of_fails hvars hothers).symm) (.inl hothers)
  · have hok : ∀ r ∈ before ++ after, r.fails svc now vars = false := fun r hr =>
      Bool.not_eq_true _ ▸ fun h => hothers ⟨r, hr, h⟩
    have hwithout : tableResult svc now tx step (before ++ after) =
        policyResult vars step.policy (matchedRows svc now vars (before ++ after)) :=
      tableResult_policy hvars hkeys' hok
    cases hrule : rule.fails svc now vars with
    | true =>
      have hwith : ∃ r ∈ before ++ rule :: after, r.fails svc now vars = true :=
        ⟨rule, by simp, hrule⟩
      have hrows : matchedRows svc now vars (before ++ after) =
          first :: (others ++ matchedRows svc now vars after) := by
        rw [matchedRows_append, hbefore, List.cons_append]
      rw [tableResult_of_fails hvars hwith, hwithout, eq_comm, hrows, policyResult_eq_failed_iff,
        ← hrows]
      constructor
      · exact fun h => .inr (.inl ⟨hrule, h⟩)
      · rintro (h | ⟨-, h⟩ | ⟨h, -⟩ | ⟨h, -⟩)
        · exact absurd h hothers
        · exact h
        · exact absurd (hrule.symm.trans h) (by decide)
        · exact absurd (hrule.symm.trans h) (by decide)
    | false =>
      have hall : ∀ r ∈ before ++ rule :: after, r.fails svc now vars = false := by
        intro r hr
        rcases List.mem_append.mp hr with hr | hr
        · exact hok r (List.mem_append_left _ hr)
        · rcases List.mem_cons.mp hr with rfl | hr
          · exact hrule
          · exact hok r (List.mem_append_right _ hr)
      rw [tableResult_policy hvars hkeys hall, hwithout, matchedRows_append, matchedRows_append,
        matchedRows_cons]
      by_cases hmatch : rule.answer svc vars = some true
      · rw [if_pos hmatch, hbefore, List.cons_append, List.cons_append, policyResult_insert_iff]
        rw [← hbefore]
        constructor
        · exact fun h => .inr (.inr (.inr ⟨hrule, hmatch, h⟩))
        · rintro (h | ⟨h, -⟩ | ⟨-, h⟩ | ⟨-, -, h⟩)
          · exact absurd h hothers
          · exact absurd (hrule.symm.trans h) (by decide)
          · exact absurd hmatch h
          · exact h
      · rw [if_neg hmatch]
        exact iff_of_true rfl (.inr (.inr (.inl ⟨hrule, hmatch⟩)))

end Rule

/-! ## The warning -/

/-- The rule as the engine reads it. -/
def Modeller.DecisionTableRule.engineRule (r : Modeller.DecisionTableRule) :
    Rochallor.DecisionTableRule where
  conditions := r.conditions
  outputs := r.outputs

def engineRules (rules : List Modeller.DecisionTableRule) : List DecisionTableRule :=
  rules.map Modeller.DecisionTableRule.engineRule

/-- The modeller's validator says about the step that its rule is
    unreachable. -/
def Modeller.FlagsUnreachable (step : Modeller.Step) (i : Nat) : Prop :=
  ∃ x ∈ Modeller.checkStepVariantShape step,
    x.code = .decisionTableUnreachableRule ∧ x.ruleIndex = some i

section Warning

variable {mstep : Modeller.Step}

/-- Only rules behind a catch-all are flagged. -/
theorem catchAll_of_unreachableRules {rules : List Modeller.DecisionTableRule} {k i : Nat}
    {first : Option Nat} {x : Modeller.Diagnostic}
    (hx : x ∈ Modeller.unreachableRules mstep first (rules.zipIdx k)) (hi : x.ruleIndex = some i) :
    k ≤ i ∧ (first.isSome ∨ ∃ r ∈ rules.take (i - k), r.conditions = []) := by
  induction rules generalizing k first with
  | nil =>
    rw [List.zipIdx_nil, Modeller.unreachableRules] at hx
    cases hx
  | cons rule rest ih =>
    rw [List.zipIdx_cons] at hx
    cases first with
    | some f =>
      rw [Modeller.unreachableRules] at hx
      rcases List.mem_cons.mp hx with rfl | hx
      · exact ⟨(Option.some.inj hi).le, .inl rfl⟩
      · exact ⟨by have := (ih hx).1; omega, .inl rfl⟩
    | none =>
      rw [Modeller.unreachableRules] at hx
      obtain ⟨hle, hcatch⟩ := ih hx
      refine ⟨by omega, .inr ?_⟩
      obtain ⟨n, hn⟩ : ∃ n, i - k = n + 1 := ⟨i - k - 1, by omega⟩
      rw [hn, List.take_succ_cons]
      rcases hcatch with hcatch | ⟨r, hr, hconditions⟩
      · by_cases hempty : rule.conditions.isEmpty = true
        · exact ⟨rule, List.mem_cons_self .., List.isEmpty_iff.mp hempty⟩
        · rw [if_neg hempty] at hcatch
          cases hcatch
      · refine ⟨r, List.mem_cons_of_mem _ ?_, hconditions⟩
        rwa [show n = i - (k + 1) by omega]

theorem catchAll_of_flagged {hitPolicy nextStep : String} {table : Modeller.DecisionTable}
    (hvariant : mstep.variant = .decisionTable hitPolicy nextStep table) {i : Nat}
    (hflag : Modeller.FlagsUnreachable mstep i) :
    ∃ r ∈ table.rules.take i, r.conditions = [] := by
  obtain ⟨x, hx, hcode, hi⟩ := hflag
  have hmem : x ∈ Modeller.unreachableRules mstep none table.rules.zipIdx := by
    rw [Modeller.checkStepVariantShape, hvariant] at hx
    simp only [Modeller.checkDecisionTableShape, List.mem_append] at hx
    have hone : ∀ {p : Prop} [Decidable p] {y : Modeller.Diagnostic},
        x ∈ (if p then [y] else []) → x = y := by
      intro p _ y h
      by_cases hp : p
      · rw [if_pos hp] at h
        exact List.mem_singleton.mp h
      · rw [if_neg hp] at h
        cases h
    -- no other message has the code
    rcases hx with ((((((hx | hx) | hx) | hx) | hx) | hx) | hx) | hx
    · rw [hone hx] at hcode
      cases hcode
    · rw [hone hx] at hcode
      cases hcode
    · rw [← ite_not] at hx
      rw [hone hx] at hcode
      cases hcode
    · split at hx
      · rw [hone hx] at hcode
        cases hcode
      · cases hx
    · obtain ⟨r, -, rfl⟩ := List.mem_map.mp hx
      cases hcode
    · rw [hone hx] at hcode
      cases hcode
    · obtain ⟨f, -, rfl⟩ := List.mem_map.mp hx
      cases hcode
    · exact hx
  obtain ⟨-, hcatch⟩ := catchAll_of_unreachableRules hmem hi
  exact hcatch.resolve_left (by simp)

end Warning

/-- Deleting a rule that the modeller flags leaves the step's outcome as it is
    if and only if the rule is removable under the hit policy. -/
theorem flagged_rule_removable_iff (svc : Service) (now : Time) (tx : Tx) (step : WorkflowStep)
    (mstep : Modeller.Step) (nextStep : String) (table : Modeller.DecisionTable)
    (hvariant : mstep.variant = .decisionTable step.hitPolicy nextStep table)
    (before after : List Modeller.DecisionTableRule) (rule : Modeller.DecisionTableRule)
    (hrules : table.rules = before ++ rule :: after)
    (hkeys : ∀ r ∈ table.rules, (r.outputs.map (·.1)).Nodup)
    (hflag : Modeller.FlagsUnreachable mstep before.length) :
    tableResult svc now tx step (engineRules (before ++ rule :: after)) =
        tableResult svc now tx step (engineRules (before ++ after)) ↔
      ∀ vars, variablesToMap tx.inst.vars = .ok vars →
        Removable svc now vars step.policy (engineRules before) rule.engineRule
          (engineRules after) := by
  have hcatch : ∃ r ∈ engineRules before, r.conditions = [] := by
    obtain ⟨r, hr, hconditions⟩ := catchAll_of_flagged hvariant hflag
    rw [hrules, List.take_left] at hr
    exact ⟨r.engineRule, List.mem_map_of_mem hr, hconditions⟩
  have hsplit : engineRules (before ++ rule :: after) =
      engineRules before ++ rule.engineRule :: engineRules after := by
    rw [engineRules, List.map_append, List.map_cons]
    rfl
  have hsplit' : engineRules (before ++ after) = engineRules before ++ engineRules after :=
    List.map_append ..
  have hkeys' : ∀ r ∈ engineRules before ++ rule.engineRule :: engineRules after,
      (r.outputs.map (·.1)).Nodup := by
    intro r hr
    rw [← hsplit] at hr
    obtain ⟨r', hr', rfl⟩ := List.mem_map.mp hr
    exact hkeys r' (hrules ▸ hr')
  rw [hsplit, hsplit']
  cases hvars : variablesToMap tx.inst.vars with
  | error e =>
    refine iff_of_true ?_ (by rintro vars ⟨⟩)
    simp [tableResult, tableOutcome, handleDecisionTable, hvars]
  | ok vars =>
    rw [tableResult_delete_iff hvars hkeys' hcatch]
    constructor
    · rintro h vars' ⟨⟩
      exact h
    · exact fun h => h vars rfl

/-- Everyone is basic; the second rule is behind the catch-all. -/
def basicForAll : List Modeller.DecisionTableRule := [
  { conditions := [], outputs := [("tier", .str "basic")], extra := [] },
  { conditions := [("age", "true")], outputs := [("tier", .str "gold")], extra := [] }]

/-- The step in the modeller. -/
def basicForAllStep (hitPolicy : String) : Modeller.Step where
  id := "grade"
  name := "grade"
  description := none
  variant := .decisionTable hitPolicy "end" { rules := basicForAll, extra := [] }
  extra := []

/-- The step in the engine. -/
def basicTierStep (hitPolicy : String) : WorkflowStep where
  id := "grade"
  name := "grade"
  type := .decisionTable
  nextStep := "end"
  decisionTable := some ⟨engineRules basicForAll⟩
  hitPolicy := hitPolicy

theorem flagged_rule_removable_iff_first :
    tableResult (.ofList []) 0 (countingTx "grade") (basicTierStep "F") (engineRules basicForAll) =
      tableResult (.ofList []) 0 (countingTx "grade") (basicTierStep "F")
        (engineRules (basicForAll.take 1)) := by
  refine (flagged_rule_removable_iff (.ofList []) 0 (countingTx "grade") (basicTierStep "F")
    (basicForAllStep "F") "end" { rules := basicForAll, extra := [] } rfl (basicForAll.take 1) []
    basicForAll[1] rfl (by decide) ?_).mpr ?_
  · exact ⟨_, List.mem_singleton.mpr rfl, rfl, rfl⟩
  · intro vars _
    exact .inr (.inr (.inr ⟨rfl, rfl, .inr (.inl rfl)⟩))

/-- Under the default policy the flagged rule fails the step. -/
theorem flagged_rule_fails_unique :
    ¬ ∀ (svc : Service) (now : Time) (tx : Tx) (step : WorkflowStep) (mstep : Modeller.Step)
      (nextStep : String) (table : Modeller.DecisionTable),
      mstep.variant = .decisionTable step.hitPolicy nextStep table →
      ∀ (before after : List Modeller.DecisionTableRule) (rule : Modeller.DecisionTableRule),
      table.rules = before ++ rule :: after →
      (∀ r ∈ table.rules, (r.outputs.map (·.1)).Nodup) →
      Modeller.FlagsUnreachable mstep before.length →
      tableResult svc now tx step (engineRules (before ++ rule :: after)) =
        tableResult svc now tx step (engineRules (before ++ after)) := by
  intro h
  have hsame := h (.ofList []) 0 (countingTx "grade") (basicTierStep "U") (basicForAllStep "U")
    "end" { rules := basicForAll, extra := [] } rfl (basicForAll.take 1) [] basicForAll[1] rfl
    (by decide) ⟨_, List.mem_singleton.mpr rfl, rfl, rfl⟩
  have hfailed : ∀ r r' : TableResult, r = r' →
      (match r with | .failed => true | _ => false) =
        (match r' with | .failed => true | _ => false) := by
    rintro r r' rfl
    rfl
  exact absurd (hfailed _ _ hsame) (by decide +kernel)

end Rochallor
