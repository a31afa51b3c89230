import Rochallor.Safety.HitPolicies

/-! # Hit policy Any

    Under policy `A` all rows are to agree.  `handleDecisionTable` compares the
    columns of the first row with those of the others and outputs the first
    row.  Columns the first row does not have are left out, so the outcome can
    depend on the order of the rules, and rows that disagree can pass.

    `anyResult` is that comparison on rows.  Permutations of the rules and of
    their rows are the same thing, so the law is settled on rows.
-/

namespace Rochallor

/-! ## The comparison -/

/-- The first row is equal to the other in each of its columns. -/
def agrees (first other : GoMap Value) : Bool :=
  first.all fun x => x.2.deepEqual (column other x.1)

/-- Policy `A` on the rows. -/
def anyResult (vars : GoMap Value) : List (GoMap Value) → TableResult
  | [] => .failed
  | first :: others => if others.all (agrees first) then writtenResult vars first else .failed

/-! ## The handler -/

section Handler

variable {svc : Service} {now : Time} {tx : Tx} {step : WorkflowStep} {vars : GoMap Value}

theorem row_keys {rule : DecisionTableRule} :
    (rule.row svc now vars).map (·.1) = rule.outputs.map (·.1) := by
  unfold DecisionTableRule.row
  rw [List.map_map]
  rfl

/-- The step under policy `A` is the comparison on its rows. -/
theorem tableResult_any {rules : List DecisionTableRule} (hpolicy : step.hitPolicy = "A")
    (hvars : variablesToMap tx.inst.vars = .ok vars)
    (hkeys : ∀ r ∈ rules, (r.outputs.map (·.1)).Nodup)
    (hok : ∀ r ∈ rules, r.fails svc now vars = false) :
    tableResult svc now tx step rules = anyResult vars (matchedRows svc now vars rules) := by
  obtain ⟨rows, hrows, hout⟩ := tableOutcome_of_rows tx step hvars hok
  have hp : step.policy = "A" := by
    unfold WorkflowStep.policy
    rw [hpolicy]
    rfl
  unfold tableResult
  rw [hout, hp]
  cases rows with
  | nil =>
    rw [← hrows]
    rfl
  | cons x others =>
    obtain ⟨first, idx⟩ := x
    have hnd : (first.map (·.1)).Nodup := by
      have hmem : first ∈ matchedRows svc now vars rules := by
        rw [← hrows]
        exact List.mem_cons_self ..
      obtain ⟨r, hr, rfl⟩ := List.mem_map.mp hmem
      rw [row_keys]
      exact hkeys r (List.mem_filter.mp hr).1
    have hall : anyConflict step.id first idx others = none ↔
        ((others.map (·.1)).all (agrees first)) = true := by
      rw [anyConflict_eq_none]
      simp only [agrees, List.all_eq_true, List.forall_mem_map]
      exact ⟨fun h o ho x hx => h x hx o ho, fun h x hx o ho => h o ho x hx⟩
    rw [← hrows, List.map_cons, anyResult]
    cases hc : anyConflict step.id first idx others with
    | none =>
      have happly : applyHitPolicy step.id "A" ((first, idx) :: others) = .ok first := by
        simp [applyHitPolicy, hc]
      rw [happly, if_pos (hall.mp hc)]
      exact tabled_result hvars hnd
    | some reason =>
      have happly : applyHitPolicy step.id "A" ((first, idx) :: others) = .error reason := by
        simp [applyHitPolicy, hc]
      rw [happly, if_neg fun h => Option.some_ne_none reason (hc.symm.trans (hall.mpr h))]
      rfl

end Handler

/-! ## Unanimous rows -/

/-- Every two of the rows have equal values in all columns any row has. -/
def Unanimous (rows : List (GoMap Value)) : Prop :=
  ∀ a b rest, rows.Perm (a :: b :: rest) → ∀ col ∈ rows.flatMap fun r => r.map (·.1),
    (column a col).deepEqual (column b col) = true

/-- A map of Go values. -/
structure GoRow (row : GoMap Value) : Prop where
  keys : (row.map (·.1)).Nodup
  values : ∀ e ∈ row, e.2.IsGo

section Rows

variable {vars r r' : GoMap Value} {rows others : List (GoMap Value)}

theorem GoRow.column (h : GoRow r) (col : String) : (column r col).IsGo := by
  unfold Rochallor.column
  cases hg : GoMap.get r col with
  | none => exact .null
  | some v => exact h.values _ (GoMap.mem_of_get hg)

theorem column_of_mem (h : GoRow r) {e : String × Value} (he : e ∈ r) : column r e.1 = e.2 := by
  unfold Rochallor.column
  rw [GoMap.get_of_mem h.keys he]
  rfl

theorem eq_null_of_deepEqual {v : Value} (h : Value.null.deepEqual v = true) : v = .null := by
  cases v <;> first | rfl | cases h

theorem Unanimous.perm (h : Unanimous rows) {rows' : List (GoMap Value)} (hp : rows.Perm rows') :
    Unanimous rows' := by
  intro a b rest hab col hcol
  refine h a b rest (hp.trans hab) col ?_
  exact ((hp.flatMap_right _).mem_iff).mpr hcol

private theorem exists_perm_cons {α : Type} {a : α} {l : List α} (h : a ∈ l) :
    ∃ rest, l.Perm (a :: rest) := by
  obtain ⟨before, after, rfl⟩ := List.append_of_mem h
  exact ⟨before ++ after, List.perm_middle⟩

/-- If the rows are unanimous, each is equal to the others in its columns. -/
theorem Unanimous.agrees (h : Unanimous rows) (hgo : ∀ r ∈ rows, GoRow r)
    (hp : rows.Perm (r :: others)) : others.all (agrees r) = true := by
  rw [List.all_eq_true]
  intro o ho
  unfold Rochallor.agrees
  rw [List.all_eq_true]
  intro x hx
  have hr : r ∈ rows := hp.mem_iff.mpr (List.mem_cons_self ..)
  rw [← column_of_mem (hgo r hr) hx]
  obtain ⟨rest, hrest⟩ := exists_perm_cons ho
  refine h r o rest (hp.trans (hrest.cons r)) x.1 ?_
  exact List.mem_flatMap.mpr ⟨r, hr, List.mem_map_of_mem hx⟩

/-- Once a row is equal to the others in its own columns, the rows are
    unanimous if the others have nothing but null in further columns. -/
theorem unanimous_iff (hgo : ∀ r ∈ rows, GoRow r) (hp : rows.Perm (r :: others))
    (h : others.all (agrees r) = true) :
    Unanimous rows ↔ ∀ o ∈ others, ∀ e ∈ o, GoMap.get r e.1 = none → e.2 = .null := by
  have hr : r ∈ rows := hp.mem_iff.mpr (List.mem_cons_self ..)
  have ho : ∀ o ∈ others, o ∈ rows := fun o ho => hp.mem_iff.mpr (List.mem_cons_of_mem _ ho)
  constructor
  · intro hun o hmem e he hnone
    obtain ⟨rest, hrest⟩ := exists_perm_cons hmem
    have heq := hun r o rest (hp.trans (hrest.cons r)) e.1
      (List.mem_flatMap.mpr ⟨o, ho o hmem, List.mem_map_of_mem he⟩)
    rw [column_of_mem (hgo o (ho o hmem)) he, Rochallor.column, hnone] at heq
    exact eq_null_of_deepEqual heq
  · intro hnull a b rest hab col _
    -- every other row has the values of this one
    have hsame : ∀ o ∈ others, (column r col).deepEqual (column o col) = true := by
      intro o hmem
      cases hg : GoMap.get r col with
      | some v =>
        have hagree := List.all_eq_true.mp (List.all_eq_true.mp h o hmem) _ (GoMap.mem_of_get hg)
        rwa [Rochallor.column, hg]
      | none =>
        have hcol : column o col = .null := by
          unfold Rochallor.column
          cases hgo' : GoMap.get o col with
          | none => rfl
          | some w => exact hnull o hmem _ (GoMap.mem_of_get hgo') hg
        rw [hcol, Rochallor.column, hg]
        rfl
    have hab' : (r :: others).Perm (a :: b :: rest) := hp.symm.trans hab
    have hgor := (hgo r hr).column col
    by_cases har : a = r
    · subst har
      have hb : b ∈ others := (hab'.cons_inv).mem_iff.mpr (List.mem_cons_self ..)
      exact hsame b hb
    · have ha : a ∈ others := by
        rcases List.mem_cons.mp (hab'.mem_iff.mpr (List.mem_cons_self ..)) with heq | hmem
        · exact absurd heq har
        · exact hmem
      have hgoa := (hgo a (ho a ha)).column col
      have har' := Value.deepEqual_symm hgor hgoa (hsame a ha)
      by_cases hbr : b = r
      · subst hbr
        exact har'
      · have hb : b ∈ others := by
          rcases List.mem_cons.mp (hab'.mem_iff.mpr
            (List.mem_cons_of_mem _ (List.mem_cons_self ..))) with heq | hmem
          · exact absurd heq hbr
          · exact hmem
        exact Value.deepEqual_trans hgoa hgor ((hgo b (ho b hb)).column col) har' (hsame b hb)

end Rows

/-! ## The law on rows -/

/-- What policy `A` is to do with the rows of the rules that match. -/
structure AnyLaw (vars : GoMap Value) (rows : List (GoMap Value)) : Prop where
  succeeds : (anyResult vars rows).Succeeds ↔ rows ≠ [] ∧ Unanimous rows
  orderFree : ∀ rows', rows'.Perm rows → anyResult vars rows' = anyResult vars rows

/-- A row no other row contradicts can be written, and what the other rows have
    in further columns is null already. -/
def Settles (vars : GoMap Value) (rows : List (GoMap Value)) : Prop :=
  ∀ r others, rows.Perm (r :: others) → others.all (agrees r) = true →
    (∀ e ∈ r, e.2.json.isSome) ∧
      ∀ o ∈ others, ∀ e ∈ o, GoMap.get r e.1 = none →
        e.2 = .null ∧ GoMap.get vars e.1 = some .null

section Law

variable {vars r r' : GoMap Value} {rows others others' : List (GoMap Value)}

theorem Settles.perm (h : Settles vars rows) {rows' : List (GoMap Value)} (hp : rows.Perm rows') :
    Settles vars rows' :=
  fun r others hr => h r others (hp.trans hr)

theorem Settles.unanimous (h : Settles vars rows) (hgo : ∀ r ∈ rows, GoRow r)
    (hp : rows.Perm (r :: others)) (hall : others.all (agrees r) = true) : Unanimous rows :=
  (unanimous_iff hgo hp hall).mpr fun o ho e he hnone =>
    ((h r others hp hall).2 o ho e he hnone).1

/-- Which of the rows is written makes no difference. -/
theorem Settles.written_eq (h : Settles vars rows) (hgo : ∀ r ∈ rows, GoRow r)
    (hun : Unanimous rows) (hp : rows.Perm (r :: others)) (hr' : r' ∈ others) :
    written vars r = written vars r' := by
  obtain ⟨rest, hrest⟩ := exists_perm_cons hr'
  have hp' : rows.Perm (r' :: r :: rest) := hp.trans ((hrest.cons r).trans (.swap ..))
  have hr : r ∈ rows := hp.mem_iff.mpr (List.mem_cons_self ..)
  have hmem : r' ∈ rows := hp'.mem_iff.mpr (List.mem_cons_self ..)
  funext k
  unfold written
  cases hg : GoMap.get r k with
  | some v =>
    cases hg' : GoMap.get r' k with
    | some w =>
      have heq := hun r r' rest (hp.trans (hrest.cons r)) k
        (List.mem_flatMap.mpr ⟨r, hr, List.mem_map_of_mem (GoMap.mem_of_get hg)⟩)
      rw [column, hg, column, hg'] at heq
      show v.json.bind Json.decoded = w.json.bind Json.decoded
      rw [Value.json_of_deepEqual ((hgo r hr).values _ (GoMap.mem_of_get hg))
        ((hgo r' hmem).values _ (GoMap.mem_of_get hg')) heq]
    | none =>
      obtain ⟨hnull, hvar⟩ := (h r' (r :: rest) hp' (hun.agrees hgo hp')).2 r
        (List.mem_cons_self ..) _ (GoMap.mem_of_get hg) hg'
      show v.json.bind Json.decoded = (GoMap.get vars k).bind Value.json
      rw [show v = .null from hnull, show GoMap.get vars k = some .null from hvar]
      rfl
  | none =>
    cases hg' : GoMap.get r' k with
    | some w =>
      obtain ⟨hnull, hvar⟩ := (h r others hp (hun.agrees hgo hp)).2 r' hr' _
        (GoMap.mem_of_get hg') hg
      show (GoMap.get vars k).bind Value.json = w.json.bind Json.decoded
      rw [show w = .null from hnull, show GoMap.get vars k = some .null from hvar]
      rfl
    | none => rfl

theorem anyResult_of_agrees (h : others.all (agrees r) = true) :
    anyResult vars (r :: others) = writtenResult vars r := by
  rw [anyResult, if_pos h]

theorem anyResult_of_conflict (h : ¬ others.all (agrees r) = true) :
    anyResult vars (r :: others) = .failed := by
  rw [anyResult, if_neg h]

theorem writtenResult_of_json (h : ∀ e ∈ r, e.2.json.isSome) :
    writtenResult vars r = .merged (written vars r) := by
  rw [writtenResult, if_pos (List.all_eq_true.mpr h)]

theorem json_of_writtenResult {w : String → Option Json}
    (h : writtenResult vars r = .merged w) : ∀ e ∈ r, e.2.json.isSome := by
  unfold writtenResult at h
  split at h
  · rename_i hall
    exact List.all_eq_true.mp hall
  · cases h

theorem Settles.law (h : Settles vars rows) (hgo : ∀ r ∈ rows, GoRow r) : AnyLaw vars rows := by
  -- the result of an order, by its first row
  have hresult : ∀ r others, rows.Perm (r :: others) →
      (Unanimous rows ∧ anyResult vars (r :: others) = .merged (written vars r)) ∨
        (¬ Unanimous rows ∧ anyResult vars (r :: others) = .failed) := by
    intro r others hp
    by_cases hall : others.all (agrees r) = true
    · refine .inl ⟨h.unanimous hgo hp hall, ?_⟩
      rw [anyResult_of_agrees hall, writtenResult_of_json (h r others hp hall).1]
    · exact .inr ⟨fun hun => hall (hun.agrees hgo hp), anyResult_of_conflict hall⟩
  constructor
  · cases rows with
    | nil =>
      refine iff_of_false ?_ fun hne => hne.1 rfl
      rintro ⟨w, hw⟩
      cases hw
    | cons r others =>
      rcases hresult r others (.refl _) with ⟨hun, hres⟩ | ⟨hun, hres⟩
      · exact iff_of_true ⟨_, hres⟩ ⟨List.cons_ne_nil _ _, hun⟩
      · refine iff_of_false ?_ fun hne => hun hne.2
        rintro ⟨w, hw⟩
        rw [hres] at hw
        cases hw
  · intro rows' hp
    cases rows' with
    | nil => rw [hp.nil_eq]
    | cons r' others' =>
      cases rows with
      | nil => exact absurd hp.symm.nil_eq (List.cons_ne_nil _ _).symm
      | cons r others =>
        rcases hresult r others (.refl _) with ⟨hun, hres⟩ | ⟨hun, hres⟩
        · rcases hresult r' others' hp.symm with ⟨-, hres'⟩ | ⟨hun', -⟩
          · rw [hres, hres']
            rcases List.mem_cons.mp (hp.mem_iff.mp (List.mem_cons_self ..)) with heq | hmem
            · rw [heq]
            · rw [h.written_eq hgo hun (.refl _) hmem]
          · exact absurd hun hun'
        · rcases hresult r' others' hp.symm with ⟨hun', -⟩ | ⟨-, hres'⟩
          · exact absurd hun' hun
          · rw [hres, hres']

theorem AnyLaw.settles (h : AnyLaw vars rows) (hgo : ∀ r ∈ rows, GoRow r) :
    Settles vars rows := by
  intro r others hp hall
  have hres : anyResult vars (r :: others) = anyResult vars rows := h.orderFree _ hp.symm
  rw [anyResult_of_agrees hall] at hres
  have hne : rows ≠ [] := by
    rintro rfl
    exact absurd hp.nil_eq.symm (List.cons_ne_nil _ _)
  by_cases hun : Unanimous rows
  · obtain ⟨w, hw⟩ := h.succeeds.mpr ⟨hne, hun⟩
    rw [hw] at hres
    have hjson := json_of_writtenResult hres
    refine ⟨hjson, ?_⟩
    intro o ho e he hnone
    have hnull := (unanimous_iff hgo hp hall).mp hun o ho e he hnone
    refine ⟨hnull, ?_⟩
    -- the other row in front writes a null
    obtain ⟨rest, hrest⟩ := exists_perm_cons ho
    have hp' : rows.Perm (o :: r :: rest) := hp.trans ((hrest.cons r).trans (.swap ..))
    have hres' : anyResult vars (o :: r :: rest) = anyResult vars rows := h.orderFree _ hp'.symm
    rw [anyResult_of_agrees (hun.agrees hgo hp'), hw] at hres'
    have hsame : written vars r = written vars o := by
      rw [writtenResult_of_json hjson] at hres
      rw [writtenResult_of_json (json_of_writtenResult hres')] at hres'
      exact (TableResult.merged.inj hres).trans (TableResult.merged.inj hres').symm
    have hgo' : GoRow o := hgo o (hp.mem_iff.mpr (List.mem_cons_of_mem _ ho))
    have hk := congrFun hsame e.1
    rw [written, written, hnone, GoMap.get_of_mem hgo'.keys he, hnull] at hk
    obtain ⟨v, hv, hvj⟩ := Option.bind_eq_some_iff.mp hk
    rw [hv]
    cases v with
    | null => rfl
    | bool b => cases hvj
    | int n => cases hvj
    | float x => cases x <;> cases hvj
    | str s => cases hvj
    | arr items =>
      rw [Value.json, toOption_eq_some, Value.marshal] at hvj
      obtain ⟨js, -, hvj⟩ := bind_eq_ok hvj
      cases hvj
    | obj members =>
      rw [Value.json, toOption_eq_some, Value.marshal] at hvj
      obtain ⟨js, -, hvj⟩ := bind_eq_ok hvj
      cases hvj
  · -- some row contradicts this one, and fails the instance in front
    have hnot : ¬ ∀ o ∈ others, ∀ e ∈ o, GoMap.get r e.1 = none → e.2 = .null :=
      fun hnull => hun ((unanimous_iff hgo hp hall).mpr hnull)
    simp only [not_forall] at hnot
    obtain ⟨o, ho, e, he, hnone, hne'⟩ := hnot
    obtain ⟨rest, hrest⟩ := exists_perm_cons ho
    have hp' : rows.Perm (o :: r :: rest) := hp.trans ((hrest.cons r).trans (.swap ..))
    have hconflict : ¬ (r :: rest).all (agrees o) = true := by
      intro hall'
      have hagree := List.all_eq_true.mp
        (List.all_eq_true.mp hall' r (List.mem_cons_self ..)) e he
      rw [column, hnone] at hagree
      have hgo' : GoRow o := hgo o (hp.mem_iff.mpr (List.mem_cons_of_mem _ ho))
      exact hne' (eq_null_of_deepEqual (Value.deepEqual_symm (hgo'.values e he) .null hagree))
    have hres' : anyResult vars (o :: r :: rest) = anyResult vars rows := h.orderFree _ hp'.symm
    rw [anyResult_of_conflict hconflict, ← hres] at hres'
    unfold writtenResult at hres'
    split at hres' <;> cases hres'

theorem anyLaw_iff (hgo : ∀ r ∈ rows, GoRow r) : AnyLaw vars rows ↔ Settles vars rows :=
  ⟨fun h => h.settles hgo, fun h => h.law hgo⟩

end Law

/-! ## The law on rules -/

/-- The evaluator returns Go values if it is given such. -/
def Service.ReturnsGo (svc : Service) : Prop :=
  ∀ expr vars v, (∀ e ∈ vars, e.2.IsGo) → svc.evaluateExpr expr vars = .ok v → v.IsGo

theorem Service.returnsGo_ofList (rows : List WorkflowDefinition) :
    (Service.ofList rows).ReturnsGo := by
  intro expr vars v _ hv
  simp only [Service.ofList] at hv
  split at hv
  · cases hv
    exact .bool true
  · split at hv
    · cases hv
      exact .bool false
    · cases hv

section Rules

variable {svc : Service} {now : Time} {tx : Tx} {step : WorkflowStep} {vars : GoMap Value}
  {rules : List DecisionTableRule} {raw : Json}

theorem variablesToMap_isGo (h : variablesToMap raw = .ok vars) : ∀ e ∈ vars, e.2.IsGo := by
  unfold variablesToMap at h
  split at h
  · obtain ⟨vs, hvs, h⟩ := bind_eq_ok h
    cases h
    exact overlay_nil_isGo (toMembers_isGo hvs)
  · cases h
    exact fun e he => absurd he List.not_mem_nil
  · cases h

theorem valueOn_isGo (hsvc : svc.ReturnsGo) (hvars : ∀ e ∈ vars, e.2.IsGo) {v : Value}
    (h : valueOn svc now vars raw = some v) : v.IsGo := by
  obtain ⟨v₀, hv₀, hv⟩ := valueOn_eq_some.mp h
  have hgo := toValue_isGo hv₀
  unfold resolveTemplate at hv
  split at hv
  · split at hv
    · cases hv
      exact hgo
    · split at hv
      · cases hv
        exact .str _
      · exact hsvc _ _ _ hvars hv
  · cases hv
    exact hgo

variable (now) in
theorem matchedRows_go (hsvc : svc.ReturnsGo) (hvars : ∀ e ∈ vars, e.2.IsGo)
    (hkeys : ∀ r ∈ rules, (r.outputs.map (·.1)).Nodup) :
    ∀ row ∈ matchedRows svc now vars rules, GoRow row := by
  intro row hrow
  obtain ⟨r, hr, rfl⟩ := List.mem_map.mp hrow
  refine ⟨row_keys ▸ hkeys r (List.mem_filter.mp hr).1, fun e he => ?_⟩
  obtain ⟨o, -, rfl⟩ := List.mem_map.mp he
  show ((valueOn svc now vars o.2).getD .null).IsGo
  cases hv : valueOn svc now vars o.2 with
  | none => exact .null
  | some v => exact valueOn_isGo hsvc hvars hv

/-- An order of the rows is one of the rules. -/
theorem exists_rules {rows : List (GoMap Value)}
    (h : rows.Perm (matchedRows svc now vars rules)) :
    ∃ rules', rules'.Perm rules ∧ matchedRows svc now vars rules' = rows := by
  let p := fun r : DecisionTableRule => decide (r.answer svc vars = some true)
  have hmap : List.Forall₂ (fun row r => DecisionTableRule.row svc now vars r = row)
      (matchedRows svc now vars rules) (rules.filter p) := by
    unfold matchedRows
    rw [List.forall₂_map_left_iff]
    exact List.forall₂_same.mpr fun _ _ => rfl
  obtain ⟨matched, hmatched, hperm⟩ := List.perm_comp_forall₂ h hmap
  have hall : ∀ r ∈ matched, p r = true := fun r hr =>
    (List.mem_filter.mp (hperm.mem_iff.mp hr)).2
  refine ⟨matched ++ rules.filter fun r => !p r, ?_, ?_⟩
  · exact (hperm.append_right _).trans (List.filter_append_perm p rules)
  · have hnone : (rules.filter fun r => !p r).filter p = [] := by
      rw [List.filter_eq_nil_iff]
      intro r hr
      simpa using (List.mem_filter.mp hr).2
    unfold matchedRows
    show ((matched ++ rules.filter fun r => !p r).filter p).map _ = rows
    rw [List.filter_append, hnone, List.append_nil, List.filter_eq_self.mpr hall]
    clear hall hperm hnone h
    induction hmatched with
    | nil => rfl
    | cons hrow _ ih => rw [List.map_cons, hrow, ih]

theorem matchedRows_perm {rules' : List DecisionTableRule} (h : rules'.Perm rules) :
    (matchedRows svc now vars rules').Perm (matchedRows svc now vars rules) :=
  (h.filter _).map _

end Rules

/-- Policy `A` succeeds exactly on unanimous rows, and in every order of the
    rules alike, if and only if every row no other row contradicts can be
    written and what other rows add to it is null already. -/
theorem any_policy_law_iff (svc : Service) (now : Time) (tx : Tx) (step : WorkflowStep)
    (hpolicy : step.hitPolicy = "A") (vars : GoMap Value)
    (hvars : variablesToMap tx.inst.vars = .ok vars) (hsvc : svc.ReturnsGo)
    (rules : List DecisionTableRule) (hkeys : ∀ r ∈ rules, (r.outputs.map (·.1)).Nodup)
    (hok : ∀ r ∈ rules, r.fails svc now vars = false) :
    (((tableResult svc now tx step rules).Succeeds ↔
          matchedRows svc now vars rules ≠ [] ∧ Unanimous (matchedRows svc now vars rules)) ∧
        ∀ rules', rules'.Perm rules →
          tableResult svc now tx step rules' = tableResult svc now tx step rules) ↔
      Settles vars (matchedRows svc now vars rules) := by
  have hresult : ∀ rules', rules'.Perm rules →
      tableResult svc now tx step rules' = anyResult vars (matchedRows svc now vars rules') :=
    fun rules' hp => tableResult_any hpolicy hvars
      (fun r hr => hkeys r (hp.mem_iff.mp hr)) fun r hr => hok r (hp.mem_iff.mp hr)
  have hgo := matchedRows_go now hsvc (variablesToMap_isGo hvars) hkeys
  rw [← anyLaw_iff hgo, hresult rules (.refl _)]
  constructor
  · rintro ⟨hsucceeds, horder⟩
    refine ⟨hsucceeds, fun rows' hp => ?_⟩
    obtain ⟨rules', hrules', rfl⟩ := exists_rules hp
    rw [← hresult rules' hrules']
    exact horder rules' hrules'
  · rintro ⟨hsucceeds, horder⟩
    refine ⟨hsucceeds, fun rules' hp => ?_⟩
    rw [hresult rules' hp]
    exact horder _ (matchedRows_perm hp)

/-- A step that is to find one tier. -/
def tierStep (rules : List DecisionTableRule) : WorkflowStep where
  id := "grade"
  name := "grade"
  type := .decisionTable
  nextStep := "end"
  decisionTable := some ⟨rules⟩
  hitPolicy := "A"

/-- Two rules that agree on the tier. -/
def sameTier : List DecisionTableRule := [
  { conditions := [], outputs := [("tier", .str "gold")] },
  { conditions := [("age", "true")], outputs := [("tier", .str "gold")] }]

theorem any_policy_law_iff_sameTier :
    tableResult (.ofList []) 0 (countingTx "grade") (tierStep sameTier) sameTier.reverse =
      tableResult (.ofList []) 0 (countingTx "grade") (tierStep sameTier) sameTier := by
  refine ((any_policy_law_iff (.ofList []) 0 (countingTx "grade") (tierStep sameTier) rfl
    [("count", .str "old")] rfl (Service.returnsGo_ofList []) sameTier (by decide) (by decide +kernel)).mpr ?_).2 _
    (List.reverse_perm _)
  -- both rows are the same
  have hrows : matchedRows (.ofList []) 0 [("count", .str "old")] sameTier =
      List.replicate 2 [("tier", .str "gold")] := rfl
  rw [hrows]
  intro r others hp _
  have hall : ∀ row ∈ r :: others, row = [("tier", Value.str "gold")] :=
    fun row hrow => List.eq_of_mem_replicate (hp.mem_iff.mpr hrow)
  rw [hall r (List.mem_cons_self ..)]
  refine ⟨by decide, fun o ho e he hnone => ?_⟩
  rw [hall o (List.mem_cons_of_mem _ ho)] at he
  rw [List.mem_singleton.mp he] at hnone
  cases hnone

/-- A column of the second rule is not compared, and not written. -/
theorem missing_column_not_compared :
    ¬ ∀ (svc : Service) (now : Time) (tx : Tx) (step : WorkflowStep) (vars : GoMap Value)
      (rules : List DecisionTableRule), step.hitPolicy = "A" →
      variablesToMap tx.inst.vars = .ok vars → svc.ReturnsGo →
      (∀ r ∈ rules, (r.conditions.map (·.1)).Nodup ∧ (r.outputs.map (·.1)).Nodup) →
      (∀ r ∈ rules, r.hasFailing svc vars = false ∧
        ∀ o ∈ r.outputs, (valueOn svc now vars o.2).isSome) →
      ((tableResult svc now tx step rules).Succeeds ↔
          matchedRows svc now vars rules ≠ [] ∧ Unanimous (matchedRows svc now vars rules)) ∧
        ∀ rules', rules'.Perm rules →
          tableResult svc now tx step rules' = tableResult svc now tx step rules := by
  intro h
  let rules : List DecisionTableRule := [
    { conditions := [], outputs := [("tier", .str "gold")] },
    { conditions := [], outputs := [("tier", .str "gold"), ("fee", .str "none")] }]
  have hlaw := h (.ofList []) 0 (countingTx "grade") (tierStep rules) [("count", .str "old")] rules
    rfl rfl (Service.returnsGo_ofList []) (by decide) (by decide +kernel)
  have hfailed : ∀ r r' : TableResult, r = r' →
      (match r with | .failed => true | _ => false) =
        (match r' with | .failed => true | _ => false) := by
    rintro r r' rfl
    rfl
  exact absurd (hfailed _ _ (hlaw.2 rules.reverse (List.reverse_perm _))) (by decide +kernel)

end Rochallor
