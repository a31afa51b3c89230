import Rochallor.Safety.HitPolicies

/-! # Collect policies

    Under the policies `R` and `C` a decision table outputs one list a column,
    under `C+`, `C#`, `C>` and `C<` the sum, the length, the maximum or the
    minimum of that list.  The rows are those of the rules that match, so they
    are evaluated on the variables before the step.
-/

namespace Rochallor

/-! ## Column lists -/

/-- The columns of the rows, each once. -/
def columnsOf (rows : List (GoMap Value)) : List String :=
  (rows.flatMap fun m => m.map (·.1)).dedup

/-- The values of a column in document order, null where a rule omits it. -/
def columnList (rows : List (GoMap Value)) (col : String) : List Value :=
  rows.map fun m => column m col

def Value.isNumber : Value → Bool
  | .int _ | .float _ => true
  | _ => false

/-- The exact value of a number. -/
def exactNumber : Value → Option ℚ
  | .int n => some n
  | .float (.finite q) => some q
  | _ => none

/-- The policies that need numbers. -/
def numericPolicies : List String :=
  ["C+", "C>", "C<"]

/-- What a policy makes of the list of a column. -/
inductive Collects (policy : String) (vals : List Value) : Value → Prop
  | list (hpolicy : policy = "R" ∨ policy = "C") : Collects policy vals (.arr vals)
  | count (hpolicy : policy = "C#") : Collects policy vals (.int vals.length)
  | sum (hpolicy : policy = "C+") (qs : List ℚ)
      (hvals : List.Forall₂ (fun v q => exactNumber v = some q) vals qs) :
      Collects policy vals (.float (.finite qs.sum))
  | max (hpolicy : policy = "C>") (qs : List ℚ)
      (hvals : List.Forall₂ (fun v q => exactNumber v = some q) vals qs)
      (q : ℚ) (hmem : q ∈ qs) (hmax : ∀ x ∈ qs, x ≤ q) : Collects policy vals (.float (.finite q))
  | min (hpolicy : policy = "C<") (qs : List ℚ)
      (hvals : List.Forall₂ (fun v q => exactNumber v = some q) vals qs)
      (q : ℚ) (hmem : q ∈ qs) (hmin : ∀ x ∈ qs, q ≤ x) : Collects policy vals (.float (.finite q))

/-- The numbers of a list are exact as far as the policy works on them: none is
    infinite, integers and running sums are doubles. -/
structure ExactList (policy : String) (vals : List Value) : Prop where
  finite : policy ≠ "C#" → ∀ v ∈ vals, v.json.isSome
  ints : policy ∈ numericPolicies → ∀ n : Int, .int n ∈ vals → Float64.float64 n = some (n : ℚ)
  sums : policy = "C+" → ∀ qs, List.Forall₂ (fun v q => exactNumber v = some q) vals qs →
    ∀ done rest, qs = done ++ rest → Float64.float64 done.sum = some done.sum

/-! ## Aggregation -/

section Aggregation

variable {vals : List Value} {nums : List GoFloat} {qs : List ℚ}

theorem isNumber_eq (v : Value) : v.isNumber = (toFloat64 v).isSome := by
  cases v <;> rfl

theorem columnNumbers_spec (vals : List Value) (i : Nat) :
    match columnNumbers vals i with
    | .error _ => ∃ v ∈ vals, v.isNumber = false
    | .ok nums => List.Forall₂ (fun v x => toFloat64 v = some x) vals nums := by
  induction vals generalizing i with
  | nil => exact .nil
  | cons v rest ih =>
    rw [columnNumbers]
    cases hv : toFloat64 v with
    | none => exact ⟨v, List.mem_cons_self .., by rw [isNumber_eq, hv]; rfl⟩
    | some x =>
      have hrest := ih (i + 1)
      simp only
      cases hn : columnNumbers rest (i + 1) with
      | error e =>
        rw [hn] at hrest
        obtain ⟨w, hw, hnot⟩ := hrest
        exact ⟨w, List.mem_cons_of_mem _ hw, hnot⟩
      | ok nums =>
        rw [hn] at hrest
        exact .cons hv hrest

theorem isNumber_of_numbers (h : List.Forall₂ (fun v x => toFloat64 v = some x) vals nums) :
    ∀ v ∈ vals, v.isNumber = true := by
  induction h with
  | nil => exact fun v hv => absurd hv List.not_mem_nil
  | cons hv _ ih =>
    intro w hw
    rcases List.mem_cons.mp hw with rfl | hw
    · rw [isNumber_eq, hv]
      rfl
    · exact ih w hw

/-- Exact numbers are converted as they are. -/
theorem numbers_exact (h : List.Forall₂ (fun v x => toFloat64 v = some x) vals nums)
    (hfinite : ∀ v ∈ vals, v.json.isSome)
    (hints : ∀ n : Int, .int n ∈ vals → Float64.float64 n = some (n : ℚ)) :
    ∃ qs, List.Forall₂ (fun v q => exactNumber v = some q) vals qs ∧
      nums = qs.map GoFloat.finite := by
  induction h with
  | nil => exact ⟨[], .nil, rfl⟩
  | @cons v x vals nums hv _ ih =>
    obtain ⟨qs, hqs, rfl⟩ := ih (fun w hw => hfinite w (List.mem_cons_of_mem _ hw))
      fun n hn => hints n (List.mem_cons_of_mem _ hn)
    have hx : ∃ q, exactNumber v = some q ∧ x = .finite q := by
      cases v with
      | int n =>
        refine ⟨n, rfl, ?_⟩
        rw [toFloat64, GoFloat.ofRat, hints n (List.mem_cons_self ..)] at hv
        exact (Option.some.inj hv).symm
      | float y =>
        cases y with
        | finite q => exact ⟨q, rfl, (Option.some.inj hv).symm⟩
        | _ => cases hfinite _ (List.mem_cons_self ..)
      | _ => cases hv
    obtain ⟨q, hq, rfl⟩ := hx
    exact ⟨q :: qs, .cons hq hqs, rfl⟩

variable (qs) in
/-- Adding up doubles whose running sums are doubles. -/
theorem foldl_add_exact (a : ℚ)
    (h : ∀ done rest, qs = done ++ rest → done ≠ [] →
      Float64.float64 (a + done.sum) = some (a + done.sum)) :
    (qs.map GoFloat.finite).foldl GoFloat.add (.finite a) = .finite (a + qs.sum) := by
  induction qs generalizing a with
  | nil => simp
  | cons q rest ih =>
    have hq := h [q] rest rfl (List.cons_ne_nil _ _)
    rw [List.sum_singleton] at hq
    rw [List.map_cons, List.foldl_cons, GoFloat.add, GoFloat.ofRat, hq]
    simp only
    rw [ih (a + q), List.sum_cons, add_assoc]
    intro done rest' hsplit _
    have hd := h (q :: done) rest' (by rw [hsplit]; rfl) (List.cons_ne_nil _ _)
    rwa [List.sum_cons, ← add_assoc] at hd

/-- A fold that keeps the better of two doubles finds the best one. -/
theorem foldl_best {R : ℚ → ℚ → Prop} (hrefl : ∀ a, R a a)
    (htrans : ∀ a b c, R a b → R b c → R a c) (keep : GoFloat → GoFloat → GoFloat)
    (hkeep : ∀ a b, (keep (.finite a) (.finite b) = .finite a ∧ R b a) ∨
      (keep (.finite a) (.finite b) = .finite b ∧ R a b)) (q : ℚ) (qs : List ℚ) :
    ∃ m ∈ q :: qs, (qs.map GoFloat.finite).foldl keep (.finite q) = .finite m ∧
      ∀ x ∈ q :: qs, R x m := by
  induction qs generalizing q with
  | nil => exact ⟨q, List.mem_cons_self .., rfl, fun x hx => List.mem_singleton.mp hx ▸ hrefl q⟩
  | cons p rest ih =>
    rw [List.map_cons, List.foldl_cons]
    rcases hkeep q p with ⟨hk, hR⟩ | ⟨hk, hR⟩
    · obtain ⟨m, hmem, hfold, hall⟩ := ih q
      refine ⟨m, ?_, by rw [hk, hfold], ?_⟩
      · rcases List.mem_cons.mp hmem with rfl | hmem
        · exact List.mem_cons_self ..
        · exact List.mem_cons_of_mem _ (List.mem_cons_of_mem _ hmem)
      · intro x hx
        rcases List.mem_cons.mp hx with rfl | hx
        · exact hall x (List.mem_cons_self ..)
        · rcases List.mem_cons.mp hx with rfl | hx
          · exact htrans _ _ _ hR (hall q (List.mem_cons_self ..))
          · exact hall x (List.mem_cons_of_mem _ hx)
    · obtain ⟨m, hmem, hfold, hall⟩ := ih p
      refine ⟨m, List.mem_cons_of_mem _ hmem, by rw [hk, hfold], ?_⟩
      intro x hx
      rcases List.mem_cons.mp hx with rfl | hx
      · exact htrans _ _ _ hR (hall p (List.mem_cons_self ..))
      · exact hall x hx

/-- The aggregators with their policies. -/
def aggregators : List (String × Char) :=
  [("C+", '+'), ("C#", '#'), ("C>", '>'), ("C<", '<')]

/-- A column is collected, or the policy needs numbers and some value is none. -/
theorem aggregateColumn_spec {policy : String} {suffix : Char}
    (hpolicy : (policy, suffix) ∈ aggregators) (hne : vals ≠ []) (hexact : ExactList policy vals) :
    match aggregateColumn suffix vals with
    | .error _ => policy ∈ numericPolicies ∧ ∃ v ∈ vals, v.isNumber = false
    | .ok v => Collects policy vals v ∧
        (policy ∈ numericPolicies → ∀ v ∈ vals, v.isNumber = true) := by
  have hnumbers := columnNumbers_spec vals 0
  cases vals with
  | nil => exact absurd rfl hne
  | cons w ws =>
    by_cases hcount : suffix = '#'
    · subst hcount
      obtain rfl : policy = "C#" := by
        simpa [aggregators] using hpolicy
      exact ⟨.count rfl, fun h => absurd h (by decide)⟩
    · have hnumeric : policy ∈ numericPolicies := by
        simp only [aggregators, List.mem_cons, List.not_mem_nil, or_false, Prod.mk.injEq] at hpolicy
        rcases hpolicy with ⟨rfl, -⟩ | ⟨-, rfl⟩ | ⟨rfl, -⟩ | ⟨rfl, -⟩
        · decide
        · exact absurd rfl hcount
        · decide
        · decide
      have hsharp : policy ≠ "C#" := by
        rintro rfl
        exact absurd hnumeric (by decide)
      unfold aggregateColumn
      rw [if_neg hcount]
      simp only
      cases hn : columnNumbers (w :: ws) 0 with
      | error e =>
        rw [hn] at hnumbers
        exact ⟨hnumeric, hnumbers⟩
      | ok nums =>
        rw [hn] at hnumbers
        have hall := isNumber_of_numbers hnumbers
        obtain ⟨qs, hqs, rfl⟩ := numbers_exact hnumbers (hexact.finite hsharp)
          (hexact.ints hnumeric)
        cases hqs with
        | @cons _ q _ qs hq hqs =>
          have hqs' : List.Forall₂ (fun v q => exactNumber v = some q) (w :: ws) (q :: qs) :=
            .cons hq hqs
          simp only [aggregators, List.mem_cons, List.not_mem_nil, or_false, Prod.mk.injEq]
            at hpolicy
          rcases hpolicy with ⟨rfl, rfl⟩ | ⟨-, rfl⟩ | ⟨rfl, rfl⟩ | ⟨rfl, rfl⟩
          · -- the sum starts at zero
            have hsum := foldl_add_exact (q :: qs) 0 fun done rest hsplit _ => by
              rw [zero_add]
              exact hexact.sums rfl _ hqs' done rest hsplit
            rw [zero_add] at hsum
            refine ⟨?_, fun _ => hall⟩
            show Collects "C+" (w :: ws) (.float _)
            rw [hsum]
            exact .sum rfl _ hqs'
          · exact absurd rfl hcount
          · obtain ⟨m, hmem, hfold, hmax⟩ := foldl_best (R := (· ≤ ·)) le_refl
              (fun _ _ _ => le_trans) (fun m n => if m.lt n then n else m)
              (fun a b => by
                by_cases hab : a < b
                · exact .inr ⟨by simp [GoFloat.lt, hab], le_of_lt hab⟩
                · exact .inl ⟨by simp [GoFloat.lt, hab], not_lt.mp hab⟩) q qs
            refine ⟨?_, fun _ => hall⟩
            show Collects "C>" (w :: ws) (.float _)
            rw [List.map_cons, List.headD_cons, List.tail_cons, hfold]
            exact .max rfl _ hqs' m hmem hmax
          · obtain ⟨m, hmem, hfold, hmin⟩ := foldl_best (R := (· ≥ ·)) le_refl
              (fun _ _ _ hab hbc => le_trans hbc hab) (fun m n => if n.lt m then n else m)
              (fun a b => by
                by_cases hab : b < a
                · exact .inr ⟨by simp [GoFloat.lt, hab], le_of_lt hab⟩
                · exact .inl ⟨by simp [GoFloat.lt, hab], not_lt.mp hab⟩) q qs
            refine ⟨?_, fun _ => hall⟩
            show Collects "C<" (w :: ws) (.float _)
            rw [List.map_cons, List.headD_cons, List.tail_cons, hfold]
            exact .min rfl _ hqs' m hmem hmin

end Aggregation

/-! ## The policies on rows -/

def collectPolicies : List String :=
  ["R", "C", "C+", "C#", "C>", "C<"]

section Rows

variable {rows : List (GoMap Value)} {stepID : StepId} {policy : String}

theorem buildColumnLists_eq (rows : List (GoMap Value)) :
    buildColumnLists rows = (columnsOf rows).map fun col => (col, columnList rows col) := rfl

/-- What the columns are collected to, or the policy needs numbers and some
    value is none. -/
theorem aggregateColumns_spec {suffix : Char} (hpolicy : (policy, suffix) ∈ aggregators)
    (hne : rows ≠ []) (hexact : ∀ col ∈ columnsOf rows, ExactList policy (columnList rows col)) :
    match aggregateColumns stepID suffix (buildColumnLists rows) with
    | .error _ => policy ∈ numericPolicies ∧
        ∃ col ∈ columnsOf rows, ∃ v ∈ columnList rows col, v.isNumber = false
    | .ok delta => delta.map (·.1) = columnsOf rows ∧
        (∀ e ∈ delta, Collects policy (columnList rows e.1) e.2) ∧
        (policy ∈ numericPolicies →
          ∀ col ∈ columnsOf rows, ∀ v ∈ columnList rows col, v.isNumber = true) := by
  have hlist : ∀ col, columnList rows col ≠ [] := by
    intro col h
    exact hne (List.map_eq_nil_iff.mp h)
  rw [aggregateColumns_eq, buildColumnLists_eq]
  generalize columnsOf rows = cols at hexact ⊢
  induction cols with
  | nil => exact ⟨rfl, fun e he => absurd he List.not_mem_nil, fun _ col hcol => by cases hcol⟩
  | cons col rest ih =>
    have hrest := ih fun c hc => hexact c (List.mem_cons_of_mem _ hc)
    have hcol := aggregateColumn_spec hpolicy (hlist col) (hexact col (List.mem_cons_self ..))
    rw [List.map_cons, GoMap.traverse, aggregated]
    cases ha : aggregateColumn suffix (columnList rows col) with
    | error e =>
      rw [ha] at hcol
      exact ⟨hcol.1, col, List.mem_cons_self .., hcol.2⟩
    | ok v =>
      rw [ha] at hcol
      simp only
      cases hr : GoMap.traverse (aggregated stepID suffix)
          (rest.map fun col => (col, columnList rows col)) with
      | error e =>
        rw [hr] at hrest
        obtain ⟨hnumeric, c, hc, hv⟩ := hrest
        exact ⟨hnumeric, c, List.mem_cons_of_mem _ hc, hv⟩
      | ok delta =>
        rw [hr] at hrest
        obtain ⟨hkeys, hcollects, hnumbers⟩ := hrest
        refine ⟨?_, ?_, ?_⟩
        · show col :: delta.map (·.1) = col :: rest
          rw [hkeys]
        · exact List.forall_mem_cons.mpr ⟨hcol.1, hcollects⟩
        · exact fun hn => List.forall_mem_cons.mpr ⟨hcol.2 hn, hnumbers hn⟩

variable (stepID) in
theorem applyHitPolicy_collect (hpolicy : policy ∈ collectPolicies)
    {evaluated : List (GoMap Value × Nat)} (hrows : evaluated.map (·.1) = rows) (hne : rows ≠ [])
    (hexact : ∀ col ∈ columnsOf rows, ExactList policy (columnList rows col)) :
    match applyHitPolicy stepID policy evaluated with
    | .error _ => policy ∈ numericPolicies ∧
        ∃ col ∈ columnsOf rows, ∃ v ∈ columnList rows col, v.isNumber = false
    | .ok delta => delta.map (·.1) = columnsOf rows ∧
        (∀ e ∈ delta, Collects policy (columnList rows e.1) e.2) ∧
        (policy ∈ numericPolicies →
          ∀ col ∈ columnsOf rows, ∀ v ∈ columnList rows col, v.isNumber = true) := by
  have hlist : ∀ p, p = "R" ∨ p = "C" →
      ((columnsOf rows).map fun col => (col, Value.arr (columnList rows col))).map (·.1) =
        columnsOf rows ∧
      (∀ e ∈ (columnsOf rows).map fun col => (col, Value.arr (columnList rows col)),
        Collects p (columnList rows e.1) e.2) := by
    intro p hp
    refine ⟨by simp [Function.comp_def], fun e he => ?_⟩
    obtain ⟨col, -, rfl⟩ := List.mem_map.mp he
    exact .list hp
  cases evaluated with
  | nil => exact absurd hrows.symm hne
  | cons x xs =>
    simp only [collectPolicies, List.mem_cons, List.not_mem_nil, or_false] at hpolicy
    rcases hpolicy with rfl | rfl | rfl | rfl | rfl | rfl
    · have happly : applyHitPolicy stepID "R" (x :: xs) =
          .ok ((buildColumnLists ((x :: xs).map (·.1))).map fun e => (e.1, .arr e.2)) := rfl
      rw [happly, hrows, buildColumnLists_eq, List.map_map]
      exact ⟨(hlist "R" (.inl rfl)).1, (hlist "R" (.inl rfl)).2, fun h => absurd h (by decide)⟩
    · have happly : applyHitPolicy stepID "C" (x :: xs) =
          .ok ((buildColumnLists ((x :: xs).map (·.1))).map fun e => (e.1, .arr e.2)) := rfl
      rw [happly, hrows, buildColumnLists_eq, List.map_map]
      exact ⟨(hlist "C" (.inr rfl)).1, (hlist "C" (.inr rfl)).2, fun h => absurd h (by decide)⟩
    · have happly : applyHitPolicy stepID "C+" (x :: xs) =
          aggregateColumns stepID '+' (buildColumnLists ((x :: xs).map (·.1))) := rfl
      rw [happly, hrows]
      exact aggregateColumns_spec (by decide) hne hexact
    · have happly : applyHitPolicy stepID "C#" (x :: xs) =
          aggregateColumns stepID '#' (buildColumnLists ((x :: xs).map (·.1))) := rfl
      rw [happly, hrows]
      exact aggregateColumns_spec (by decide) hne hexact
    · have happly : applyHitPolicy stepID "C>" (x :: xs) =
          aggregateColumns stepID '>' (buildColumnLists ((x :: xs).map (·.1))) := rfl
      rw [happly, hrows]
      exact aggregateColumns_spec (by decide) hne hexact
    · have happly : applyHitPolicy stepID "C<" (x :: xs) =
          aggregateColumns stepID '<' (buildColumnLists ((x :: xs).map (·.1))) := rfl
      rw [happly, hrows]
      exact aggregateColumns_spec (by decide) hne hexact

end Rows

/-! ## The step -/

theorem marshalItems_isOk {vals : List Value} (h : ∀ v ∈ vals, v.json.isSome) :
    ∃ js, marshalItems vals = .ok js := by
  induction vals with
  | nil => exact ⟨[], rfl⟩
  | cons v rest ih =>
    obtain ⟨js, hjs⟩ := ih fun w hw => h w (List.mem_cons_of_mem _ hw)
    obtain ⟨j, hj⟩ := Option.isSome_iff_exists.mp (h v (List.mem_cons_self ..))
    exact ⟨j :: js, by rw [marshalItems, toOption_eq_some.mp hj, hjs]; rfl⟩

/-- What is collected can be written. -/
theorem Collects.json {policy : String} {vals : List Value} {v : Value}
    (h : Collects policy vals v) (hexact : ExactList policy vals) : v.json.isSome := by
  cases h with
  | list hpolicy =>
    have hsharp : policy ≠ "C#" := by
      rcases hpolicy with rfl | rfl
      · decide
      · decide
    obtain ⟨js, hjs⟩ := marshalItems_isOk (hexact.finite hsharp)
    rw [Value.json, Value.marshal, hjs]
    rfl
  | count _ => rfl
  | sum _ qs _ => rfl
  | max _ qs _ q _ _ => rfl
  | min _ qs _ q _ _ => rfl

/-- Two fees, both of which are due. -/
def fees : List DecisionTableRule := [
  { conditions := [], outputs := [("fee", .num 2 true)] },
  { conditions := [("late", "true")], outputs := [("fee", .num 3 true)] }]

def feeStep : WorkflowStep where
  id := "fees"
  name := "fees"
  type := .decisionTable
  nextStep := "end"
  decisionTable := some ⟨fees⟩
  hitPolicy := "C+"

theorem matchedRows_fees : matchedRows (.ofList []) 0 [("count", .str "old")] fees =
    [[("fee", .float (.finite 2))], [("fee", .float (.finite 3))]] := by
  have h₂ : valueOn (.ofList []) 0 [("count", .str "old")] (.num 2 true) =
      some (.float (.finite 2)) := by
    rw [valueOn, Json.toValue, show Float64.float64 2 = some 2 by decide +kernel]
    rfl
  have h₃ : valueOn (.ofList []) 0 [("count", .str "old")] (.num 3 true) =
      some (.float (.finite 3)) := by
    rw [valueOn, Json.toValue, show Float64.float64 3 = some 3 by decide +kernel]
    rfl
  show [[("fee", (valueOn (.ofList []) 0 [("count", .str "old")] (.num 2 true)).getD .null)],
    [("fee", (valueOn (.ofList []) 0 [("count", .str "old")] (.num 3 true)).getD .null)]] = _
  rw [h₂, h₃]
  rfl

theorem exactList_fees : ExactList "C+" [.float (.finite 2), .float (.finite 3)] := by
  constructor
  · intro _ v hv
    simp only [List.mem_cons, List.not_mem_nil, or_false] at hv
    rcases hv with rfl | rfl
    · rfl
    · rfl
  · intro _ n hn
    simp at hn
  · intro _ qs hqs done rest hsplit
    cases hqs with
    | cons h₂ hqs =>
      cases hqs with
      | cons h₃ hqs =>
        cases hqs
        obtain rfl := Option.some.inj h₂
        obtain rfl := Option.some.inj h₃
        -- nothing, the first fee or both have been added
        match done, hsplit with
        | [], _ => decide +kernel
        | [_], h =>
          obtain rfl := (List.cons.inj h).1
          decide +kernel
        | [_, _], h =>
          obtain rfl := (List.cons.inj h).1
          obtain rfl := (List.cons.inj (List.cons.inj h).2).1
          decide +kernel
        | _ :: _ :: _ :: _, h => cases h

end Rochallor
