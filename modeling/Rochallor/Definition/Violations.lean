import Mathlib.Order.Basic
import Rochallor.Data.MapOrder
import Rochallor.Definition.Validator

/-! # What a schema rejects

    `Schema.Validate` against the meaning of a schema: which values have a
    type, which required names are missing and which properties are ill-typed.
    The source ranges over a map and sorts the violations with an unstable
    sort; neither shows in the result.
-/

namespace Rochallor

/-! ## Types of values -/

/-- The JSON values of a schema type.  An integer is a number with no
    fractional part. -/
def Value.HasType (v : Value) : SchemaType → Prop
  | .string => ∃ text, v = .str text
  | .boolean => ∃ b, v = .bool b
  | .number => (∃ n, v = .int n) ∨ ∃ x, v = .float x
  | .integer => (∃ n, v = .int n) ∨ ∃ n : Int, v = .float (.finite n)
  | .unsupported _ => False

theorem matchType_iff (v : Value) {want : SchemaType} :
    (matchType v want).1 = true ↔ v.HasType want := by
  cases v with
  | null => cases want <;> simp [matchType, Value.HasType]
  | bool b => cases want <;> simp [matchType, Value.HasType]
  | int n => cases want <;> simp [matchType, Value.HasType]
  | str text => cases want <;> simp [matchType, Value.HasType]
  | arr items => cases want <;> simp [matchType, Value.HasType]
  | obj members => cases want <;> simp [matchType, Value.HasType]
  | float x =>
    cases want with
    | integer =>
      cases x with
      | finite q =>
        have hint : q.den = 1 ↔ ∃ n : Int, q = n :=
          ⟨fun h => ⟨q.num, (Rat.den_eq_one_iff q).mp h |>.symm⟩, fun ⟨n, h⟩ => by rw [h]; rfl⟩
        simp [matchType, Value.HasType, hint]
      | _ => simp [matchType, Value.HasType]
    | _ => simp [matchType, Value.HasType]

namespace Schema

variable {s : Schema} {values : GoMap Value}

/-! ## What offends -/

/-- A listed property whose value is of another type, or null although it is
    required. -/
def IllTyped (s : Schema) (values : GoMap Value) (name : String) : Prop :=
  ∃ want v, s.properties.get name = some want ∧ values.get name = some v ∧
    (v = .null ∧ name ∈ s.required ∨ v ≠ .null ∧ ¬ v.HasType want)

/-- What a schema asks of the variables. -/
structure Meets (s : Schema) (values : GoMap Value) : Prop where
  required : ∀ name ∈ s.required, ∃ v, values.get name = some v ∧ v ≠ .null
  typed : ∀ name want v, s.properties.get name = some want → values.get name = some v →
    v ≠ .null → v.HasType want

/-- The violations of the first loop. -/
def missing (s : Schema) (values : GoMap Value) : List SchemaViolation :=
  (s.required.filter fun req => (values.get req).isNone).map fun req =>
    { path := req, reason := .requiredMissing : SchemaViolation }

/-- The violations of the second loop. -/
def mismatched (s : Schema) (values : GoMap Value) : List SchemaViolation :=
  s.properties.filterMap fun (name, want) => s.checkProperty values name want

/-- The violations before they are sorted. -/
def violations (s : Schema) (values : GoMap Value) : List SchemaViolation :=
  s.missing values ++ s.mismatched values

theorem checkProperty_null {name : String} {want : SchemaType}
    (hv : values.get name = some .null) :
    s.checkProperty values name want =
      if s.required.contains name then
        some { path := name, expected := want, actual := "null", reason := .typeMismatch }
      else none := by
  rw [checkProperty, hv]

theorem checkProperty_of_ne_null {name : String} {want : SchemaType} {v : Value}
    (hv : values.get name = some v) (hne : v ≠ .null) :
    s.checkProperty values name want =
      if (matchType v want).1 then none
      else some { path := name, expected := want, actual := (matchType v want).2,
                  reason := .typeMismatch } := by
  rw [checkProperty, hv]
  cases v with
  | null => exact absurd rfl hne
  | _ => rfl

theorem checkProperty_isSome {name : String} {want : SchemaType} :
    (s.checkProperty values name want).isSome ↔ ∃ v, values.get name = some v ∧
      (v = .null ∧ name ∈ s.required ∨ v ≠ .null ∧ ¬ v.HasType want) := by
  cases hv : values.get name with
  | none => simp [checkProperty, hv]
  | some v =>
    by_cases hnull : v = .null
    · subst hnull
      rw [checkProperty_null hv]
      split <;> simp_all
    · rw [checkProperty_of_ne_null hv hnull]
      split <;> simp_all [← matchType_iff]

theorem of_checkProperty {name : String} {want : SchemaType} {x : SchemaViolation}
    (h : s.checkProperty values name want = some x) :
    x.path = name ∧ x.reason = .typeMismatch ∧ (values.get name).isSome := by
  cases hv : values.get name with
  | none => simp [checkProperty, hv] at h
  | some v =>
    by_cases hnull : v = .null
    · subst hnull
      rw [checkProperty_null hv] at h
      obtain ⟨-, h⟩ := (ite_eq_iff.mp h).resolve_right (by simp)
      cases h
      exact ⟨rfl, rfl, rfl⟩
    · rw [checkProperty_of_ne_null hv hnull] at h
      obtain ⟨-, h⟩ := (ite_eq_iff.mp h).resolve_left (by simp)
      cases h
      exact ⟨rfl, rfl, rfl⟩

/-! ## Sorting -/

theorem insertByPath_perm (x : SchemaViolation) (xs : List SchemaViolation) :
    (insertByPath x xs).Perm (x :: xs) := by
  induction xs with
  | nil => exact .refl _
  | cons y rest ih =>
    rw [insertByPath]
    split
    · exact (ih.cons y).trans (.swap ..)
    · exact .refl _

/-- In order of name. -/
def Sorted (xs : List SchemaViolation) : Prop :=
  xs.Pairwise fun x y => x.path ≤ y.path

theorem insertByPath_sorted (x : SchemaViolation) {xs : List SchemaViolation} (h : Sorted xs) :
    Sorted (insertByPath x xs) := by
  induction xs with
  | nil => exact List.pairwise_singleton ..
  | cons y rest ih =>
    obtain ⟨hle, hrest⟩ := List.pairwise_cons.mp h
    rw [insertByPath]
    split
    · rename_i hlt
      refine List.pairwise_cons.mpr ⟨fun z hz => ?_, ih hrest⟩
      rcases List.mem_cons.mp ((insertByPath_perm x rest).mem_iff.mp hz) with rfl | hz
      · exact hlt.le
      · exact hle z hz
    · rename_i hnlt
      have hxy : x.path ≤ y.path := not_lt.mp hnlt
      refine List.pairwise_cons.mpr ⟨fun z hz => ?_, h⟩
      rcases List.mem_cons.mp hz with rfl | hz
      · exact hxy
      · exact hxy.trans (hle z hz)

theorem validate_perm (s : Schema) (values : GoMap Value) :
    (s.validate values).Perm (s.violations values) := by
  show (List.foldr insertByPath [] (s.violations values)).Perm (s.violations values)
  induction s.violations values with
  | nil => exact .refl _
  | cons x rest ih => exact (insertByPath_perm x _).trans (ih.cons x)

theorem validate_sorted (s : Schema) (values : GoMap Value) : Sorted (s.validate values) := by
  show Sorted (List.foldr insertByPath [] (s.violations values))
  induction s.violations values with
  | nil => exact .nil
  | cons x rest ih => exact insertByPath_sorted x ih

/-! ## The two loops -/

theorem mem_missing {x : SchemaViolation} : x ∈ s.missing values ↔
    x.path ∈ s.required ∧ values.get x.path = none ∧
      x = { path := x.path, reason := .requiredMissing } := by
  unfold missing
  simp only [List.mem_map, List.mem_filter, Option.isNone_iff_eq_none]
  constructor
  · rintro ⟨req, ⟨hreq, hnone⟩, rfl⟩
    exact ⟨hreq, hnone, rfl⟩
  · rintro ⟨hreq, hnone, hx⟩
    exact ⟨x.path, ⟨hreq, hnone⟩, hx.symm⟩

theorem mem_mismatched {x : SchemaViolation} : x ∈ s.mismatched values ↔
    ∃ e ∈ s.properties, s.checkProperty values e.1 e.2 = some x := by
  simp [mismatched, List.mem_filterMap]

/-- Violations about one name are the same. -/
theorem violation_ext (hkeys : (s.properties.map (·.1)).Nodup) {x y : SchemaViolation}
    (hx : x ∈ s.violations values) (hy : y ∈ s.violations values) (h : x.path = y.path) :
    x = y := by
  -- a name is missing or has a value
  have hapart : ∀ {x y : SchemaViolation}, x ∈ s.missing values → y ∈ s.mismatched values →
      x.path ≠ y.path := by
    intro x y hx hy heq
    obtain ⟨-, hnone, -⟩ := mem_missing.mp hx
    obtain ⟨e, -, he⟩ := mem_mismatched.mp hy
    obtain ⟨hpath, -, hsome⟩ := of_checkProperty he
    rw [← hpath, ← heq, hnone] at hsome
    cases hsome
  rcases List.mem_append.mp hx with hx | hx
  · rcases List.mem_append.mp hy with hy | hy
    · obtain ⟨-, -, hx⟩ := mem_missing.mp hx
      obtain ⟨-, -, hy⟩ := mem_missing.mp hy
      rw [hx, hy, h]
    · exact absurd h (hapart hx hy)
  · rcases List.mem_append.mp hy with hy | hy
    · exact absurd h.symm (hapart hy hx)
    · obtain ⟨e, he, hx⟩ := mem_mismatched.mp hx
      obtain ⟨e', he', hy⟩ := mem_mismatched.mp hy
      have hname : e.1 = e'.1 := by
        rw [← (of_checkProperty hx).1, ← (of_checkProperty hy).1, h]
      have hwant : e.2 = e'.2 := by
        have hget := GoMap.get_of_mem hkeys he
        rw [hname, GoMap.get_of_mem hkeys he'] at hget
        exact (Option.some.inj hget).symm
      rw [hname, hwant, hy] at hx
      exact (Option.some.inj hx).symm

/-- There is one way to sort the violations. -/
theorem eq_validate (hkeys : (s.properties.map (·.1)).Nodup) {out : List SchemaViolation}
    (hperm : out.Perm (s.violations values)) (hsorted : Sorted out) : out = s.validate values := by
  refine List.Perm.eq_of_pairwise (fun x y hx hy hxy hyx => ?_) hsorted
    (validate_sorted s values) (hperm.trans (validate_perm s values).symm)
  exact violation_ext hkeys (hperm.mem_iff.mp hx) ((validate_perm s values).mem_iff.mp hy)
    (le_antisymm hxy hyx)

/-! ## How often a name is reported -/

/-- A key occurs once. -/
theorem countP_key {α : Type} {m : GoMap α} (hkeys : (m.map (·.1)).Nodup) (name : String)
    (f : α → Bool) :
    m.countP (fun e => e.1 == name && f e.2) = if (m.get name).any f then 1 else 0 := by
  induction m with
  | nil => rfl
  | cons e rest ih =>
    rw [List.map_cons, List.nodup_cons] at hkeys
    rw [List.countP_cons, GoMap.get_cons, ih hkeys.2]
    by_cases hname : e.1 = name
    · have hnone : GoMap.get rest name = none := GoMap.get_eq_none.mpr (hname ▸ hkeys.1)
      simp [hname, hnone]
    · simp [hname]

/-- A missing name is reported as often as it is required. -/
theorem count_missing (name : String) :
    (s.validate values).countP (fun x => x.path == name && x.reason == .requiredMissing) =
      if values.get name = none then s.required.count name else 0 := by
  have hmismatched : (s.mismatched values).countP
      (fun x => x.path == name && x.reason == .requiredMissing) = 0 := by
    refine List.countP_eq_zero.mpr fun x hx => ?_
    obtain ⟨e, -, he⟩ := mem_mismatched.mp hx
    simp [(of_checkProperty he).2.1]
  rw [(validate_perm s values).countP_eq, violations, List.countP_append, hmismatched, Nat.add_zero,
    missing, List.countP_map, List.countP_filter]
  split
  · rename_i hnone
    rw [List.count]
    refine List.countP_congr fun req _ => ?_
    simp only [Function.comp_apply, beq_self_eq_true, Bool.and_true, Bool.and_eq_true, beq_iff_eq,
      and_iff_left_iff_imp]
    rintro rfl
    rw [hnone]
    rfl
  · rename_i hsome
    refine List.countP_eq_zero.mpr fun req _ => ?_
    simp only [Function.comp_apply, beq_self_eq_true, Bool.and_true, Bool.and_eq_true, beq_iff_eq,
      not_and]
    rintro rfl
    simpa using hsome

/-- An ill-typed property is reported once. -/
theorem count_mismatched (hkeys : (s.properties.map (·.1)).Nodup) (name : String)
    [Decidable (s.IllTyped values name)] :
    (s.validate values).countP (fun x => x.path == name && x.reason == .typeMismatch) =
      if s.IllTyped values name then 1 else 0 := by
  have hmissing : (s.missing values).countP
      (fun x => x.path == name && x.reason == .typeMismatch) = 0 := by
    refine List.countP_eq_zero.mpr fun x hx => ?_
    obtain ⟨-, -, hx⟩ := mem_missing.mp hx
    rw [hx]
    simp
  have hproperty : ∀ e : String × SchemaType, ((s.checkProperty values e.1 e.2).map
      fun x => x.path == name && x.reason == .typeMismatch).getD false =
        (e.1 == name && (s.checkProperty values name e.2).isSome) := by
    intro e
    by_cases hname : e.1 = name
    · rw [← hname]
      cases hx : s.checkProperty values e.1 e.2 with
      | none => simp
      | some x =>
        obtain ⟨hpath, hreason, -⟩ := of_checkProperty hx
        simp [hpath, hreason]
    · rw [beq_eq_false_iff_ne.mpr hname, Bool.false_and]
      cases hx : s.checkProperty values e.1 e.2 with
      | none => rfl
      | some x =>
        obtain ⟨hpath, -, -⟩ := of_checkProperty hx
        simp [hpath, hname]
  have hill : ((s.properties.get name).any fun want => (s.checkProperty values name want).isSome) =
      true ↔ s.IllTyped values name := by
    simp only [Option.any_eq_true, checkProperty_isSome, IllTyped]
    constructor
    · rintro ⟨want, hwant, v, hv, h⟩
      exact ⟨want, v, hwant, hv, h⟩
    · rintro ⟨want, v, hwant, hv, h⟩
      exact ⟨want, hwant, v, hv, h⟩
  rw [(validate_perm s values).countP_eq, violations, List.countP_append, hmissing, Nat.zero_add,
    mismatched, List.countP_filterMap]
  simp only [hproperty]
  rw [countP_key hkeys name fun want => (s.checkProperty values name want).isSome]
  simp only [hill]

/-- A listed variable is all that counts. -/
theorem violations_perm {s' : Schema} {values' : GoMap Value}
    (hproperties : s'.properties.Perm s.properties) (hrequired : s'.required = s.required)
    (hvalues : ∀ name ∈ s.required ++ s.properties.map (·.1), values'.get name = values.get name) :
    (s'.violations values').Perm (s.violations values) := by
  have hmissing : s'.missing values' = s.missing values := by
    unfold missing
    rw [hrequired]
    congr 1
    refine List.filter_congr fun req hreq => ?_
    rw [hvalues req (List.mem_append_left _ hreq)]
  have hcheck : ∀ e ∈ s.properties,
      s'.checkProperty values' e.1 e.2 = s.checkProperty values e.1 e.2 := by
    intro e he
    unfold checkProperty
    rw [hvalues e.1 (List.mem_append_right _ (List.mem_map_of_mem he)), hrequired]
  have hmismatched : (s'.mismatched values').Perm (s.mismatched values) := by
    refine (hproperties.filterMap _).trans (.of_eq ?_)
    exact List.filterMap_congr hcheck
  unfold violations
  rw [hmissing]
  exact hmismatched.append_left _

/-! ## The schema is met, or its violations are listed -/

theorem validate_eq_nil_iff {label : String} (hshape : validateSchemaShape label s = [])
    (hkeys : (s.properties.map (·.1)).Nodup) : s.validate values = [] ↔ s.Meets values := by
  have hlisted : ∀ name ∈ s.required, ∃ want, s.properties.get name = some want := by
    intro name hname
    simp only [validateSchemaShape, List.append_eq_nil_iff, List.filterMap_eq_nil_iff] at hshape
    have hget : ¬ s.properties.get name = none := by simpa using hshape.2 name hname
    exact Option.ne_none_iff_exists'.mp hget
  rw [← List.length_eq_zero_iff, (validate_perm s values).length_eq, List.length_eq_zero_iff,
    violations, List.append_eq_nil_iff, mismatched, List.filterMap_eq_nil_iff]
  have hmissing : s.missing values = [] ↔ ∀ name ∈ s.required, values.get name ≠ none := by
    simp [missing, List.filter_eq_nil_iff, ← Option.isSome_iff_ne_none]
  rw [hmissing]
  constructor
  · rintro ⟨hpresent, hproperties⟩
    have hproperty : ∀ {name want v}, s.properties.get name = some want →
        values.get name = some v →
          ¬ (v = .null ∧ name ∈ s.required ∨ v ≠ .null ∧ ¬ v.HasType want) := by
      intro name want v hwant hv h
      have hnone : s.checkProperty values name want = none :=
        hproperties (name, want) (GoMap.mem_of_get hwant)
      have hsome := checkProperty_isSome.mpr ⟨v, hv, h⟩
      rw [hnone] at hsome
      cases hsome
    constructor
    · intro name hname
      obtain ⟨want, hwant⟩ := hlisted name hname
      obtain ⟨v, hv⟩ := Option.ne_none_iff_exists'.mp (hpresent name hname)
      exact ⟨v, hv, fun hnull => hproperty hwant hv (.inl ⟨hnull, hname⟩)⟩
    · intro name want v hwant hv hne
      by_contra hnot
      exact hproperty hwant hv (.inr ⟨hne, hnot⟩)
  · intro h
    refine ⟨fun name hname hnone => ?_, fun e he => ?_⟩
    · obtain ⟨v, hv, -⟩ := h.required name hname
      rw [hnone] at hv
      cases hv
    · show s.checkProperty values e.1 e.2 = none
      rw [← Option.not_isSome_iff_eq_none, checkProperty_isSome]
      rintro ⟨v, hv, ⟨hnull, hreq⟩ | ⟨hne, hnot⟩⟩
      · obtain ⟨v', hv', hne⟩ := h.required e.1 hreq
        rw [hv] at hv'
        exact hne (Option.some.inj hv' ▸ hnull)
      · exact hnot (h.typed e.1 e.2 v (GoMap.get_of_mem hkeys he) hv hne)

end Schema

/-- A schema with distinct properties that `Validate` accepts reports nothing
    exactly if it is met, and else the offending names in their order: a
    missing name as often as it is required, an ill-typed property once.
    Neither the order of the maps nor an unlisted variable counts. -/
theorem schema_violations (label : String) (s : Schema) (values : GoMap Value)
    (hshape : validateSchemaShape label s = []) (hkeys : (s.properties.map (·.1)).Nodup) :
    (s.validate values = [] ↔ s.Meets values) ∧
    Schema.Sorted (s.validate values) ∧
    (∀ name, (s.validate values).countP
        (fun x => x.path == name && x.reason == .requiredMissing) =
      if values.get name = none then s.required.count name else 0) ∧
    (∀ name, (s.IllTyped values name → (s.validate values).countP
        (fun x => x.path == name && x.reason == .typeMismatch) = 1) ∧
      (¬ s.IllTyped values name → (s.validate values).countP
        (fun x => x.path == name && x.reason == .typeMismatch) = 0)) ∧
    ∀ (s' : Schema) (values' : GoMap Value) (out : List SchemaViolation),
      s'.properties.Perm s.properties → s'.required = s.required →
      (∀ name ∈ s.required ++ s.properties.map (·.1), values'.get name = values.get name) →
      out.Perm (s'.violations values') → Schema.Sorted out → out = s.validate values := by
  classical
  refine ⟨Schema.validate_eq_nil_iff hshape hkeys, Schema.validate_sorted s values,
    Schema.count_missing, fun name => ⟨?_, ?_⟩, ?_⟩
  · intro hill
    rw [Schema.count_mismatched hkeys, if_pos hill]
  · intro hill
    rw [Schema.count_mismatched hkeys, if_neg hill]
  · intro s' values' out hproperties hrequired hvalues hperm hsorted
    exact Schema.eq_validate hkeys
      (hperm.trans (Schema.violations_perm hproperties hrequired hvalues)) hsorted

/-- An amount that has to be there, and a note. -/
def orderSchema : Schema :=
  { properties := [("note", .string), ("amount", .integer)], required := ["amount", "amount"] }

/-- A missing name that is required twice is reported twice, in front of an
    ill-typed note. -/
example : orderSchema.validate [("note", .bool true)] =
    [{ path := "amount", reason := .requiredMissing },
     { path := "amount", reason := .requiredMissing },
     { path := "note", expected := .string, actual := "boolean", reason := .typeMismatch }] := by
  decide

theorem schema_violations_order :
    orderSchema.validate [("amount", .float (.finite 3)), ("note", .null)] = [] :=
  (schema_violations "input_schema" orderSchema
    [("amount", .float (.finite 3)), ("note", .null)] (by decide) (by decide)).1.mpr
    { required := fun name hname => by
        obtain rfl : name = "amount" := by simpa [orderSchema] using hname
        exact ⟨.float (.finite 3), rfl, by simp⟩
      typed := fun name want v hwant hv hne => by
        by_cases hnote : name = "note"
        · subst hnote
          exact absurd (Option.some.inj hv).symm hne
        · by_cases hamount : name = "amount"
          · subst hamount
            obtain rfl : SchemaType.integer = want := Option.some.inj hwant
            exact .inr ⟨3, (Option.some.inj hv).symm⟩
          · simp [orderSchema, Ne.symm hnote, Ne.symm hamount, GoMap.get] at hwant }

end Rochallor
