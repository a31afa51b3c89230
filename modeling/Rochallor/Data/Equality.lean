import Rochallor.Data.Decoded

/-! # Structural equality

    `reflect.DeepEqual` compares maps by key.  On Go values, whose maps have
    every key once, it is an equivalence but for NaN, which equals nothing, and
    it implies that `json.Marshal` writes the same document.
-/

namespace Rochallor

mutual

/-- `reflect.DeepEqual`; maps are compared by key. -/
def Value.deepEqual : Value → Value → Bool
  | .null, .null => true
  | .bool a, .bool b => a == b
  | .int a, .int b => a == b
  | .float .nan, .float _ => false
  | .float a, .float b => a == b
  | .str a, .str b => a == b
  | .arr as, .arr bs => deepEqualItems as bs
  | .obj as, .obj bs => as.length == bs.length && deepEqualMembers as bs
  | _, _ => false

def deepEqualItems : List Value → List Value → Bool
  | [], [] => true
  | a :: as, b :: bs => a.deepEqual b && deepEqualItems as bs
  | _, _ => false

def deepEqualMembers : List (String × Value) → List (String × Value) → Bool
  | [], _ => true
  | (k, v) :: ms, bs =>
    (match GoMap.get bs k with
     | none => false
     | some w => v.deepEqual w) && deepEqualMembers ms bs

end

/-- A value Go can hold: no map in it has a key twice. -/
inductive Value.IsGo : Value → Prop
  | null : IsGo .null
  | bool (b : Bool) : IsGo (.bool b)
  | int (n : Int) : IsGo (.int n)
  | float (x : GoFloat) : IsGo (.float x)
  | str (s : String) : IsGo (.str s)
  | arr {items : List Value} (h : ∀ v ∈ items, IsGo v) : IsGo (.arr items)
  | obj {members : List (String × Value)} (hkeys : (members.map (·.1)).Nodup)
      (h : ∀ e ∈ members, IsGo e.2) : IsGo (.obj members)

/-! ## Lists and maps -/

theorem deepEqualItems_iff {as bs : List Value} :
    deepEqualItems as bs = true ↔ List.Forall₂ (fun a b => a.deepEqual b = true) as bs := by
  induction as generalizing bs with
  | nil =>
    cases bs with
    | nil => simp [deepEqualItems]
    | cons b bs => simp [deepEqualItems]
  | cons a as ih =>
    cases bs with
    | nil => simp [deepEqualItems]
    | cons b bs => rw [deepEqualItems, Bool.and_eq_true, ih, List.forall₂_cons]

theorem deepEqualMembers_iff {as bs : List (String × Value)} :
    deepEqualMembers as bs = true ↔
      ∀ e ∈ as, ∃ w, GoMap.get bs e.1 = some w ∧ e.2.deepEqual w = true := by
  induction as with
  | nil => simp [deepEqualMembers]
  | cons e rest ih =>
    obtain ⟨k, v⟩ := e
    rw [deepEqualMembers, Bool.and_eq_true, ih, List.forall_mem_cons]
    cases GoMap.get bs k with
    | none => simp
    | some w => simp

/-- Both keys are absent, or the values are equal. -/
def EqualAt (as bs : List (String × Value)) (k : String) : Prop :=
  Option.Rel (fun v w : Value => v.deepEqual w = true) (GoMap.get as k) (GoMap.get bs k)

/-- Maps are equal if they are so under every key. -/
theorem deepEqual_obj {as bs : List (String × Value)} (has : (as.map (·.1)).Nodup)
    (hbs : (bs.map (·.1)).Nodup) :
    (Value.obj as).deepEqual (.obj bs) = true ↔ ∀ k, EqualAt as bs k := by
  rw [Value.deepEqual, Bool.and_eq_true, beq_iff_eq, deepEqualMembers_iff]
  constructor
  · rintro ⟨hlen, hall⟩ k
    unfold EqualAt
    cases hk : GoMap.get as k with
    | some v =>
      obtain ⟨w, hw, heq⟩ := hall _ (GoMap.mem_of_get hk)
      rw [hw]
      exact .some heq
    | none =>
      -- the keys of the left map are as many as those of the right one
      have hsub : as.map (·.1) ⊆ bs.map (·.1) := by
        intro key hkey
        obtain ⟨e, he, rfl⟩ := List.mem_map.mp hkey
        obtain ⟨w, hw, -⟩ := hall e he
        exact List.mem_map.mpr ⟨_, GoMap.mem_of_get hw, rfl⟩
      have hperm : (as.map (·.1)).Perm (bs.map (·.1)) :=
        (List.subperm_of_subset has hsub).perm_of_length_le (by simp [hlen])
      rw [GoMap.get_eq_none.mpr fun hmem => GoMap.get_eq_none.mp hk (hperm.mem_iff.mpr hmem)]
      exact .none
  · intro hall
    refine ⟨?_, ?_⟩
    · have hkeys : ∀ k, k ∈ as.map (·.1) ↔ k ∈ bs.map (·.1) := by
        intro k
        rw [← not_iff_not, ← GoMap.get_eq_none, ← GoMap.get_eq_none]
        have h := hall k
        unfold EqualAt at h
        revert h
        cases GoMap.get as k <;> cases GoMap.get bs k <;> simp
      simpa using ((List.perm_ext_iff_of_nodup has hbs).mpr hkeys).length_eq
    · intro e he
      have h := hall e.1
      rw [EqualAt, GoMap.get_of_mem has he] at h
      cases hw : GoMap.get bs e.1 with
      | none =>
        rw [hw] at h
        cases h
      | some w =>
        rw [hw] at h
        cases h with
        | some h => exact ⟨w, rfl, h⟩

/-! ## The equivalence -/

/-- How two values are equal: as one value, item by item or key by key. -/
inductive Value.EqualBy : Value → Value → Prop
  | same {v : Value} (h : v.deepEqual v = true) : EqualBy v v
  | items {as bs : List Value} (h : List.Forall₂ (fun a b => a.deepEqual b = true) as bs) :
      EqualBy (.arr as) (.arr bs)
  | keys {as bs : List (String × Value)} (has : (as.map (·.1)).Nodup) (hbs : (bs.map (·.1)).Nodup)
      (h : ∀ k, EqualAt as bs k) : EqualBy (.obj as) (.obj bs)

theorem Value.equalBy {a b : Value} (ha : a.IsGo) (hb : b.IsGo) (h : a.deepEqual b = true) :
    EqualBy a b := by
  cases ha with
  | null => cases hb <;> first | exact .same h | cases h
  | bool x =>
    cases hb <;> try cases h
    obtain rfl := beq_iff_eq.mp h
    exact .same h
  | int n =>
    cases hb <;> try cases h
    obtain rfl := beq_iff_eq.mp h
    exact .same h
  | float x =>
    cases hb with
    | float y =>
      cases x with
      | nan => cases h
      | finite _ | posInf | negInf =>
        obtain rfl := beq_iff_eq.mp h
        exact .same h
    | _ => cases x <;> cases h
  | str s =>
    cases hb <;> try cases h
    obtain rfl := beq_iff_eq.mp h
    exact .same h
  | arr _ =>
    cases hb <;> try cases h
    exact .items (deepEqualItems_iff.mp h)
  | obj hkeys _ =>
    cases hb <;> try cases h
    rename_i hkeys' _
    exact .keys hkeys hkeys' ((deepEqual_obj hkeys hkeys').mp h)

theorem Value.deepEqual_symm {a b : Value} (ha : a.IsGo) (hb : b.IsGo)
    (h : a.deepEqual b = true) : b.deepEqual a = true := by
  induction ha generalizing b with
  | null | bool _ | int _ | float _ | str _ =>
    cases Value.equalBy (by constructor) hb h
    exact h
  | @arr as has ih =>
    cases Value.equalBy (.arr has) hb h with
    | same h => exact h
    | @items _ bs hall =>
      cases hb with
      | arr hbs =>
        refine deepEqualItems_iff.mpr ?_
        rw [List.forall₂_iff_get] at hall ⊢
        obtain ⟨hlen, hall⟩ := hall
        refine ⟨hlen.symm, fun i hi hi' => ?_⟩
        exact ih _ (List.get_mem ..) (hbs _ (List.get_mem ..)) (hall i hi' hi)
  | @obj as hkeys has ih =>
    cases Value.equalBy (.obj hkeys has) hb h with
    | same h => exact h
    | @keys _ bs _ hkeys' hall =>
      cases hb with
      | obj _ hbs =>
        refine (deepEqual_obj hkeys' hkeys).mpr fun k => ?_
        have hk := hall k
        unfold EqualAt at hk ⊢
        generalize hv : GoMap.get as k = v at hk ⊢
        generalize hw : GoMap.get bs k = w at hk ⊢
        cases hk with
        | none => exact .none
        | some hvw =>
          exact .some (ih _ (GoMap.mem_of_get hv) (hbs _ (GoMap.mem_of_get hw)) hvw)

theorem Value.deepEqual_trans {a b c : Value} (ha : a.IsGo) (hb : b.IsGo) (hc : c.IsGo)
    (hab : a.deepEqual b = true) (hbc : b.deepEqual c = true) : a.deepEqual c = true := by
  induction ha generalizing b c with
  | null | bool _ | int _ | float _ | str _ =>
    cases Value.equalBy (by constructor) hb hab
    exact hbc
  | @arr as has ih =>
    cases Value.equalBy (.arr has) hb hab with
    | same _ => exact hbc
    | @items _ bs hall =>
      cases Value.equalBy hb hc hbc with
      | same _ => exact hab
      | @items _ cs hall' =>
        cases hb with
        | arr hbs =>
          cases hc with
          | arr hcs =>
            refine deepEqualItems_iff.mpr ?_
            rw [List.forall₂_iff_get] at hall hall' ⊢
            obtain ⟨hlen, hall⟩ := hall
            obtain ⟨hlen', hall'⟩ := hall'
            refine ⟨hlen.trans hlen', fun i hi hi' => ?_⟩
            have hi'' : i < bs.length := hlen ▸ hi
            exact ih _ (List.get_mem ..) (hbs _ (List.get_mem ..)) (hcs _ (List.get_mem ..))
              (hall i hi hi'') (hall' i hi'' hi')
  | @obj as hkeys has ih =>
    cases Value.equalBy (.obj hkeys has) hb hab with
    | same _ => exact hbc
    | @keys _ bs _ hkeys' hall =>
      cases Value.equalBy hb hc hbc with
      | same _ => exact hab
      | @keys _ cs _ hkeys'' hall' =>
        cases hb with
        | obj _ hbs =>
          cases hc with
          | obj _ hcs =>
            refine (deepEqual_obj hkeys hkeys'').mpr fun k => ?_
            have hk := hall k
            have hk' := hall' k
            unfold EqualAt at hk hk' ⊢
            -- the key is in all three maps or in none
            generalize hv : GoMap.get as k = v at hk ⊢
            generalize hw : GoMap.get bs k = w at hk hk'
            generalize hu : GoMap.get cs k = u at hk' ⊢
            cases hk with
            | none => exact hk'
            | some hvw =>
              cases hk' with
              | some hwu =>
                exact .some (ih _ (GoMap.mem_of_get hv) (hbs _ (GoMap.mem_of_get hw))
                  (hcs _ (GoMap.mem_of_get hu)) hvw hwu)

/-! ## What is written -/

/-- Lists whose items have the same JSON forms are marshalled alike. -/
theorem json_arr_congr {as bs : List Value}
    (h : List.Forall₂ (fun a b => Value.json a = Value.json b) as bs) :
    (Value.arr as).json = (Value.arr bs).json := by
  have hitems : (marshalItems as).toOption = (marshalItems bs).toOption := by
    induction h with
    | nil => rfl
    | @cons a b as bs hab _ ih =>
      unfold Value.json at hab
      rw [marshalItems, marshalItems]
      cases ha : a.marshal with
      | error e =>
        cases hb : b.marshal with
        | error e' => rfl
        | ok j =>
          rw [ha, hb] at hab
          cases hab
      | ok j =>
        cases hb : b.marshal with
        | error e' =>
          rw [ha, hb] at hab
          cases hab
        | ok j' =>
          rw [ha, hb] at hab
          cases hab
          revert ih
          cases marshalItems as <;> cases marshalItems bs <;> intro ih
          · rfl
          · cases ih
          · cases ih
          · cases ih
            rfl
  unfold Value.json
  rw [Value.marshal, Value.marshal]
  revert hitems
  cases marshalItems as <;> cases marshalItems bs <;> intro hitems
  · rfl
  · cases hitems
  · cases hitems
  · cases hitems
    rfl

/-- Equal values are written alike. -/
theorem Value.json_of_deepEqual {a b : Value} (ha : a.IsGo) (hb : b.IsGo)
    (h : a.deepEqual b = true) : a.json = b.json := by
  induction ha generalizing b with
  | null | bool _ | int _ | float _ | str _ =>
    cases Value.equalBy (by constructor) hb h
    rfl
  | @arr as has ih =>
    cases Value.equalBy (.arr has) hb h with
    | same _ => rfl
    | @items _ bs hall =>
      cases hb with
      | arr hbs =>
        refine json_arr_congr ?_
        rw [List.forall₂_iff_get] at hall ⊢
        refine ⟨hall.1, fun i hi hi' => ?_⟩
        exact ih _ (List.get_mem ..) (hbs _ (List.get_mem ..)) (hall.2 i hi hi')
  | @obj as hkeys has ih =>
    cases Value.equalBy (.obj hkeys has) hb h with
    | same _ => rfl
    | @keys _ bs _ hkeys' hall =>
      cases hb with
      | obj _ hbs =>
        refine json_obj_congr hkeys hkeys' fun k => ?_
        have hk := hall k
        unfold EqualAt at hk
        generalize hv : GoMap.get as k = v at hk ⊢
        generalize hw : GoMap.get bs k = w at hk ⊢
        cases hk with
        | none => rfl
        | some hvw =>
          rw [Option.map_some, Option.map_some,
            ih _ (GoMap.mem_of_get hv) (hbs _ (GoMap.mem_of_get hw)) hvw]

/-! ## Decoding -/

theorem overlay_nil_isGo {vs : GoMap Value} (h : ∀ e ∈ vs, e.2.IsGo) :
    ∀ e ∈ GoMap.overlay [] vs, e.2.IsGo := by
  intro e he
  rcases GoMap.mem_overlay he with hlast | ⟨-, hnil⟩
  · exact h _ (GoMap.mem_of_last hlast)
  · cases hnil

mutual

/-- `json.Unmarshal` gives Go values. -/
theorem toValue_isGo : ∀ {j : Json} {v : Value}, j.toValue = .ok v → v.IsGo
  | .null, v, h => by
    cases h
    exact .null
  | .bool b, v, h => by
    cases h
    exact .bool b
  | .num q plain, v, h => by
    rw [Json.toValue] at h
    split at h
    · cases h
      exact .float _
    · cases h
  | .str s, v, h => by
    cases h
    exact .str s
  | .arr items, v, h => by
    rw [Json.toValue] at h
    obtain ⟨vs, hvs, h⟩ := bind_eq_ok h
    cases h
    exact .arr (toValues_isGo hvs)
  | .obj members, v, h => by
    rw [Json.toValue] at h
    obtain ⟨vs, hvs, h⟩ := bind_eq_ok h
    cases h
    exact .obj (overlay_nodup (by simp)) (overlay_nil_isGo (toMembers_isGo hvs))

theorem toValues_isGo : ∀ {items : List Json} {vs : List Value}, toValues items = .ok vs →
    ∀ v ∈ vs, v.IsGo
  | [], vs, h => by
    cases h
    exact fun v hv => absurd hv List.not_mem_nil
  | j :: rest, vs, h => by
    rw [toValues] at h
    obtain ⟨v, hv, h⟩ := bind_eq_ok h
    obtain ⟨ws, hws, h⟩ := bind_eq_ok h
    cases h
    intro w hw
    rcases List.mem_cons.mp hw with rfl | hw
    · exact toValue_isGo hv
    · exact toValues_isGo hws w hw

theorem toMembers_isGo : ∀ {members : List (String × Json)} {vs : List (String × Value)},
    toMembers members = .ok vs → ∀ e ∈ vs, e.2.IsGo
  | [], vs, h => by
    cases h
    exact fun e he => absurd he List.not_mem_nil
  | (k, j) :: rest, vs, h => by
    rw [toMembers] at h
    obtain ⟨v, hv, h⟩ := bind_eq_ok h
    obtain ⟨ws, hws, h⟩ := bind_eq_ok h
    cases h
    intro e he
    rcases List.mem_cons.mp he with rfl | he
    · exact toValue_isGo hv
    · exact toMembers_isGo hws e he

end

end Rochallor
