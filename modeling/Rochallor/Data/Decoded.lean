import Rochallor.Data.MapOrder
import Rochallor.Data.Rounding

/-! # Decoded documents

    A document and what `json.Marshal` writes for its decoded value need not
    be the same: numbers are rounded to doubles, and keys are sorted.  Decoding
    what has been written changes nothing more.  So two copies of an object, one
    of which is decoded and written back with every merge while the other is
    merged as it is, keep decoding to the same value.
-/

namespace Rochallor

/-! ## Members of a merge -/

namespace GoMap

variable {α : Type} {m delta : GoMap α}

theorem mem_set {k : String} {v : α} {e : String × α} (h : e ∈ m.set k v) :
    e = (k, v) ∨ (e.1 ≠ k ∧ e ∈ m) := by
  unfold set at h
  split at h
  · obtain ⟨x, hx, rfl⟩ := List.mem_map.mp h
    by_cases hk : x.1 = k
    · simp [hk]
    · simp [hk, hx]
  · rename_i hany
    rcases List.mem_append.mp h with h | h
    · refine .inr ⟨fun hk => hany (List.any_eq_true.mpr ⟨e, h, beq_iff_eq.mpr hk⟩), h⟩
    · exact .inl (List.mem_singleton.mp h)

/-- An entry after the merge is the last new one of its key, or an old one. -/
theorem mem_overlay {e : String × α} (h : e ∈ m.overlay delta) :
    delta.last e.1 = some e.2 ∨ (delta.last e.1 = none ∧ e ∈ m) := by
  induction delta generalizing m with
  | nil => exact .inr ⟨rfl, h⟩
  | cons d rest ih =>
    rw [last_cons]
    rcases ih h with hlast | ⟨hnone, hmem⟩
    · exact .inl (by rw [hlast]; rfl)
    · rw [hnone]
      rcases mem_set hmem with rfl | ⟨hne, hmem⟩
      · exact .inl (by simp)
      · exact .inr ⟨by simp [Ne.symm hne], hmem⟩

theorem mem_of_last {k : String} {v : α} (h : m.last k = some v) : (k, v) ∈ m :=
  List.mem_reverse.mp (mem_of_get h)

end GoMap

/-! ## Decoding -/

/-- The decoded value, in its JSON form. -/
def Json.decoded (j : Json) : Option Json :=
  j.toValue.toOption.bind Value.json

theorem decoded_of_toValue {j : Json} {v : Value} (h : j.toValue = .ok v) : j.decoded = v.json := by
  rw [Json.decoded, h]
  rfl

theorem toMembers_ok {ms : GoMap Json} {vs : GoMap Value} (h : toMembers ms = .ok vs) :
    ∀ e ∈ ms, ∃ v, e.2.toValue = .ok v := by
  induction ms generalizing vs with
  | nil => exact fun e he => absurd he List.not_mem_nil
  | cons x rest ih =>
    obtain ⟨k, j⟩ := x
    rw [toMembers] at h
    obtain ⟨v, hv, h⟩ := bind_eq_ok h
    obtain ⟨ws, hws, h⟩ := bind_eq_ok h
    intro e he
    rcases List.mem_cons.mp he with rfl | he
    · exact ⟨v, hv⟩
    · exact ih hws e he

theorem toMembers_isOk {ms : GoMap Json} (h : ∀ e ∈ ms, ∃ v, e.2.toValue = .ok v) :
    ∃ vs, toMembers ms = .ok vs := by
  induction ms with
  | nil => exact ⟨[], rfl⟩
  | cons x rest ih =>
    obtain ⟨k, j⟩ := x
    obtain ⟨ws, hws⟩ := ih fun e he => h e (List.mem_cons_of_mem _ he)
    obtain ⟨v, hv⟩ := h (k, j) (List.mem_cons_self ..)
    exact ⟨(k, v) :: ws, by rw [toMembers, hv, hws]; rfl⟩

/-- The decoded members, key by key. -/
theorem last_toMembers {ms : GoMap Json} {vs : GoMap Value} (h : toMembers ms = .ok vs)
    (k : String) : (vs.last k).map Value.json = (ms.last k).map Json.decoded := by
  induction ms generalizing vs with
  | nil =>
    cases h
    rfl
  | cons x rest ih =>
    obtain ⟨key, j⟩ := x
    rw [toMembers] at h
    obtain ⟨v, hv, h⟩ := bind_eq_ok h
    obtain ⟨ws, hws, h⟩ := bind_eq_ok h
    cases h
    rw [GoMap.last_cons, GoMap.last_cons, Option.map_or, Option.map_or, ih hws]
    congr 1
    by_cases hk : key = k
    · simp [hk, decoded_of_toValue hv]
    · simp [hk]

theorem get_decoded {ms : GoMap Json} {vs : GoMap Value} (h : toMembers ms = .ok vs)
    (k : String) : ((GoMap.overlay [] vs).get k).map Value.json = (ms.last k).map Json.decoded := by
  rw [GoMap.get_overlay, ← last_toMembers h]
  cases GoMap.last vs k <;> rfl

/-! ## Writing back -/

/-- The value is written as a document that decodes to it. -/
def Value.Stable (v : Value) : Prop :=
  ∃ j, v.marshal = .ok j ∧ j.decoded = some j

theorem Value.Stable.decoded_json {v : Value} (h : v.Stable) {j : Json} (hj : v.json = some j) :
    j.decoded = some j := by
  obtain ⟨j', hj', hdec⟩ := h
  rw [Value.json, hj'] at hj
  cases hj
  exact hdec

theorem mem_marshalMembers {m : GoMap Value} {p : GoMap Json} (h : marshalMembers m = .ok p) :
    ∀ e ∈ p, ∃ v, (e.1, v) ∈ m ∧ v.marshal = .ok e.2 := by
  induction m generalizing p with
  | nil =>
    cases h
    exact fun e he => absurd he List.not_mem_nil
  | cons x rest ih =>
    obtain ⟨k, v⟩ := x
    rw [marshalMembers] at h
    obtain ⟨j, hj, h⟩ := bind_eq_ok h
    obtain ⟨q, hq, h⟩ := bind_eq_ok h
    cases h
    intro e he
    rcases List.mem_cons.mp he with rfl | he
    · exact ⟨v, List.mem_cons_self .., hj⟩
    · obtain ⟨w, hw, hm⟩ := ih hq e he
      exact ⟨w, List.mem_cons_of_mem _ hw, hm⟩

theorem toValue_of_decoded {j j' : Json} (h : j.decoded = some j') : ∃ v, j.toValue = .ok v := by
  unfold Json.decoded at h
  cases hv : j.toValue with
  | error e =>
    rw [hv] at h
    cases h
  | ok v => exact ⟨v, rfl⟩

/-- The members `json.Marshal` writes, key by key. -/
theorem last_sortByKey {m : GoMap Value} {p : GoMap Json} (hm : (m.map (·.1)).Nodup)
    (h : marshalMembers m = .ok p) (k : String) : GoMap.last (sortByKey p) k = GoMap.get p k := by
  have hnodup : (p.map (·.1)).Nodup := marshalMembers_keys h ▸ hm
  have hsorted : ((sortByKey p).map (·.1)).Nodup :=
    ((sortByKey_perm p).map _).nodup_iff.mpr hnodup
  rw [GoMap.last_eq_get hsorted]
  exact GoMap.get_of_perm hsorted (sortByKey_perm p) k

theorem stable_obj {m : GoMap Value} (hm : (m.map (·.1)).Nodup) (h : ∀ e ∈ m, e.2.Stable) :
    (Value.obj m).Stable := by
  obtain ⟨p, hp⟩ : ∃ p, marshalMembers m = .ok p := by
    refine marshalMembers_isOk fun e he => ?_
    obtain ⟨j, hj, -⟩ := h e he
    simp [Value.json, hj, Except.toOption]
  have hmarshal := marshal_obj_ok.mpr ⟨p, hp, rfl⟩
  -- what is written decodes member by member
  have hdecoded : ∀ e ∈ p, e.2.decoded = some e.2 := by
    intro e he
    obtain ⟨v, hv, hj⟩ := mem_marshalMembers hp e he
    exact (h _ hv).decoded_json (by rw [Value.json, hj]; rfl)
  obtain ⟨vs, hvs⟩ : ∃ vs, toMembers (sortByKey p) = .ok vs :=
    toMembers_isOk fun e he => toValue_of_decoded (hdecoded e ((sortByKey_perm p).mem_iff.mp he))
  refine ⟨_, hmarshal, ?_⟩
  have hvalue : (Json.obj (sortByKey p)).toValue = .ok (.obj (GoMap.overlay [] vs)) := by
    rw [Json.toValue, hvs]
    rfl
  have hjson : (Value.obj m).json = some (.obj (sortByKey p)) := by
    rw [Value.json, hmarshal]
    rfl
  rw [decoded_of_toValue hvalue, ← hjson]
  refine json_obj_congr (overlay_nodup (by simp)) hm fun k => ?_
  rw [get_decoded hvs, last_sortByKey hm hp, get_marshalMembers hp]
  cases hk : GoMap.get p k with
  | none => rfl
  | some j => simp [hdecoded _ (GoMap.mem_of_get hk)]

mutual

/-- Every decoded value is stable. -/
theorem toValue_stable : ∀ {j : Json} {v : Value}, j.toValue = .ok v → v.Stable
  | .null, v, h => by
    cases h
    exact ⟨.null, rfl, rfl⟩
  | .bool b, v, h => by
    cases h
    exact ⟨.bool b, rfl, rfl⟩
  | .num q plain, v, h => by
    rw [Json.toValue] at h
    split at h
    · rename_i w hw
      cases h
      refine ⟨_, rfl, ?_⟩
      rw [Json.decoded, Json.toValue, Float64.float64_shortest hw]
      rfl
    · cases h
  | .str s, v, h => by
    cases h
    exact ⟨.str s, rfl, rfl⟩
  | .arr items, v, h => by
    rw [Json.toValue] at h
    obtain ⟨vs, hvs, h⟩ := bind_eq_ok h
    cases h
    obtain ⟨js, vs', hjs, hvs', hjs'⟩ := toValues_stable hvs
    refine ⟨.arr js, by rw [Value.marshal, hjs]; rfl, ?_⟩
    rw [Json.decoded, Json.toValue, hvs']
    show Value.json (.arr vs') = _
    rw [Value.json, Value.marshal, hjs']
    rfl
  | .obj members, v, h => by
    rw [Json.toValue] at h
    obtain ⟨vs, hvs, h⟩ := bind_eq_ok h
    cases h
    refine stable_obj (overlay_nodup (by simp)) fun e he => ?_
    rcases GoMap.mem_overlay he with hlast | ⟨-, hnil⟩
    · exact toMembers_stable hvs _ (GoMap.mem_of_last hlast)
    · cases hnil

theorem toValues_stable : ∀ {items : List Json} {vs : List Value}, toValues items = .ok vs →
    ∃ js vs', marshalItems vs = .ok js ∧ toValues js = .ok vs' ∧ marshalItems vs' = .ok js
  | [], vs, h => by
    cases h
    exact ⟨[], [], rfl, rfl, rfl⟩
  | j :: rest, vs, h => by
    rw [toValues] at h
    obtain ⟨v, hv, h⟩ := bind_eq_ok h
    obtain ⟨ws, hws, h⟩ := bind_eq_ok h
    cases h
    obtain ⟨j', hj', hdec⟩ := toValue_stable hv
    obtain ⟨v', hv'⟩ := toValue_of_decoded hdec
    rw [decoded_of_toValue hv'] at hdec
    obtain ⟨js, ws', hjs, hws', hjs'⟩ := toValues_stable hws
    refine ⟨j' :: js, v' :: ws', ?_, ?_, ?_⟩
    · rw [marshalItems, hj', hjs]
      rfl
    · rw [toValues, hv', hws']
      rfl
    · have hm : v'.marshal = .ok j' := by
        unfold Value.json at hdec
        cases hm : v'.marshal with
        | error e =>
          rw [hm] at hdec
          cases hdec
        | ok j =>
          rw [hm] at hdec
          cases hdec
          rfl
      rw [marshalItems, hm, hjs']
      rfl

theorem toMembers_stable : ∀ {members : List (String × Json)} {vs : List (String × Value)},
    toMembers members = .ok vs → ∀ e ∈ vs, e.2.Stable
  | [], vs, h => by
    cases h
    exact fun e he => absurd he List.not_mem_nil
  | (k, j) :: rest, vs, h => by
    rw [toMembers] at h
    obtain ⟨v, hv, h⟩ := bind_eq_ok h
    obtain ⟨ws, hws, h⟩ := bind_eq_ok h
    cases h
    intro e he
    rcases List.mem_cons.mp he with rfl | he
    · exact toValue_stable hv
    · exact toMembers_stable hws e he

end

/-! ## Two copies of an object -/

/-- The documents decode to the same value, or neither decodes.  Values are
    compared in their JSON form, which has sorted keys and the decimals of the
    doubles. -/
def SameValue (a b : Json) : Prop :=
  Alike (fun v w : Value => v.json = w.json) a.toValue b.toValue

/-- Two objects that decode to the same values under the same keys. -/
inductive SameObject : Json → Json → Prop
  | intro (ms ms' : GoMap Json)
      (h : Alike (fun vs ws : GoMap Value => ∀ k,
        (vs.last k).map Value.json = (ws.last k).map Value.json) (toMembers ms) (toMembers ms')) :
      SameObject (.obj ms) (.obj ms')

theorem Alike.of_eq {ε α : Type} {R : α → α → Prop} (hR : ∀ a, R a a) (x : Except ε α) :
    Alike R x x := by
  cases x with
  | error e => trivial
  | ok a => exact hR a

theorem SameObject.refl (ms : GoMap Json) : SameObject (.obj ms) (.obj ms) :=
  .intro ms ms (.of_eq (fun _ _ => rfl) _)

theorem SameObject.sameValue {a b : Json} (h : SameObject a b) : SameValue a b := by
  cases h with
  | intro ms ms' h =>
    rw [SameValue, Json.toValue, Json.toValue]
    refine h.bind fun vs ws hget => ?_
    show Value.json _ = Value.json _
    refine json_obj_congr (overlay_nodup (by simp)) (overlay_nodup (by simp)) fun k => ?_
    rw [GoMap.get_overlay, GoMap.get_overlay, Option.map_or, Option.map_or, hget k]

/-- The last values of a map and of what is written for it. -/
theorem last_marshalMembers {m : GoMap Value} {p : GoMap Json} (h : marshalMembers m = .ok p)
    (k : String) : (m.last k).map Value.json = (p.last k).map some := by
  induction m generalizing p with
  | nil =>
    cases h
    rfl
  | cons e rest ih =>
    obtain ⟨key, v⟩ := e
    rw [marshalMembers] at h
    obtain ⟨j, hj, h⟩ := bind_eq_ok h
    obtain ⟨q, hq, h⟩ := bind_eq_ok h
    cases h
    rw [GoMap.last_cons, GoMap.last_cons, Option.map_or, Option.map_or, ih hq]
    congr 1
    by_cases hk : key = k
    · simp [hk, Value.json, hj, Except.toOption]
    · simp [hk]

section Merge

variable {ms ms' : GoMap Json} {vs ws m' delta : GoMap Value} {p q : GoMap Json}

/-- What the merge writes under a key: the delta's value, or the old one,
    decoded and written back. -/
theorem get_merged (hvs : toMembers ms = .ok vs)
    (hget : ∀ k, m'.get k = (delta.last k).or (vs.last k)) (hq : marshalMembers m' = .ok q)
    (hp : marshalMembers delta = .ok p) (k : String) :
    GoMap.get q k = (GoMap.last p k).or ((GoMap.last ms k).bind Json.decoded) := by
  have hnew := get_marshalMembers hq k
  rw [hget, Option.map_or, last_marshalMembers hp, last_toMembers hvs] at hnew
  refine Option.map_injective (Option.some_injective _) (hnew.symm.trans ?_)
  rw [Option.map_or]
  congr 1
  cases hk : GoMap.last ms k with
  | none => rfl
  | some j =>
    obtain ⟨v, hv⟩ := toMembers_ok hvs _ (GoMap.mem_of_last hk)
    obtain ⟨j', hj', -⟩ := toValue_stable hv
    simp [decoded_of_toValue hv, Value.json, hj', Except.toOption]

/-- Decoding what has been decoded and written back changes nothing. -/
private theorem decoded_decoded (hvs : toMembers ms = .ok vs) (k : String) :
    ((GoMap.last ms k).bind Json.decoded).map Json.decoded = (GoMap.last ms k).map Json.decoded := by
  cases hk : GoMap.last ms k with
  | none => rfl
  | some j =>
    obtain ⟨v, hv⟩ := toMembers_ok hvs _ (GoMap.mem_of_last hk)
    obtain ⟨j', hj', hdec⟩ := toValue_stable hv
    simp [decoded_of_toValue hv, Value.json, hj', Except.toOption, hdec]

/-- Merging a delta into the decoded copy and writing it back, and merging the
    written delta into the other copy, keeps the copies the same. -/
theorem SameObject.merge (h : SameObject (.obj ms) (.obj ms')) (hvs : toMembers ms = .ok vs)
    (hm' : (m'.map (·.1)).Nodup) (hget : ∀ k, m'.get k = (delta.last k).or (vs.last k))
    (hq : marshalMembers m' = .ok q) (hp : marshalMembers delta = .ok p) :
    SameObject (.obj (sortByKey q)) (.obj (GoMap.overlay ms' p)) := by
  obtain ⟨ws, hws, hsame⟩ : ∃ ws, toMembers ms' = .ok ws ∧
      ∀ k, (vs.last k).map Value.json = (GoMap.last ws k).map Value.json := by
    cases h with
    | intro _ _ h =>
      rw [hvs] at h
      cases hws : toMembers ms' with
      | error e =>
        rw [hws] at h
        exact h.elim
      | ok ws =>
        rw [hws] at h
        exact ⟨ws, rfl, h⟩
  have hmerged := get_merged hvs hget hq hp
  have hnodup : (q.map (·.1)).Nodup := marshalMembers_keys hq ▸ hm'
  constructor
  by_cases hnew : ∀ k j, GoMap.last p k = some j → ∃ v, j.toValue = .ok v
  · obtain ⟨us, hus⟩ : ∃ us, toMembers (sortByKey q) = .ok us := by
      refine toMembers_isOk fun e he => ?_
      have hk := GoMap.get_of_mem hnodup ((sortByKey_perm q).mem_iff.mp he)
      rw [hmerged] at hk
      rcases Option.or_eq_some_iff.mp hk with hk | ⟨-, hk⟩
      · exact hnew _ _ hk
      · obtain ⟨j, hj, hdec⟩ := Option.bind_eq_some_iff.mp hk
        have := decoded_decoded hvs e.1
        rw [hk, hj, Option.map_some, Option.map_some, hdec] at this
        exact toValue_of_decoded (Option.some_inj.mp this)
    obtain ⟨us', hus'⟩ : ∃ us', toMembers (GoMap.overlay ms' p) = .ok us' := by
      refine toMembers_isOk fun e he => ?_
      rcases GoMap.mem_overlay he with hk | ⟨-, he⟩
      · exact hnew _ _ hk
      · exact toMembers_ok hws e he
    rw [hus, hus']
    intro k
    rw [last_toMembers hus, last_toMembers hus', last_sortByKey hm' hq, hmerged,
      GoMap.last_overlay, Option.map_or, Option.map_or, decoded_decoded hvs, ← last_toMembers hvs,
      ← last_toMembers hws, hsame]
  · -- a new value that does not decode spoils both copies
    push Not at hnew
    obtain ⟨k, j, hk, hj⟩ := hnew
    have hleft : (k, j) ∈ sortByKey q := by
      refine (sortByKey_perm q).mem_iff.mpr (GoMap.mem_of_get ?_)
      rw [hmerged, hk]
      rfl
    have hright : (k, j) ∈ GoMap.overlay ms' p := by
      refine GoMap.mem_of_get ?_
      rw [GoMap.get_overlay, hk]
      rfl
    cases hus : toMembers (sortByKey q) with
    | ok us =>
      obtain ⟨v, hv⟩ := toMembers_ok hus _ hleft
      exact absurd hv (hj v)
    | error e =>
      cases hus' : toMembers (GoMap.overlay ms' p) with
      | ok us' =>
        obtain ⟨v, hv⟩ := toMembers_ok hus' _ hright
        exact absurd hv (hj v)
      | error e' => trivial

end Merge

end Rochallor
