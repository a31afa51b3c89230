import Rochallor.Data.Decoded

/-! # Documents carried exactly

    A document that is decoded and written back comes out as the same JSON
    value when every number in it is the decimal that is printed for its
    nearest double, and only then.  The integers below `2 ^ 53` are such
    numbers; `2 ^ 53 + 1` is not.

    Two documents are the same value when they are the same in a `JSONB`
    column: objects are compared key by key, and numbers exactly.
-/

namespace Rochallor

/-- The documents are the same JSON value. -/
def SameJson (a b : Json) : Prop :=
  a.jsonb = b.jsonb

instance : DecidableRel SameJson := fun a b =>
  inferInstanceAs (Decidable (a.jsonb = b.jsonb))

/-- The number is printed as it was read. -/
def CarriedNumber (q : ℚ) : Prop :=
  (Float64.float64 q).map Float64.shortest = some q

instance : DecidablePred CarriedNumber := fun q =>
  inferInstanceAs (Decidable ((Float64.float64 q).map Float64.shortest = some q))

/-- Integers below 2^53 are printed as they were read. -/
theorem carriedNumber_int {n : Int} (hn : |n| < 2 ^ 53) : CarriedNumber (n : ℚ) := by
  rw [CarriedNumber, Float64.float64_intCast hn, Option.map_some, Float64.shortest_intCast hn]

mutual

/-- The numbers of a document. -/
def Json.numbers : Json → List ℚ
  | .num q _ => [q]
  | .arr items => numbersOfItems items
  | .obj members => numbersOfMembers members
  | _ => []

def numbersOfItems : List Json → List ℚ
  | [] => []
  | j :: js => j.numbers ++ numbersOfItems js

def numbersOfMembers : List (String × Json) → List ℚ
  | [] => []
  | (_, j) :: ms => j.numbers ++ numbersOfMembers ms

end

/-- Every number of the value is printed as it was read.  A member whose key is
    repeated later is no part of the value. -/
def Json.Carried (j : Json) : Prop :=
  ∀ q ∈ j.jsonb.numbers, CarriedNumber q

instance : DecidablePred Json.Carried := fun j =>
  inferInstanceAs (Decidable (∀ q ∈ j.jsonb.numbers, CarriedNumber q))

/-! ## Objects, key by key -/

theorem numbersOfMembers_eq_flatMap (members : List (String × Json)) :
    numbersOfMembers members = members.flatMap fun m => m.2.numbers := by
  induction members with
  | nil => rfl
  | cons m ms ih => rw [numbersOfMembers, ih, List.flatMap_cons]

/-- The members of an object's column form, key by key. -/
theorem get_jsonbMembers (ms : GoMap Json) (k : String) :
    GoMap.get (sortMembers (GoMap.overlay [] (jsonbMembers ms))) k = (ms.last k).map Json.jsonb := by
  rw [GoMap.get_of_perm (sortMembers_overlay_nodup _) (sortMembers_perm _), GoMap.get_overlay,
    jsonbMembers_eq_map, GoMap.last_map]
  cases ms.last k <;> rfl

theorem sameJson_obj {m m' : GoMap Json} : SameJson (.obj m) (.obj m') ↔
    ∀ k, (m.last k).map Json.jsonb = (m'.last k).map Json.jsonb := by
  rw [SameJson, Json.jsonb, Json.jsonb, Json.obj.injEq]
  constructor
  · intro h k
    rw [← get_jsonbMembers, ← get_jsonbMembers, h]
  · intro h
    refine sortMembers_eq_of_perm (overlay_nodup (by simp)) ?_
    refine GoMap.perm_of_get (overlay_nodup (by simp)) (overlay_nodup (by simp)) fun k => ?_
    have hk := h k
    rw [← get_jsonbMembers, ← get_jsonbMembers] at hk
    rwa [GoMap.get_of_perm (sortMembers_overlay_nodup _) (sortMembers_perm _),
      GoMap.get_of_perm (sortMembers_overlay_nodup _) (sortMembers_perm _)] at hk

theorem carried_obj {ms : GoMap Json} :
    (Json.obj ms).Carried ↔ ∀ k j, ms.last k = some j → j.Carried := by
  have hget := get_jsonbMembers ms
  have hnodup := sortMembers_overlay_nodup (jsonbMembers ms)
  rw [Json.Carried, Json.jsonb, Json.numbers, numbersOfMembers_eq_flatMap]
  constructor
  · intro h k j hj q hq
    have hmem := hget k
    rw [hj] at hmem
    exact h q (List.mem_flatMap.mpr ⟨_, GoMap.mem_of_get hmem, hq⟩)
  · intro h q hq
    obtain ⟨m, hm, hq⟩ := List.mem_flatMap.mp hq
    have hlast := hget m.1
    rw [GoMap.get_of_mem hnodup hm] at hlast
    obtain ⟨j, hj, hjsonb⟩ := Option.map_eq_some_iff.mp hlast.symm
    exact h m.1 j hj q (by rwa [hjsonb])

/-- An object that is decoded and written back, key by key. -/
theorem last_written {ms : GoMap Json} {vs : GoMap Value} {p : GoMap Json}
    (hvs : toMembers ms = .ok vs) (hp : marshalMembers (GoMap.overlay [] vs) = .ok p) (k : String) :
    GoMap.last (sortByKey p) k = (ms.last k).bind Json.decoded := by
  have hget : ∀ k, (GoMap.overlay [] vs).get k = (GoMap.last [] k).or (vs.last k) := by
    intro k
    rw [GoMap.get_overlay]
    cases GoMap.last vs k <;> rfl
  have hnone : GoMap.last ([] : GoMap Json) k = none := rfl
  rw [last_sortByKey (overlay_nodup (by simp)) hp, get_merged hvs hget hp rfl, hnone,
    Option.none_or]

/-! ## The condition -/

theorem decoded_stable {j w : Json} (h : j.decoded = some w) : w.decoded = some w := by
  obtain ⟨v, hv⟩ := toValue_of_decoded h
  rw [decoded_of_toValue hv] at h
  exact (toValue_stable hv).decoded_json h

/-- A document that decodes can be written back. -/
theorem decoded_of_ok {j : Json} {v : Value} (h : j.toValue = .ok v) : ∃ w, j.decoded = some w := by
  obtain ⟨w, hw, -⟩ := toValue_stable h
  exact ⟨w, by rw [decoded_of_toValue h, Value.json, hw]; rfl⟩

theorem decoded_obj {ms : GoMap Json} {w : Json} (h : (Json.obj ms).decoded = some w) :
    ∃ vs p, toMembers ms = .ok vs ∧ marshalMembers (GoMap.overlay [] vs) = .ok p ∧
      w = .obj (sortByKey p) := by
  obtain ⟨v, hv⟩ := toValue_of_decoded h
  rw [decoded_of_toValue hv] at h
  rw [Json.toValue] at hv
  obtain ⟨vs, hvs, hv⟩ := bind_eq_ok hv
  cases hv
  unfold Value.json at h
  cases hm : (Value.obj (GoMap.overlay [] vs)).marshal with
  | error e =>
    rw [hm] at h
    cases h
  | ok j =>
    rw [hm] at h
    cases h
    obtain ⟨p, hp, hj⟩ := marshal_obj_ok.mp hm
    exact ⟨vs, p, hvs, hp, hj⟩

theorem decoded_arr {items : List Json} {w : Json} (h : (Json.arr items).decoded = some w) :
    ∃ vs js, toValues items = .ok vs ∧ marshalItems vs = .ok js ∧ w = .arr js := by
  obtain ⟨v, hv⟩ := toValue_of_decoded h
  rw [decoded_of_toValue hv] at h
  rw [Json.toValue] at hv
  obtain ⟨vs, hvs, hv⟩ := bind_eq_ok hv
  cases hv
  rw [Value.json, Value.marshal] at h
  cases hm : marshalItems vs with
  | error e =>
    rw [hm] at h
    cases h
  | ok js =>
    rw [hm] at h
    cases h
    exact ⟨vs, js, hvs, hm, rfl⟩

mutual

/-- A document comes out as the same value if and only if all its numbers are
    carried. -/
theorem sameJson_decoded_iff : ∀ {j w : Json}, j.decoded = some w → (SameJson j w ↔ j.Carried)
  | .null, w, h => by
    cases h
    exact iff_of_true rfl fun q hq => absurd hq List.not_mem_nil
  | .bool b, w, h => by
    cases h
    exact iff_of_true rfl fun q hq => absurd hq List.not_mem_nil
  | .str s, w, h => by
    cases h
    exact iff_of_true rfl fun q hq => absurd hq List.not_mem_nil
  | .num q plain, w, h => by
    obtain ⟨v, hv⟩ := toValue_of_decoded h
    rw [decoded_of_toValue hv] at h
    rw [Json.toValue] at hv
    have hcarried : (Json.num q plain).Carried ↔ CarriedNumber q := by
      simp [Json.Carried, Json.jsonb, Json.numbers]
    rw [hcarried]
    split at hv
    · rename_i x hx
      cases hv
      obtain ⟨plain', hj⟩ : ∃ plain', (Value.float (.finite x)).json =
          some (.num (Float64.shortest x) plain') := ⟨_, rfl⟩
      rw [hj, Option.some.injEq] at h
      subst h
      rw [CarriedNumber, hx, SameJson, Json.jsonb, Json.jsonb, Option.map_some, Option.some.injEq,
        Json.num.injEq]
      constructor
      · exact fun heq => heq.1.symm
      · intro heq
        rw [heq]
        exact ⟨rfl, rfl⟩
    · cases hv
  | .arr items, w, h => by
    obtain ⟨vs, js, hvs, hjs, rfl⟩ := decoded_arr h
    rw [SameJson, Json.jsonb, Json.jsonb, Json.arr.injEq, Json.Carried, Json.jsonb, Json.numbers]
    exact jsonbItems_decoded_iff hvs hjs
  | .obj ms, w, h => by
    obtain ⟨vs, p, hvs, hp, rfl⟩ := decoded_obj h
    have hlast := last_written hvs hp
    rw [sameJson_obj, carried_obj]
    constructor
    · intro hsame k j hj
      have hk := hsame k
      rw [hlast, hj, Option.map_some, Option.bind_some] at hk
      obtain ⟨w', hw', hjsonb⟩ := Option.map_eq_some_iff.mp hk.symm
      exact (sameJson_member_iff (k, j) (GoMap.mem_of_last hj) hw').mp hjsonb.symm
    · intro hcarried k
      rw [hlast]
      cases hj : GoMap.last ms k with
      | none => rfl
      | some j =>
        have hmem := GoMap.mem_of_last hj
        obtain ⟨v, hv⟩ := toMembers_ok hvs _ hmem
        obtain ⟨w', hw'⟩ := decoded_of_ok hv
        rw [Option.map_some, Option.bind_some, hw', Option.map_some]
        exact congrArg some ((sameJson_member_iff (k, j) hmem hw').mpr (hcarried k j hj))

theorem jsonbItems_decoded_iff : ∀ {items : List Json} {vs : List Value} {js : List Json},
    toValues items = .ok vs → marshalItems vs = .ok js →
      (jsonbItems items = jsonbItems js ↔ ∀ q ∈ numbersOfItems (jsonbItems items), CarriedNumber q)
  | [], vs, js, hvs, hjs => by
    cases hvs
    cases hjs
    exact iff_of_true rfl fun q hq => absurd hq List.not_mem_nil
  | j :: rest, vs, js, hvs, hjs => by
    rw [toValues] at hvs
    obtain ⟨v, hv, hvs⟩ := bind_eq_ok hvs
    obtain ⟨ws, hws, hvs⟩ := bind_eq_ok hvs
    cases hvs
    rw [marshalItems] at hjs
    obtain ⟨j', hj', hjs⟩ := bind_eq_ok hjs
    obtain ⟨js', hjs', hjs⟩ := bind_eq_ok hjs
    cases hjs
    have hdec : j.decoded = some j' := by
      rw [decoded_of_toValue hv, Value.json, hj']
      rfl
    have hfirst := sameJson_decoded_iff hdec
    have hrest := jsonbItems_decoded_iff hws hjs'
    rw [jsonbItems, jsonbItems, List.cons.injEq, numbersOfItems, hrest]
    refine (and_congr_left' hfirst).trans ?_
    simp only [Json.Carried, List.mem_append, or_imp, forall_and]

theorem sameJson_member_iff : ∀ {members : List (String × Json)} (m : String × Json), m ∈ members →
    ∀ {w : Json}, m.2.decoded = some w → (SameJson m.2 w ↔ m.2.Carried)
  | [], m, hm, w, h => absurd hm List.not_mem_nil
  | (k, j) :: rest, m, hm, w, h => by
    rcases List.mem_cons.mp hm with rfl | hm
    · exact sameJson_decoded_iff h
    · exact sameJson_member_iff m hm h

end

end Rochallor
