import Rochallor.Monitor.Snapshots

/-! # What the comparison lists

    For two objects the comparison lists the keys at which they are not the
    same JSON value.  With the output of an execution taken as a full state
    these are all such keys, and the changes lead from the input to the output.
    With the output taken as a delta they are those of the output only, since
    an omitted key is no deletion, and the changes lead to the variables the
    engine merges.
-/

namespace Rochallor.Monitor

/-! ## JSON values -/

/-- What `JSON.parse` returns: a number is a double, and no object has a key
    twice. -/
inductive IsJson : Value → Prop
  | null : IsJson .null
  | bool (b : Bool) : IsJson (.bool b)
  | float (x : GoFloat) (hx : x ≠ .nan) : IsJson (.float x)
  | str (s : String) : IsJson (.str s)
  | arr {items : List Value} (h : ∀ v ∈ items, IsJson v) : IsJson (.arr items)
  | obj {members : GoMap Value} (hkeys : (members.map (·.1)).Nodup)
      (h : ∀ e ∈ members, IsJson e.2) : IsJson (.obj members)

/-- The same JSON value: the order of the members of an object does not
    matter. -/
inductive SameJson : Value → Value → Prop
  | null : SameJson .null .null
  | bool (b : Bool) : SameJson (.bool b) (.bool b)
  | float (x : GoFloat) : SameJson (.float x) (.float x)
  | str (s : String) : SameJson (.str s) (.str s)
  | arr {as bs : List Value} (hlen : as.length = bs.length)
      (h : ∀ i (hi : i < as.length) (hi' : i < bs.length), SameJson as[i] bs[i]) :
      SameJson (.arr as) (.arr bs)
  | obj {as bs : GoMap Value} (hkeys : ∀ k, hasOwn as k = hasOwn bs k)
      (h : ∀ k v w, GoMap.get as k = some v → GoMap.get bs k = some w → SameJson v w) :
      SameJson (.obj as) (.obj bs)

/-- The objects have the same JSON value at the key, or neither has the key. -/
def SameAt (before after : GoMap Value) (k : String) : Prop :=
  Option.Rel SameJson (GoMap.get before k) (GoMap.get after k)

theorem SameJson.refl {v : Value} (h : IsJson v) : SameJson v v := by
  induction h with
  | null => exact .null
  | bool b => exact .bool b
  | float x _ => exact .float x
  | str s => exact .str s
  | arr _ ih => exact .arr rfl fun i hi _ => ih _ (List.getElem_mem hi)
  | obj _ _ ih =>
    refine .obj (fun _ => rfl) fun k v w hv hw => ?_
    obtain rfl : v = w := Option.some.inj (hv.symm.trans hw)
    exact ih _ (GoMap.mem_of_get hv)

/-- Objects are the same if they are so at every key. -/
theorem SameJson.of_sameAt {as bs : GoMap Value} (h : ∀ k, SameAt as bs k) :
    SameJson (.obj as) (.obj bs) := by
  refine .obj (fun k => ?_) fun k v w hv hw => ?_
  · have hk := h k
    unfold SameAt at hk
    unfold hasOwn
    generalize GoMap.get as k = v at hk ⊢
    generalize GoMap.get bs k = w at hk ⊢
    cases hk <;> rfl
  · have hk := h k
    rw [SameAt, hv, hw] at hk
    cases hk with
    | some hvw => exact hvw

theorem IsJson.isGo {v : Value} (h : IsJson v) : v.IsGo := by
  induction h with
  | null => exact .null
  | bool b => exact .bool b
  | float x _ => exact .float x
  | str s => exact .str s
  | arr _ ih => exact .arr ih
  | obj hkeys _ ih => exact .obj hkeys ih

/-! ## Parsing -/

theorem ofRat_ne_nan (q : ℚ) : GoFloat.ofRat q ≠ .nan := by
  unfold GoFloat.ofRat
  split
  · simp
  · split <;> simp

mutual

theorem parse_isJson : ∀ j : Json, IsJson (parse j)
  | .null => .null
  | .bool b => .bool b
  | .num q _ => .float _ (ofRat_ne_nan q)
  | .str s => .str s
  | .arr items => .arr (parseItems_isJson items)
  | .obj members => by
    refine .obj (overlay_nodup (by simp)) fun e he => ?_
    rcases GoMap.mem_overlay he with hlast | ⟨-, hnil⟩
    · exact parseMembers_isJson members _ (GoMap.mem_of_last hlast)
    · cases hnil

theorem parseItems_isJson : ∀ items : List Json, ∀ v ∈ parseItems items, IsJson v
  | [] => fun _ h => absurd h List.not_mem_nil
  | j :: rest => List.forall_mem_cons.mpr ⟨parse_isJson j, parseItems_isJson rest⟩

theorem parseMembers_isJson : ∀ members : List (String × Json),
    ∀ e ∈ parseMembers members, IsJson e.2
  | [] => fun _ h => absurd h List.not_mem_nil
  | (_, j) :: rest => List.forall_mem_cons.mpr ⟨parse_isJson j, parseMembers_isJson rest⟩

end

mutual

/-- Where Go decodes a document, the monitor reads the same value. -/
theorem parse_of_toValue : ∀ {j : Json} {v : Value}, j.toValue = .ok v → parse j = v
  | .null, v, h => by
    cases h
    rfl
  | .bool b, v, h => by
    cases h
    rfl
  | .num q plain, v, h => by
    rw [Json.toValue] at h
    split at h
    · rename_i w hw
      cases h
      rw [parse, GoFloat.ofRat, hw]
    · cases h
  | .str s, v, h => by
    cases h
    rfl
  | .arr items, v, h => by
    rw [Json.toValue] at h
    obtain ⟨vs, hvs, h⟩ := bind_eq_ok h
    cases h
    rw [parse, parseItems_of_toValues hvs]
  | .obj members, v, h => by
    rw [Json.toValue] at h
    obtain ⟨vs, hvs, h⟩ := bind_eq_ok h
    cases h
    rw [parse, parseMembers_of_toMembers hvs]

theorem parseItems_of_toValues : ∀ {items : List Json} {vs : List Value},
    toValues items = .ok vs → parseItems items = vs
  | [], vs, h => by
    cases h
    rfl
  | j :: rest, vs, h => by
    rw [toValues] at h
    obtain ⟨v, hv, h⟩ := bind_eq_ok h
    obtain ⟨ws, hws, h⟩ := bind_eq_ok h
    cases h
    rw [parseItems, parse_of_toValue hv, parseItems_of_toValues hws]

theorem parseMembers_of_toMembers : ∀ {members : List (String × Json)} {vs : GoMap Value},
    toMembers members = .ok vs → parseMembers members = vs
  | [], vs, h => by
    cases h
    rfl
  | (k, j) :: rest, vs, h => by
    rw [toMembers] at h
    obtain ⟨v, hv, h⟩ := bind_eq_ok h
    obtain ⟨ws, hws, h⟩ := bind_eq_ok h
    cases h
    rw [parseMembers, parse_of_toValue hv, parseMembers_of_toMembers hws]

end

/-! ## The limits -/

mutual

/-- The values a document holds, itself included. -/
def valueCount : Value → Nat
  | .arr items => countItems items + 1
  | .obj members => countMembers members + 1
  | _ => 1

def countItems : List Value → Nat
  | [] => 0
  | v :: vs => valueCount v + countItems vs

def countMembers : List (String × Value) → Nat
  | [] => 0
  | (_, v) :: ms => valueCount v + countMembers ms

end

mutual

/-- How deep the values of a document are nested. -/
def nesting : Value → Nat
  | .arr items => nestingItems items
  | .obj members => nestingMembers members
  | _ => 0

def nestingItems : List Value → Nat
  | [] => 0
  | v :: vs => max (nesting v + 1) (nestingItems vs)

def nestingMembers : List (String × Value) → Nat
  | [] => 0
  | (_, v) :: ms => max (nesting v + 1) (nestingMembers ms)

end

theorem countItems_eq (items : List Value) : countItems items = (items.map valueCount).sum := by
  induction items with
  | nil => rfl
  | cons v vs ih => rw [countItems, ih, List.map_cons, List.sum_cons]

theorem countMembers_eq (members : GoMap Value) :
    countMembers members = ((members.map (·.2)).map valueCount).sum := by
  induction members with
  | nil => rfl
  | cons e rest ih =>
    obtain ⟨k, v⟩ := e
    rw [countMembers, ih, List.map_cons, List.map_cons, List.sum_cons]

theorem nestingItems_le (items : List Value) (n : Nat) :
    nestingItems items ≤ n ↔ ∀ v ∈ items, nesting v < n := by
  induction items with
  | nil => simp [nestingItems]
  | cons v vs ih =>
    rw [nestingItems, Nat.max_le, ih, List.forall_mem_cons]
    rfl

theorem nestingMembers_le (members : GoMap Value) (n : Nat) :
    nestingMembers members ≤ n ↔ ∀ v ∈ members.map (·.2), nesting v < n := by
  induction members with
  | nil => simp [nestingMembers]
  | cons e rest ih =>
    obtain ⟨k, v⟩ := e
    rw [nestingMembers, Nat.max_le, ih, List.map_cons, List.forall_mem_cons]
    rfl

/-- The traversal counts what `valueCount` and `nesting` say. -/
theorem children_measures : Budget.Measures children valueCount nesting where
  size_leaf v h := by
    cases v <;> first | rfl | cases h
  size_node v vs h := by
    cases v with
    | arr items =>
      cases h
      rw [valueCount, countItems_eq]
    | obj members =>
      cases h
      have hperm := ((objectEntries_perm members).map (·.2)).map valueCount
      rw [valueCount, countMembers_eq, hperm.sum_eq]
    | _ => cases h
  height_leaf v h := by
    cases v <;> first | rfl | cases h
  height_node v vs h n := by
    cases v with
    | arr items =>
      cases h
      exact nestingItems_le _ n
    | obj members =>
      cases h
      rw [nesting, nestingMembers_le]
      exact forall_congr' fun w => imp_congr_left
        ((objectEntries_perm members).map (·.2)).mem_iff.symm
    | _ => cases h

theorem withinLimits_iff (a b : Value) :
    withinLimits [a, b] = true ↔
      valueCount a + valueCount b ≤ maxNodes ∧ nesting a ≤ maxDepth ∧ nesting b ≤ maxDepth := by
  unfold withinLimits
  rw [Budget.visit_iff children_measures (Nat.zero_le _) (by omega)]
  simp only [Budget.total, List.map_cons, List.map_nil, List.reverse_cons, List.reverse_nil,
    List.nil_append, List.cons_append, List.sum_cons, List.sum_nil, List.forall_mem_cons,
    List.not_mem_nil, false_imp_iff, forall_const, and_true, Nat.zero_add, Nat.add_zero]
  rw [Nat.add_comm (valueCount b), and_comm (a := nesting b ≤ maxDepth)]

/-! ## Equality -/

mutual

/-- The comparison of the monitor is structural equality. -/
theorem equal_eq_deepEqual : ∀ a b : Value, equal a b = a.deepEqual b
  | .arr as, b => by
    cases b with
    | arr bs =>
      rw [equal, Value.deepEqual, equalItems_eq as bs]
    | _ => rfl
  | .obj left, b => by
    cases b with
    | obj right => rw [equal, Value.deepEqual, equalMembers_eq left right]
    | _ => rfl
  | .null, b => by cases b <;> rfl
  | .bool _, b => by cases b <;> rfl
  | .int _, b => by cases b <;> rfl
  | .float x, b => by cases b <;> cases x <;> rfl
  | .str _, b => by cases b <;> rfl

theorem equalItems_eq : ∀ as bs : List Value,
    (as.length == bs.length && equalItems as bs) = deepEqualItems as bs
  | [], [] => rfl
  | [], _ :: _ => rfl
  | _ :: _, [] => rfl
  | a :: as, b :: bs => by
    have hlen : ((a :: as).length == (b :: bs).length) = (as.length == bs.length) := by
      rw [Bool.eq_iff_iff]
      simp
    rw [equalItems, deepEqualItems, ← equal_eq_deepEqual a b, ← equalItems_eq as bs, hlen,
      Bool.and_left_comm]

theorem equalMembers_eq : ∀ left right : GoMap Value,
    equalMembers left right = deepEqualMembers left right
  | [], _ => rfl
  | (k, v) :: left, right => by
    rw [equalMembers, deepEqualMembers, equalMembers_eq left right]
    cases GoMap.get right k with
    | none => rfl
    | some w =>
      show (equal v w && _) = (v.deepEqual w && _)
      rw [equal_eq_deepEqual v w]

end

theorem equal_iff {a b : Value} (ha : IsJson a) (hb : IsJson b) :
    equal a b = true ↔ SameJson a b := by
  rw [equal_eq_deepEqual]
  induction ha generalizing b with
  | null =>
    constructor
    · intro h
      cases hb <;> first | exact .null | cases h
    · rintro ⟨⟩
      rfl
  | bool x =>
    constructor
    · intro h
      cases hb <;> try cases h
      obtain rfl := beq_iff_eq.mp h
      exact .bool _
    · rintro ⟨⟩
      exact beq_self_eq_true x
  | float x hx =>
    constructor
    · intro h
      cases hb with
      | float y hy =>
        cases x with
        | nan => exact absurd rfl hx
        | finite _ | posInf | negInf =>
          obtain rfl := beq_iff_eq.mp h
          exact .float _
      | _ => cases x <;> cases h
    · rintro ⟨⟩
      cases x with
      | nan => exact absurd rfl hx
      | finite _ | posInf | negInf => exact beq_self_eq_true _
  | str s =>
    constructor
    · intro h
      cases hb <;> try cases h
      obtain rfl := beq_iff_eq.mp h
      exact .str _
    · rintro ⟨⟩
      exact beq_self_eq_true s
  | @arr as has ih =>
    constructor
    · intro h
      cases hb with
      | arr hbs =>
        obtain ⟨hlen, hall⟩ := List.forall₂_iff_get.mp (deepEqualItems_iff.mp h)
        refine .arr hlen fun i hi hi' => ?_
        exact (ih _ (List.getElem_mem hi) (hbs _ (List.getElem_mem hi'))).mp (hall i hi hi')
      | _ => cases h
    · rintro ⟨⟩
      rename_i hlen hall
      cases hb with
      | arr hbs =>
        refine deepEqualItems_iff.mpr (List.forall₂_iff_get.mpr ⟨hlen, fun i hi hi' => ?_⟩)
        exact (ih _ (List.getElem_mem hi) (hbs _ (List.getElem_mem hi'))).mpr (hall i hi hi')
  | @obj as hkeys has ih =>
    constructor
    · intro h
      cases hb with
      | @obj bs hkeys' hbs =>
        rw [deepEqual_obj hkeys hkeys'] at h
        refine .of_sameAt fun k => ?_
        have hk := h k
        unfold EqualAt at hk
        unfold SameAt
        generalize hv : GoMap.get as k = v at hk ⊢
        generalize hw : GoMap.get bs k = w at hk ⊢
        cases hk with
        | none => exact .none
        | some hvw =>
          exact .some ((ih _ (GoMap.mem_of_get hv) (hbs _ (GoMap.mem_of_get hw))).mp hvw)
      | _ => cases h
    · rintro ⟨⟩
      rename_i bs hown hall
      cases hb with
      | obj hkeys' hbs =>
        refine (deepEqual_obj hkeys hkeys').mpr fun k => ?_
        have hk := hown k
        have hvals := hall k
        unfold hasOwn at hk
        unfold EqualAt
        generalize hv : GoMap.get as k = v at hk hvals ⊢
        generalize hw : GoMap.get bs k = w at hk hvals ⊢
        cases v with
        | none =>
          cases w with
          | none => exact .none
          | some w => cases hk
        | some v =>
          cases w with
          | none => cases hk
          | some w =>
            exact .some ((ih _ (GoMap.mem_of_get hv) (hbs _ (GoMap.mem_of_get hw))).mpr
              (hvals v w rfl rfl))

/-- The same values are written alike. -/
theorem SameJson.json_eq {a b : Value} (ha : IsJson a) (hb : IsJson b) (h : SameJson a b) :
    a.json = b.json :=
  Value.json_of_deepEqual ha.isGo hb.isGo
    ((equal_eq_deepEqual a b).symm.trans ((equal_iff ha hb).mpr h))

/-! ## Keys -/

theorem objectKeys_perm (object : GoMap Value) : (objectKeys object).Perm (object.map (·.1)) :=
  (objectEntries_perm object).map Prod.fst

theorem mem_objectKeys {object : GoMap Value} {k : String} :
    k ∈ objectKeys object ↔ hasOwn object k = true := by
  rw [(objectKeys_perm object).mem_iff, hasOwn, Option.isSome_iff_ne_none, ne_eq,
    GoMap.get_eq_none, not_not]

/-- The keys the interpretation considers: under a delta those of the output. -/
def Considered (interpretation : SnapshotInterpretation) (before after : GoMap Value)
    (k : String) : Prop :=
  hasOwn after k = true ∨ interpretation ≠ .variableDelta ∧ hasOwn before k = true

theorem mem_comparedKeys {interpretation : SnapshotInterpretation} {before after : GoMap Value}
    {k : String} :
    k ∈ comparedKeys interpretation before after ↔ Considered interpretation before after k := by
  unfold comparedKeys Considered
  by_cases hdelta : interpretation = .variableDelta
  · rw [if_pos hdelta, mem_objectKeys]
    simp [hdelta]
  · rw [if_neg hdelta, List.mem_eraseDups, List.mem_append, mem_objectKeys, mem_objectKeys, or_comm]
    simp [hdelta]

theorem nodup_comparedKeys {interpretation : SnapshotInterpretation} {before after : GoMap Value}
    (hafter : (after.map (·.1)).Nodup) : (comparedKeys interpretation before after).Nodup := by
  unfold comparedKeys
  split
  · exact (objectKeys_perm after).nodup_iff.mpr hafter
  · exact nodup_eraseDups _

/-! ## The change at a key -/

section Changes

variable {before after : GoMap Value}

/-- The change at a key where the objects differ. -/
def changeAt (before after : GoMap Value) (k : String) : Change :=
  { key := k, before := property before k, after := property after k,
    kind :=
      if !hasOwn before k then .added else if !hasOwn after k then .removed else .changed }

theorem keyChange_of_same (hbefore : ∀ e ∈ before, IsJson e.2) (hafter : ∀ e ∈ after, IsJson e.2)
    {k : String} (hown : hasOwn before k = true ∨ hasOwn after k = true)
    (h : SameAt before after k) : keyChange before after k = [] := by
  unfold SameAt at h
  unfold hasOwn at hown
  unfold keyChange hasOwn
  generalize hv : GoMap.get before k = v at h hown ⊢
  generalize hw : GoMap.get after k = w at h hown ⊢
  cases h with
  | none => rcases hown with hown | hown <;> cases hown
  | @some v w hvw =>
    have hequal := (equal_iff (hbefore _ (GoMap.mem_of_get hv))
      (hafter _ (GoMap.mem_of_get hw))).mpr hvw
    simp [hequal]

theorem keyChange_of_differ (hbefore : ∀ e ∈ before, IsJson e.2) (hafter : ∀ e ∈ after, IsJson e.2)
    {k : String} (h : ¬ SameAt before after k) :
    keyChange before after k = [changeAt before after k] := by
  unfold SameAt at h
  unfold keyChange changeAt
  refine if_neg fun hsame => h ?_
  unfold hasOwn at hsame
  generalize hv : GoMap.get before k = v at hsame ⊢
  generalize hw : GoMap.get after k = w at hsame ⊢
  cases v with
  | none => cases hsame
  | some v =>
    cases w with
    | none => cases hsame
    | some w =>
      have hequal : equal v w = true := by simpa using hsame
      exact .some ((equal_iff (hbefore _ (GoMap.mem_of_get hv))
        (hafter _ (GoMap.mem_of_get hw))).mp hequal)

/-- The list of changes has a change for each key at which the objects differ. -/
theorem flatMap_keyChange (hbefore : ∀ e ∈ before, IsJson e.2) (hafter : ∀ e ∈ after, IsJson e.2)
    [DecidablePred (SameAt before after)] {keys : List String}
    (hown : ∀ k ∈ keys, hasOwn before k = true ∨ hasOwn after k = true) :
    keys.flatMap (keyChange before after) =
      (keys.filter fun k => !decide (SameAt before after k)).map (changeAt before after) := by
  induction keys with
  | nil => rfl
  | cons k rest ih =>
    obtain ⟨hk, hrest⟩ := List.forall_mem_cons.mp hown
    rw [List.flatMap_cons, ih hrest]
    by_cases hsame : SameAt before after k
    · rw [keyChange_of_same hbefore hafter hk hsame, List.filter_cons_of_neg (by simp [hsame])]
      rfl
    · rw [keyChange_of_differ hbefore hafter hsame, List.filter_cons_of_pos (by simp [hsame])]
      rfl

/-! ## Applying changes -/

/-- A removed key goes, any other key gets its new value. -/
def applyChange (object : GoMap Value) (change : Change) : GoMap Value :=
  match change.kind, change.after with
  | .removed, _ => object.filter fun e => !(e.1 == change.key)
  | _, .value v => object.set change.key v
  | _, _ => object

def applyChanges (changes : List Change) (object : GoMap Value) : GoMap Value :=
  changes.foldl applyChange object

theorem get_remove (object : GoMap Value) (key k : String) :
    GoMap.get (object.filter fun e => !(e.1 == key)) k =
      if key = k then none else GoMap.get object k := by
  induction object with
  | nil => simp [GoMap.get]
  | cons e rest ih =>
    by_cases he : e.1 = key
    · rw [List.filter_cons_of_neg (by simp [he]), ih, GoMap.get_cons]
      by_cases hk : key = k
      · rw [if_pos hk, if_pos hk]
      · rw [if_neg hk, if_neg hk, if_neg (he ▸ hk)]
    · rw [List.filter_cons_of_pos (by simp [he]), GoMap.get_cons, GoMap.get_cons, ih]
      by_cases hk : key = k
      · rw [if_pos hk, if_neg (fun hek => he (hek.trans hk.symm)), if_pos hk]
      · rw [if_neg hk, if_neg hk]

theorem applyChange_nodup {object : GoMap Value} (h : (object.map (·.1)).Nodup) (c : Change) :
    ((applyChange object c).map (·.1)).Nodup := by
  unfold applyChange
  split
  · exact h.sublist (List.filter_sublist.map Prod.fst)
  · exact set_nodup h _ _
  · exact h

theorem applyChanges_nodup {object : GoMap Value} (h : (object.map (·.1)).Nodup)
    (changes : List Change) : ((applyChanges changes object).map (·.1)).Nodup := by
  unfold applyChanges
  induction changes generalizing object with
  | nil => exact h
  | cons c rest ih => exact ih (applyChange_nodup h c)

/-- After the change at a key, the object has there what the output has. -/
theorem get_applyChange {object : GoMap Value} {key : String}
    (hown : hasOwn before key = true ∨ hasOwn after key = true) (k : String) :
    GoMap.get (applyChange object (changeAt before after key)) k =
      if key = k then GoMap.get after k else GoMap.get object k := by
  unfold applyChange changeAt property
  cases hw : GoMap.get after key with
  | none =>
    have hafter : hasOwn after key = false := by rw [hasOwn, hw]; rfl
    have hbefore : hasOwn before key = true := hown.resolve_right (by simp [hafter])
    rw [hbefore, hafter]
    show GoMap.get (object.filter _) k = _
    rw [get_remove]
    by_cases hk : key = k
    · rw [if_pos hk, if_pos hk, ← hk, hw]
    · rw [if_neg hk, if_neg hk]
  | some w =>
    have hafter : hasOwn after key = true := by rw [hasOwn, hw]; rfl
    rw [hafter]
    have hset : GoMap.get (object.set key w) k =
        if key = k then GoMap.get after k else GoMap.get object k := by
      rw [GoMap.get_set]
      by_cases hk : key = k
      · rw [if_pos hk, if_pos hk, ← hk, hw]
      · rw [if_neg hk, if_neg hk]
    cases hasOwn before key <;> exact hset

theorem get_applyChanges {keys : List String}
    (hown : ∀ k ∈ keys, hasOwn before k = true ∨ hasOwn after k = true) (object : GoMap Value)
    (k : String) :
    GoMap.get (applyChanges (keys.map (changeAt before after)) object) k =
      if k ∈ keys then GoMap.get after k else GoMap.get object k := by
  unfold applyChanges
  induction keys generalizing object with
  | nil => rfl
  | cons key rest ih =>
    obtain ⟨hkey, hrest⟩ := List.forall_mem_cons.mp hown
    rw [List.map_cons, List.foldl_cons, ih hrest, get_applyChange hkey]
    by_cases hmem : k ∈ rest
    · rw [if_pos hmem, if_pos (List.mem_cons_of_mem _ hmem)]
    · rw [if_neg hmem]
      by_cases hk : key = k
      · rw [if_pos hk, if_pos (hk ▸ List.mem_cons_self ..)]
      · rw [if_neg hk, if_neg]
        simp [Ne.symm hk, hmem]

end Changes

/-! ## The comparison of two objects -/

/-- What a list of changes between two objects says. -/
structure Lists (interpretation : SnapshotInterpretation) (before after : GoMap Value)
    (changes : List Change) : Prop where
  once : (changes.map (·.key)).Nodup
  sorted : (changes.map (·.key)).Pairwise unitsLe
  differ : ∀ k, k ∈ changes.map (·.key) ↔
    ¬ SameAt before after k ∧ (interpretation = .variableDelta → hasOwn after k = true)
  added : ∀ c ∈ changes, c.kind = .added ↔ hasOwn before c.key = false
  removed : ∀ c ∈ changes, c.kind = .removed ↔ hasOwn after c.key = false
  values : ∀ c ∈ changes, c.before = property before c.key ∧ c.after = property after c.key

section Objects

variable {interpretation : SnapshotInterpretation} {before after : GoMap Value}

/-- A key at which the objects differ is one of the input or of the output. -/
theorem hasOwn_of_differ {k : String} (h : ¬ SameAt before after k) :
    hasOwn before k = true ∨ hasOwn after k = true := by
  unfold SameAt at h
  unfold hasOwn
  cases hv : GoMap.get before k with
  | some v => exact .inl rfl
  | none =>
    cases hw : GoMap.get after k with
    | some w => exact .inr rfl
    | none =>
      rw [hv, hw] at h
      exact absurd .none h

/-- The changes are those at the compared keys where the objects differ. -/
theorem documentChanges_obj (hbefore : IsJson (.obj before)) (hafter : IsJson (.obj after)) :
    ∃ keys : List String,
      documentChanges interpretation (.obj before) (.obj after) =
        keys.map (changeAt before after) ∧
      keys.Nodup ∧ keys.Pairwise unitsLe ∧
      ∀ k, k ∈ keys ↔ Considered interpretation before after k ∧ ¬ SameAt before after k := by
  classical
  cases hbefore with
  | obj hkeys hbefore =>
    cases hafter with
    | obj hkeys' hafter =>
      have hmem : ∀ k, k ∈ sortedKeys (comparedKeys interpretation before after) ↔
          Considered interpretation before after k := fun k =>
        (sortedKeys_perm _).mem_iff.trans mem_comparedKeys
      have hown : ∀ k ∈ sortedKeys (comparedKeys interpretation before after),
          hasOwn before k = true ∨ hasOwn after k = true := by
        intro k hk
        rcases (hmem k).mp hk with hafter | ⟨-, hbefore⟩
        · exact .inr hafter
        · exact .inl hbefore
      refine ⟨_, flatMap_keyChange hbefore hafter hown, ?_, ?_, fun k => ?_⟩
      · exact ((sortedKeys_perm _).nodup_iff.mpr (nodup_comparedKeys hkeys')).filter _
      · exact (sortedKeys_pairwise _).filter _
      · rw [List.mem_filter, hmem]
        simp

theorem documentChanges_lists (hbefore : IsJson (.obj before)) (hafter : IsJson (.obj after)) :
    Lists interpretation before after
      (documentChanges interpretation (.obj before) (.obj after)) := by
  obtain ⟨keys, hchanges, hnodup, hsorted, hmem⟩ :=
    documentChanges_obj hbefore hafter
  have hkeys : (keys.map (changeAt before after)).map (·.key) = keys := by
    rw [List.map_map]
    exact List.map_id keys
  have hat : ∀ c ∈ keys.map (changeAt before after),
      c = changeAt before after c.key ∧ (hasOwn before c.key = true ∨ hasOwn after c.key = true) := by
    intro c hc
    obtain ⟨k, hk, rfl⟩ := List.mem_map.mp hc
    exact ⟨rfl, hasOwn_of_differ ((hmem k).mp hk).2⟩
  rw [hchanges]
  refine ⟨?_, ?_, fun k => ?_, fun c hc => ?_, fun c hc => ?_, fun c hc => ?_⟩
  · rw [hkeys]
    exact hnodup
  · rw [hkeys]
    exact hsorted
  · rw [hkeys, hmem, and_comm]
    refine and_congr_right fun hdiffer => ?_
    unfold Considered
    rcases hasOwn_of_differ hdiffer with hown | hown
    · by_cases hdelta : interpretation = .variableDelta <;> simp [hown, hdelta]
    · simp [hown]
  · obtain ⟨hc, hown⟩ := hat c hc
    rw [hc]
    show (if _ then ChangeKind.added else if _ then ChangeKind.removed else ChangeKind.changed) = _ ↔
      hasOwn before c.key = false
    cases hasOwn before c.key <;> cases hasOwn after c.key <;> simp
  · obtain ⟨hc, hown⟩ := hat c hc
    rw [hc]
    show (if _ then ChangeKind.added else if _ then ChangeKind.removed else ChangeKind.changed) = _ ↔
      hasOwn after c.key = false
    revert hown
    cases hasOwn before c.key <;> cases hasOwn after c.key <;> simp
  · obtain ⟨hc, -⟩ := hat c hc
    rw [hc]
    exact ⟨rfl, rfl⟩

/-- At every key the changed input has what the output has, or what the input
    has if the objects are the same there or the key is not considered. -/
theorem get_applied (hbefore : IsJson (.obj before)) (hafter : IsJson (.obj after)) (k : String) :
    Considered interpretation before after k ∧
      GoMap.get
        (applyChanges (documentChanges interpretation (.obj before) (.obj after)) before) k =
        GoMap.get after k ∨
    (Considered interpretation before after k → SameAt before after k) ∧
      GoMap.get
        (applyChanges (documentChanges interpretation (.obj before) (.obj after)) before) k =
        GoMap.get before k := by
  obtain ⟨keys, hchanges, -, -, hmem⟩ :=
    documentChanges_obj hbefore hafter
  rw [hchanges, get_applyChanges fun key hkey => hasOwn_of_differ ((hmem key).mp hkey).2]
  by_cases hk : k ∈ keys
  · rw [if_pos hk]
    exact .inl ⟨((hmem k).mp hk).1, rfl⟩
  · rw [if_neg hk]
    refine .inr ⟨fun hconsidered => ?_, rfl⟩
    by_contra hdiffer
    exact hk ((hmem k).mpr ⟨hconsidered, hdiffer⟩)

/-- With the output as a full state, the changes lead to it. -/
theorem applied_fullState (hbefore : IsJson (.obj before)) (hafter : IsJson (.obj after)) :
    SameJson (.obj (applyChanges (documentChanges .fullState (.obj before) (.obj after)) before))
      (.obj after) := by
  refine .of_sameAt fun k => ?_
  unfold SameAt
  rcases get_applied hbefore hafter k with ⟨-, hget⟩ | ⟨hsame, hget⟩
  · rw [hget]
    cases hafter with
    | obj _ hafter =>
      cases hw : GoMap.get after k with
      | none => exact .none
      | some w => exact .some (.refl (hafter _ (GoMap.mem_of_get hw)))
  · rw [hget]
    by_contra hdiffer
    -- a key at which they differ is considered
    refine hdiffer (hsame ?_)
    rcases hasOwn_of_differ hdiffer with hown | hown
    · exact .inr ⟨by simp, hown⟩
    · exact .inl hown

/-- With the output as a delta, the changes lead to what is merged. -/
theorem applied_variableDelta (hbefore : IsJson (.obj before)) (hafter : IsJson (.obj after)) :
    (Value.obj
      (applyChanges (documentChanges .variableDelta (.obj before) (.obj after)) before)).json =
      (Value.obj (before.overlay after)).json := by
  have happlied := fun k => @get_applied .variableDelta before after hbefore hafter k
  cases hbefore with
  | obj hkeys hbefore =>
    cases hafter with
    | obj hkeys' hafter =>
      refine json_obj_congr (applyChanges_nodup hkeys _) (overlay_nodup hkeys) fun k => ?_
      rw [GoMap.get_overlay, GoMap.last_eq_get hkeys']
      rcases happlied k with ⟨hconsidered, hget⟩ | ⟨hsame, hget⟩
      · -- the output has the key
        have hown : hasOwn after k = true := hconsidered.resolve_right (by simp)
        obtain ⟨w, hw⟩ := Option.isSome_iff_exists.mp hown
        rw [hget, hw]
        rfl
      · rw [hget]
        cases hw : GoMap.get after k with
        | none => rfl
        | some w =>
          have hboth := hsame (.inl (by rw [hasOwn, hw]; rfl))
          rw [SameAt, hw] at hboth
          generalize hv : GoMap.get before k = v at hboth ⊢
          cases hboth with
          | some hvw =>
            exact congrArg some (hvw.json_eq (hbefore _ (GoMap.mem_of_get hv))
              (hafter _ (GoMap.mem_of_get hw)))

/-- What the engine merges is the overlay of what the monitor reads. -/
theorem mergeVariables_parse {x y merged : Json} {delta : GoMap Value}
    (hx : parse x = .obj before) (hy : parse y = .obj after)
    (hdelta : variablesToMap y = .ok delta) (hmerged : mergeVariables x delta = .ok merged) :
    (Value.obj (before.overlay after)).json = some merged := by
  have hread : ∀ {j : Json} {members vars : GoMap Value}, parse j = .obj members →
      variablesToMap j = .ok vars → members = vars := by
    intro j members vars hparse hvars
    cases j with
    | obj ms =>
      rw [variablesToMap] at hvars
      obtain ⟨vs, hvs, hvars⟩ := bind_eq_ok hvars
      cases hvars
      rw [parse, parseMembers_of_toMembers hvs] at hparse
      exact (Value.obj.inj hparse).symm
    | _ => cases hparse
  unfold mergeVariables at hmerged
  obtain ⟨base, hbase, hmerged⟩ := bind_eq_ok hmerged
  rw [hread hx hbase, hread hy hdelta, Value.json, hmerged]
  rfl

end Objects

/-! ## The comparison -/

/-- A comparison that is not refused shows the changes, cut at a hundred. -/
theorem compareSnapshots_shown {before after : Value} {inputBytes outputBytes : Nat}
    {interpretation : SnapshotInterpretation}
    (h : (compareSnapshots (.present before inputBytes) (.present after outputBytes)
      interpretation).unavailable = none) :
    compareSnapshots (.present before inputBytes) (.present after outputBytes) interpretation =
      { changes := (documentChanges interpretation before after).take maxChanges
        truncated := decide (maxChanges < (documentChanges interpretation before after).length)
        unavailable := none } := by
  revert h
  rw [compareSnapshots]
  split
  · intro h
    cases h
  · split
    · intro h
      cases h
    · exact fun _ => rfl

/-- Values that are not both objects are listed as one change, if they differ. -/
theorem documentChanges_other {before after : Value} {interpretation : SnapshotInterpretation}
    (h : ¬ (record before = true ∧ record after = true)) :
    documentChanges interpretation before after =
      if equal before after then []
      else [{ key := "Value", before := .value before, after := .value after, kind := .changed }] := by
  cases before with
  | obj members =>
    cases after with
    | obj members' => exact absurd ⟨rfl, rfl⟩ h
    | _ => rfl
  | _ => rfl

/-- The traversal accepts two recorded documents exactly if they are within the
    limits.  A comparison that is not refused shows the first hundred changes
    and says if there are more.  The changes between two objects are those at
    the keys where they differ, under a delta at the keys of the output; they
    lead from the input to the output as a full state, and to what the engine
    merges as a delta.  Other values differ as a whole. -/
theorem compare_snapshots (x y : Json) (inputBytes outputBytes : Nat)
    (interpretation : SnapshotInterpretation) :
    (withinLimits [parse x, parse y] = true ↔
      valueCount (parse x) + valueCount (parse y) ≤ 10000 ∧
      nesting (parse x) ≤ 64 ∧ nesting (parse y) ≤ 64) ∧
    ((compareSnapshots (.present (parse x) inputBytes) (.present (parse y) outputBytes)
        interpretation).unavailable = none →
      let changes := documentChanges interpretation (parse x) (parse y)
      compareSnapshots (.present (parse x) inputBytes) (.present (parse y) outputBytes)
          interpretation =
        { changes := changes.take 100, truncated := decide (100 < changes.length),
          unavailable := none } ∧
      (∀ before after, parse x = .obj before → parse y = .obj after →
        Lists interpretation before after changes ∧
        (interpretation = .fullState → SameJson (.obj (applyChanges changes before)) (parse y)) ∧
        (interpretation = .variableDelta → ∀ delta merged, variablesToMap y = .ok delta →
          mergeVariables x delta = .ok merged →
          (Value.obj (applyChanges changes before)).json = some merged)) ∧
      (¬ (record (parse x) = true ∧ record (parse y) = true) →
        (changes = [] ↔ SameJson (parse x) (parse y)))) := by
  refine ⟨withinLimits_iff _ _, fun hshown => ⟨compareSnapshots_shown hshown, ?_, ?_⟩⟩
  · intro before after hx hy
    have hbefore : IsJson (.obj before) := hx ▸ parse_isJson x
    have hafter : IsJson (.obj after) := hy ▸ parse_isJson y
    rw [hx, hy]
    refine ⟨documentChanges_lists hbefore hafter, ?_, ?_⟩
    · rintro rfl
      exact applied_fullState hbefore hafter
    · rintro rfl delta merged hdelta hmerged
      rw [applied_variableDelta hbefore hafter, mergeVariables_parse hx hy hdelta hmerged]
  · intro hother
    rw [documentChanges_other hother, ← equal_iff (parse_isJson x) (parse_isJson y)]
    by_cases hequal : equal (parse x) (parse y) = true
    · simp [hequal]
    · simp [hequal]

/-- The variables of an order before and what a job returns for it. -/
def openOrder : Json := .obj [("note", .null), ("status", .str "open")]

def paidOrder : Json := .obj [("status", .str "paid")]

/-- The job changes the status; the merged order keeps its note. -/
theorem compare_snapshots_order :
    (Value.obj (applyChanges (documentChanges .variableDelta (parse openOrder) (parse paidOrder))
      [("note", .null), ("status", .str "open")])).json =
      some (.obj [("note", .null), ("status", .str "paid")]) := by
  obtain ⟨-, hshown⟩ := compare_snapshots openOrder paidOrder 29 17 .variableDelta
  obtain ⟨-, hobjects, -⟩ := hshown (by decide +kernel)
  exact (hobjects _ _ rfl rfl).2.2 rfl [("status", .str "paid")] _ rfl rfl

/-- The note is in the input only, so the two differ at it, but it is not
    listed. -/
theorem omitted_note_not_listed :
    (compareSnapshots (.present (parse openOrder) 29) (.present (parse paidOrder) 17)
      .variableDelta).unavailable = none ∧
    ¬ SameAt [("note", .null), ("status", .str "open")] [("status", .str "paid")] "note" ∧
    (documentChanges .variableDelta (parse openOrder) (parse paidOrder)).map (·.key) =
      ["status"] := by
  refine ⟨by decide +kernel, ?_, by decide +kernel⟩
  intro h
  cases h

end Rochallor.Monitor
