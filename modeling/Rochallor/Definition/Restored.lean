import Rochallor.Data.MapOrder
import Rochallor.Definition.RoundTrip

/-! # Writing again what was read back

    A definition that is read back and written once more has the column form it
    had before.  Only its `version` may have changed, which the store sets from
    the row.
-/

namespace Rochallor

/-! ## The column form is stable -/

theorem sortMembers_of_sorted {α : Type} {m : List (String × α)}
    (h : m.Pairwise fun a b => keyLe a.1 b.1) : sortMembers m = m :=
  h.insertionSort_eq

/-- A map that came back once comes back unchanged from then on. -/
theorem GoMap.stored_of_sorted {α : Type} {m : GoMap α} (hnd : (m.map (·.1)).Nodup)
    (hsorted : m.Pairwise fun a b => keyLe a.1 b.1) : m.stored = m := by
  have hperm : (sortByKey m).Perm m := sortByKey_perm m
  have hnd' : ((sortByKey m).map (·.1)).Nodup := (hperm.map _).nodup_iff.mpr hnd
  rw [GoMap.stored, overlay_of_nodup hnd', sortMembers_eq_of_perm hnd' hperm]
  exact sortMembers_of_sorted hsorted

theorem stored_sorted {α : Type} (m : GoMap α) :
    m.stored.Pairwise fun a b => keyLe a.1 b.1 :=
  sortMembers_sorted _

theorem set_subset {α : Type} (m : GoMap α) (k : String) (v : α) :
    ∀ e ∈ GoMap.set m k v, e ∈ m ∨ e = (k, v) := by
  intro e he
  unfold GoMap.set at he
  split at he
  · obtain ⟨x, hx, rfl⟩ := List.mem_map.mp he
    split
    · exact .inr rfl
    · exact .inl hx
  · simpa using he

theorem overlay_subset {α : Type} (m delta : GoMap α) :
    ∀ e ∈ GoMap.overlay m delta, e ∈ m ∨ e ∈ delta := by
  unfold GoMap.overlay
  induction delta generalizing m with
  | nil => exact fun e he => .inl he
  | cons d rest ih =>
    intro e he
    rcases ih _ e he with he | he
    · rcases set_subset m d.1 d.2 e he with he | rfl
      · exact .inl he
      · exact .inr (List.mem_cons_self ..)
    · exact .inr (List.mem_cons_of_mem _ he)

theorem sorted_overlay_subset {α : Type} (m : List (String × α)) :
    ∀ e ∈ sortMembers (GoMap.overlay [] m), e ∈ m := by
  intro e he
  have := overlay_subset [] m e ((sortMembers_perm _).mem_iff.mp he)
  simpa using this

theorem stored_subset {α : Type} (m : GoMap α) : ∀ e ∈ m.stored, e ∈ m := fun e he =>
  (sortByKey_perm m).mem_iff.mp (sorted_overlay_subset _ e he)

theorem overlay_ne_nil {α : Type} {m : GoMap α} (delta : GoMap α) (h : m ≠ []) :
    GoMap.overlay m delta ≠ [] := by
  unfold GoMap.overlay
  induction delta generalizing m with
  | nil => exact h
  | cons e rest ih =>
    refine ih ?_
    show GoMap.set m e.1 e.2 ≠ []
    unfold GoMap.set
    split
    · simpa using h
    · simp

theorem stored_isEmpty {α : Type} (m : GoMap α) : m.stored.isEmpty = m.isEmpty := by
  by_cases hm : m = []
  · rw [hm]
    rfl
  have hsort : sortByKey m ≠ [] := by
    intro hnil
    exact hm (hnil ▸ sortByKey_perm m).symm.eq_nil
  have hstored : m.stored ≠ [] := by
    intro hnil
    obtain ⟨e, rest, hcons⟩ := List.exists_cons_of_ne_nil hsort
    have hperm : m.stored.Perm (GoMap.overlay [] (sortByKey m)) := sortMembers_perm _
    rw [hnil, hcons] at hperm
    exact overlay_ne_nil rest (List.cons_ne_nil e []) hperm.symm.eq_nil
  rw [List.isEmpty_eq_false_iff.mpr hstored, List.isEmpty_eq_false_iff.mpr hm]

mutual

theorem Json.jsonb_jsonb : ∀ j : Json, j.jsonb.jsonb = j.jsonb
  | .null => rfl
  | .bool _ => rfl
  | .num _ _ => rfl
  | .str _ => rfl
  | .arr items => by
    rw [Json.jsonb, Json.jsonb, jsonbItems_jsonbItems items]
  | .obj members => by
    have hstable := jsonbMembers_jsonbMembers members
    simp only [jsonbMembers_eq_map] at hstable
    have hnd := sortMembers_overlay_nodup (jsonbMembers members)
    rw [Json.jsonb, Json.jsonb, jsonbMembers_eq_map (sortMembers _)]
    rw [map_sortMembers Json.jsonb, map_overlay Json.jsonb, jsonbMembers_eq_map, hstable]
    rw [List.map_nil, ← jsonbMembers_eq_map, overlay_of_nodup hnd]
    exact congrArg _ (sortMembers_of_sorted (sortMembers_sorted _))

theorem jsonbItems_jsonbItems : ∀ items : List Json,
    jsonbItems (jsonbItems items) = jsonbItems items
  | [] => rfl
  | j :: js => by
    rw [jsonbItems, jsonbItems, j.jsonb_jsonb, jsonbItems_jsonbItems js]

theorem jsonbMembers_jsonbMembers : ∀ members : List (String × Json),
    jsonbMembers (jsonbMembers members) = jsonbMembers members
  | [] => rfl
  | (k, j) :: ms => by
    rw [jsonbMembers, jsonbMembers, j.jsonb_jsonb, jsonbMembers_jsonbMembers ms]

end

/-! ## U+0000 -/

theorem hasNulItems_iff (items : List Json) :
    hasNulItems items = true ↔ ∃ j ∈ items, j.hasNul = true := by
  induction items with
  | nil => simp [hasNulItems]
  | cons j js ih => simp [hasNulItems, ih]

theorem hasNulMembers_iff (members : List (String × Json)) :
    hasNulMembers members = true ↔
      ∃ m ∈ members, (m.1.toList.contains '\x00' || m.2.hasNul) = true := by
  induction members with
  | nil => simp [hasNulMembers]
  | cons m ms ih =>
    obtain ⟨k, j⟩ := m
    rw [hasNulMembers, Bool.or_eq_true, ih, List.exists_mem_cons_iff]

theorem hasNulMembers_of_subset {members members' : List (String × Json)}
    (h : ∀ m ∈ members', m ∈ members) (hnul : hasNulMembers members' = true) :
    hasNulMembers members = true := by
  rw [hasNulMembers_iff] at hnul ⊢
  obtain ⟨m, hm, hnul⟩ := hnul
  exact ⟨m, h m hm, hnul⟩

mutual

theorem Json.hasNul_of_jsonb : ∀ j : Json, j.jsonb.hasNul = true → j.hasNul = true
  | .null, h => h
  | .bool _, h => h
  | .num _ _, h => h
  | .str _, h => h
  | .arr items, h => by
    rw [Json.jsonb, Json.hasNul] at h
    rw [Json.hasNul]
    exact hasNulItems_of_jsonb items h
  | .obj members, h => by
    rw [Json.jsonb, Json.hasNul] at h
    rw [Json.hasNul]
    exact hasNulMembers_of_jsonb members (hasNulMembers_of_subset (sorted_overlay_subset _) h)

theorem hasNulItems_of_jsonb : ∀ items : List Json,
    hasNulItems (jsonbItems items) = true → hasNulItems items = true
  | [], h => h
  | j :: js, h => by
    rw [jsonbItems, hasNulItems, Bool.or_eq_true] at h
    rw [hasNulItems, Bool.or_eq_true]
    exact h.imp j.hasNul_of_jsonb (hasNulItems_of_jsonb js)

theorem hasNulMembers_of_jsonb : ∀ members : List (String × Json),
    hasNulMembers (jsonbMembers members) = true → hasNulMembers members = true
  | [], h => h
  | (k, j) :: ms, h => by
    rw [jsonbMembers, hasNulMembers, Bool.or_eq_true, Bool.or_eq_true] at h
    rw [hasNulMembers, Bool.or_eq_true, Bool.or_eq_true]
    exact h.imp (Or.imp id j.hasNul_of_jsonb) (hasNulMembers_of_jsonb ms)

end

/-! ## Restoring -/

/-- `b` is written where `a` was before: in the column they are the same, and
    `b` brings in no U+0000. -/
structure Json.Restores (a b : Json) : Prop where
  column : b.jsonb = a.jsonb
  nul : b.hasNul = true → a.hasNul = true

namespace Json.Restores

theorem refl (a : Json) : Restores a a := ⟨rfl, id⟩

/-- A raw message. -/
theorem raw (a : Json) : Restores a a.jsonb := ⟨a.jsonb_jsonb, a.hasNul_of_jsonb⟩

section Combinators

variable {α β : Type} {f : α → β} {encode : α → Json} {encode' : β → Json}

theorem items {l : List α} (h : ∀ a ∈ l, Restores (encode a) (encode' (f a))) :
    Restores (.arr (l.map encode)) (.arr ((l.map f).map encode')) where
  column := by
    rw [Json.jsonb, Json.jsonb, jsonbItems_eq_map, jsonbItems_eq_map]
    simp only [List.map_map, Json.arr.injEq]
    exact List.map_congr_left fun a ha => (h a ha).column
  nul := by
    rw [Json.hasNul, Json.hasNul, hasNulItems_iff, hasNulItems_iff]
    rintro ⟨_, hj, hnul⟩
    obtain ⟨b, hb, rfl⟩ := List.mem_map.mp hj
    obtain ⟨a, ha, rfl⟩ := List.mem_map.mp hb
    exact ⟨_, List.mem_map_of_mem ha, (h a ha).nul hnul⟩

theorem omitItems {l : List α} (h : ∀ a ∈ l, Restores (encode a) (encode' (f a))) :
    Option.Rel Restores (omitItems (l.map encode)) (omitItems ((l.map f).map encode')) := by
  unfold Rochallor.omitItems
  simp only [List.isEmpty_map]
  split
  · exact .none
  · exact .some (items h)

/-- The members of a map, in an order of its own. -/
theorem map (m : GoMap α) (f : α → β) (encode : α → Json) (encode' : β → Json)
    (h : ∀ a, Restores (encode a) (encode' (f a))) :
    Restores (.obj (sortByKey (m.map fun x => (x.1, encode x.2))))
      (.obj (sortByKey ((m.stored.map fun x => (x.1, f x.2)).map fun x => (x.1, encode' x.2)))) where
  column := by
    have hstable : (m.stored).stored = m.stored :=
      GoMap.stored_of_sorted (stored_nodup m) (stored_sorted m)
    have hmap : (m.stored.map fun x => (x.1, f x.2)).map (fun x => (x.1, encode' x.2)) =
        m.stored.map fun x => (x.1, encode' (f x.2)) := by
      rw [List.map_map]
      rfl
    rw [hmap, jsonb_map encode, jsonb_map (fun a => encode' (f a)), hstable]
    exact congrArg _ (List.map_congr_left fun x _ => by rw [(h x.2).column])
  nul := by
    rw [Json.hasNul, Json.hasNul, hasNulMembers_iff, hasNulMembers_iff]
    rintro ⟨e, he, hnul⟩
    have he := (sortByKey_perm _).mem_iff.mp he
    rw [List.map_map] at he
    obtain ⟨x, hx, rfl⟩ := List.mem_map.mp he
    refine ⟨(x.1, encode x.2), (sortByKey_perm _).mem_iff.mpr
      (List.mem_map.mpr ⟨x, stored_subset m x hx, rfl⟩), ?_⟩
    rcases Bool.or_eq_true _ _ ▸ hnul with hkey | hvalue
    · rw [Bool.or_eq_true]
      exact .inl hkey
    · rw [Bool.or_eq_true]
      exact .inr ((h x.2).nul hvalue)

theorem omitMap (m : GoMap α) (f : α → β) (encode : α → Json) (encode' : β → Json)
    (h : ∀ a, Restores (encode a) (encode' (f a))) :
    Option.Rel Restores (omitMap (m.map fun x => (x.1, encode x.2)))
      (omitMap ((m.stored.map fun x => (x.1, f x.2)).map fun x => (x.1, encode' x.2))) := by
  unfold Rochallor.omitMap
  simp only [List.isEmpty_map, stored_isEmpty]
  split
  · exact .none
  · exact .some (map m f encode encode' h)

theorem pointer {o : Option α} (h : ∀ a, o = some a → Restores (encode a) (encode' (f a))) :
    Option.Rel Restores (o.map encode) ((o.map f).map encode') := by
  cases o with
  | none => exact .none
  | some a => exact .some (h a rfl)

/-- A record whose fields are restored. -/
theorem record {keys : List String} (hk : keys.Nodup) {g g' : String → Option Json}
    (h : ∀ k ∈ keys, Option.Rel Restores (g k) (g' k)) :
    Restores (.obj (membersOf keys g)) (.obj (membersOf keys g')) where
  column := by
    have hcolumn : ∀ k ∈ keys, (g' k).map Json.jsonb = (g k).map Json.jsonb := by
      intro k hk
      have hrel := h k hk
      generalize g k = a, g' k = b at hrel ⊢
      cases hrel with
      | none => rfl
      | some hab => simp [hab.column]
    rw [jsonb_membersOf hk, jsonb_membersOf hk]
    unfold membersOf
    refine congrArg _ (List.filterMap_congr fun k hk => ?_)
    simp only [hcolumn k ((sortKeys_perm keys).mem_iff.mp hk)]
  nul := by
    rw [Json.hasNul, Json.hasNul, hasNulMembers_iff, hasNulMembers_iff]
    rintro ⟨⟨k, b⟩, hm, hnul⟩
    obtain ⟨hk, hb⟩ := mem_membersOf.mp hm
    have hrel := h k hk
    simp only at hb
    rw [hb] at hrel
    generalize ha : g k = a at hrel
    cases hrel with
    | some hab =>
      rename_i a
      refine ⟨(k, a), mem_membersOf.mpr ⟨hk, ha⟩, ?_⟩
      rcases Bool.or_eq_true _ _ ▸ hnul with hkey | hvalue
      · rw [Bool.or_eq_true]
        exact .inl hkey
      · rw [Bool.or_eq_true]
        exact .inr (hab.nul hvalue)

end Combinators

end Json.Restores

/-! ## The records of a definition -/

theorem BoundaryEventType.text_ofText (t : String) : (ofText t).text = t := by
  unfold ofText
  split
  · rename_i h
    exact h.symm
  · rfl

theorem SchemaType.text_ofText (t : String) : (ofText t).text = t := by
  unfold ofText
  split_ifs <;> simp_all [text]

theorem StepType.text_ofText (t : String) : (ofText t).text = t := by
  unfold ofText
  split_ifs <;> simp_all [text]

open Json (Restores)

theorem restores_refl (o : Option Json) : Option.Rel Restores o o := by
  cases o with
  | none => exact .none
  | some j => exact .some (.refl j)

theorem restores_raw (m : GoMap Json) :
    Option.Rel Restores (omitMap m) (omitMap (m.stored.map fun x => (x.1, x.2.jsonb))) := by
  have := Restores.omitMap m Json.jsonb id id Restores.raw
  simpa [Function.comp_def] using this

theorem BoundaryEvent.restores (e : BoundaryEvent) : Restores e.marshal e.stored.marshal := by
  have h : e.stored.marshal = e.marshal := by
    rw [marshal, marshal]
    simp only [membersOf, member, stored, BoundaryEventType.text_ofText]
  rw [h]
  exact .refl _

theorem DecisionTableRule.restores (r : DecisionTableRule) :
    Restores r.marshal r.stored.marshal := by
  refine Restores.record (by decide) fun k hk => ?_
  simp only [List.mem_cons, List.not_mem_nil, or_false] at hk
  rcases hk with rfl | rfl
  · have := Restores.omitMap r.conditions id .str .str fun c => .refl (.str c)
    simpa [member, stored] using this
  · exact restores_raw r.outputs

theorem DecisionTable.restores (t : DecisionTable) : Restores t.marshal t.stored.marshal := by
  have h : Restores (.obj (membersOf ["rules"] fun _ => some (.arr (t.rules.map (·.marshal)))))
      (.obj (membersOf ["rules"] fun _ =>
        some (.arr ((t.rules.map (·.stored)).map (·.marshal))))) :=
    Restores.record (by decide) fun _ _ => .some (.items fun r _ => r.restores)
  exact h

theorem Schema.restores (s : Schema) : Restores s.marshal s.stored.marshal := by
  refine Restores.record (by decide) fun k hk => ?_
  simp only [List.mem_cons, List.not_mem_nil, or_false] at hk
  rcases hk with rfl | rfl
  · have hproperty : ∀ p : SchemaType, Restores (.obj [("type", .str p.text)])
        (.obj [("type", .str (SchemaType.ofText p.text).text)]) := by
      intro p
      rw [SchemaType.text_ofText]
      exact .refl _
    exact .some (Restores.map s.properties (fun p => SchemaType.ofText p.text)
      (fun p => .obj [("type", .str p.text)]) (fun p => .obj [("type", .str p.text)]) hproperty)
  · exact restores_refl _

/-- The expressions of a `DECISION` step with their targets, in order. -/
def ConditionalBranches.pairs (c : ConditionalBranches) : List (String × StepId) :=
  c.exprs.map fun e => (e, c.target e)

theorem ConditionalBranches.stored_targets_nodup (c : ConditionalBranches) :
    (c.stored.targets.map (·.1)).Nodup :=
  sortMembers_overlay_nodup _

theorem ConditionalBranches.stored_pairs (c : ConditionalBranches) :
    c.stored.pairs = sortMembers (GoMap.overlay [] c.pairs) := by
  show (c.stored.targets.map (·.1)).map (fun e => (e, c.stored.target e)) = c.stored.targets
  rw [List.map_map]
  refine (List.map_congr_left fun m hm => ?_).trans (List.map_id _)
  have hget : c.stored.targets.get m.1 = some m.2 := GoMap.get_of_mem c.stored_targets_nodup hm
  show (m.1, (c.stored.targets.get m.1).getD "") = m
  rw [hget]
  rfl

/-- The branches that came back once come back in the same order. -/
theorem ConditionalBranches.stored_stored (c : ConditionalBranches) :
    c.stored.stored = c.stored := by
  have hsorted : c.stored.targets.Pairwise fun a b => keyLe a.1 b.1 := sortMembers_sorted _
  have hpairs : c.stored.pairs = c.stored.targets := c.stored_pairs
  have hmembers : sortMembers (GoMap.overlay [] c.stored.pairs) = c.stored.targets := by
    rw [hpairs, overlay_of_nodup c.stored_targets_nodup, sortMembers_of_sorted hsorted]
  show ConditionalBranches.mk ((sortMembers (GoMap.overlay [] c.stored.pairs)).map (·.1))
    (sortMembers (GoMap.overlay [] c.stored.pairs)) = c.stored
  rw [hmembers]
  rfl

theorem ConditionalBranches.marshalJSON_eq (c : ConditionalBranches) :
    c.marshalJSON = .obj (c.pairs.map fun m => (m.1, .str m.2)) := by
  rw [marshalJSON, pairs, List.map_map]
  rfl

theorem ConditionalBranches.restores (c : ConditionalBranches) :
    Restores c.marshalJSON c.stored.marshalJSON where
  column := by rw [marshalJSON_jsonb, marshalJSON_jsonb, c.stored_stored]
  nul := by
    rw [marshalJSON_eq, marshalJSON_eq, Json.hasNul, Json.hasNul, c.stored_pairs]
    refine hasNulMembers_of_subset fun m hm => ?_
    obtain ⟨x, hx, rfl⟩ := List.mem_map.mp hm
    exact List.mem_map_of_mem (sorted_overlay_subset _ x hx)

theorem WorkflowStep.restores (s : WorkflowStep) : Restores s.marshal s.stored.marshal := by
  refine Restores.record (by decide) fun k hk => ?_
  simp only [names, List.mem_cons, List.not_mem_nil, or_false] at hk
  rcases hk with rfl | rfl | rfl | rfl | rfl | rfl | rfl | rfl | rfl | rfl | rfl | rfl | rfl |
    rfl | rfl | rfl
  case inr.inr.inl =>
    simp only [member, stored, StepType.text_ofText]
    exact restores_refl _
  case inr.inr.inr.inr.inr.inr.inr.inl => exact Restores.pointer fun c _ => c.restores
  case inr.inr.inr.inr.inr.inr.inr.inr.inl => exact restores_raw s.transformations
  case inr.inr.inr.inr.inr.inr.inr.inr.inr.inl => exact Restores.pointer fun t _ => t.restores
  case inr.inr.inr.inr.inr.inr.inr.inr.inr.inr.inr.inr.inr.inr.inl =>
    exact Restores.omitItems fun e _ => e.restores
  case inr.inr.inr.inr.inr.inr.inr.inr.inr.inr.inr.inr.inr.inr.inr =>
    exact Restores.pointer fun c _ => c.restores
  -- the other fields come back as they were
  all_goals exact restores_refl _

/-- A definition read back from a row of version `v`. -/
theorem WorkflowDefinition.restores (d : WorkflowDefinition) (v : Int) :
    Restores { d with version := v }.marshal { d.stored with version := v }.marshal := by
  refine Restores.record (by decide) fun k hk => ?_
  simp only [names, List.mem_cons, List.not_mem_nil, or_false] at hk
  rcases hk with rfl | rfl | rfl | rfl | rfl | rfl | rfl | rfl | rfl
  case inr.inr.inr.inr.inr.inr.inl => exact .some (Restores.items fun s _ => s.restores)
  case inr.inr.inr.inr.inr.inr.inr.inl => exact restores_raw d.metadata
  case inr.inr.inr.inr.inr.inr.inr.inr => exact Restores.pointer fun s _ => s.restores
  all_goals exact restores_refl _

end Rochallor
