import Rochallor.Data.Jsonb

/-! # Maps without an order

    A Go map is iterated in an order that changes from one run to the next.
    The lemmas here say when two member lists stand for the same map, and that
    `json.Marshal` and a `JSONB` column, which sort the keys, cannot tell such
    lists apart.
-/

namespace Rochallor

namespace GoMap

variable {α : Type} {m m' : GoMap α}

/-! ## Lookups -/

theorem get_cons (e : String × α) (m : GoMap α) (k : String) :
    get (e :: m) k = if e.1 = k then some e.2 else get m k := by
  unfold get
  by_cases h : e.1 = k
  · simp [h]
  · simp [h]

theorem get_append (m m' : GoMap α) (k : String) :
    get (m ++ m') k = (get m k).or (get m' k) := by
  unfold get
  rw [List.find?_append]
  cases m.find? fun e => e.1 == k with
  | none => rfl
  | some e => rfl

theorem get_eq_none {k : String} : get m k = none ↔ k ∉ m.map (·.1) := by
  unfold get
  simp only [Option.map_eq_none_iff, List.find?_eq_none, List.mem_map, beq_iff_eq, not_exists,
    not_and]

theorem mem_of_get {k : String} {v : α} (h : get m k = some v) : (k, v) ∈ m := by
  unfold get at h
  obtain ⟨e, he, rfl⟩ := Option.map_eq_some_iff.mp h
  have hkey : e.1 = k := by simpa using List.find?_some he
  rw [← hkey]
  exact List.mem_of_find?_eq_some he

theorem get_of_mem (hm : (m.map (·.1)).Nodup) {e : String × α} (he : e ∈ m) :
    get m e.1 = some e.2 := by
  induction m with
  | nil => cases he
  | cons x rest ih =>
    rw [List.map_cons, List.nodup_cons] at hm
    rw [get_cons]
    rcases List.mem_cons.mp he with rfl | he
    · rw [if_pos rfl]
    · have hne : x.1 ≠ e.1 := by
        intro heq
        exact hm.1 (heq ▸ List.mem_map_of_mem he)
      rw [if_neg hne, ih hm.2 he]

/-- Lists with distinct keys and equal lookups have the same members. -/
theorem perm_of_get (hm : (m.map (·.1)).Nodup) (hm' : (m'.map (·.1)).Nodup)
    (h : ∀ k, get m k = get m' k) : m.Perm m' := by
  refine (List.perm_ext_iff_of_nodup (List.Nodup.of_map _ hm) (List.Nodup.of_map _ hm')).mpr ?_
  intro e
  constructor
  · intro he
    exact mem_of_get ((h e.1).symm.trans (get_of_mem hm he))
  · intro he
    exact mem_of_get ((h e.1).trans (get_of_mem hm' he))

/-- And conversely. -/
theorem get_of_perm (hm : (m.map (·.1)).Nodup) (h : m.Perm m') (k : String) :
    get m k = get m' k := by
  have hm' : (m'.map (·.1)).Nodup := (h.map _).nodup_iff.mp hm
  cases hk : get m k with
  | some v =>
    exact (get_of_mem hm' (h.mem_iff.mp (mem_of_get hk))).symm
  | none =>
    rw [get_eq_none] at hk
    exact (get_eq_none.mpr fun hmem => hk ((h.map _).mem_iff.mpr hmem)).symm

theorem get_set (m : GoMap α) (k : String) (v : α) (k' : String) :
    get (m.set k v) k' = if k = k' then some v else get m k' := by
  unfold set
  split
  · rename_i hany
    induction m with
    | nil => cases hany
    | cons e rest ih =>
      rw [List.map_cons, get_cons, get_cons]
      by_cases he : e.1 = k
      · subst he
        by_cases hk : e.1 = k'
        · simp [hk]
        · simp only [beq_self_eq_true, if_true, hk, if_false]
          by_cases hrest : rest.any (fun x => x.1 == e.1) = true
          · rw [ih hrest, if_neg hk]
          · congr 1
            refine (List.map_congr_left fun x hx => ?_).trans (List.map_id _)
            rw [if_neg fun hxe => hrest (List.any_eq_true.mpr ⟨x, hx, hxe⟩)]
            rfl
      · have hrest : rest.any (fun x => x.1 == k) = true := by simpa [he] using hany
        rw [ih hrest]
        simp only [beq_iff_eq, he, if_false]
        by_cases hk : e.1 = k'
        · rw [if_pos hk, if_pos hk, if_neg fun hkk => he (hk.trans hkk.symm)]
        · rw [if_neg hk, if_neg hk]
  · rename_i hany
    rw [get_append, get_cons]
    have hnone : get m k = none := by
      rw [get_eq_none]
      intro hmem
      obtain ⟨e, he, hek⟩ := List.mem_map.mp hmem
      exact hany (List.any_eq_true.mpr ⟨e, he, beq_iff_eq.mpr hek⟩)
    by_cases hk : k = k'
    · subst hk
      rw [hnone, if_pos rfl, if_pos rfl]
      rfl
    · rw [if_neg hk, if_neg hk]
      cases get m k' with
      | none => rfl
      | some w => rfl

theorem get_delete (m : GoMap α) (k k' : String) :
    get (m.delete k) k' = if k = k' then none else get m k' := by
  unfold delete
  induction m with
  | nil => simp [get]
  | cons e rest ih =>
    rw [List.filter_cons, get_cons]
    by_cases he : e.1 = k
    · subst he
      simp only [beq_self_eq_true, Bool.not_true, Bool.false_eq_true, if_false]
      rw [ih]
      by_cases hk : e.1 = k'
      · rw [if_pos hk, if_pos hk]
      · rw [if_neg hk, if_neg hk, if_neg hk]
    · simp only [beq_eq_false_iff_ne.mpr he, Bool.not_false, if_true]
      rw [get_cons, ih]
      by_cases hk : e.1 = k'
      · rw [if_pos hk, if_pos hk, if_neg fun hkk => he (hk.trans hkk.symm)]
      · rw [if_neg hk, if_neg hk]

theorem delete_nodup (hm : (m.map (·.1)).Nodup) (k : String) :
    ((m.delete k).map (·.1)).Nodup :=
  hm.sublist ((List.filter_sublist).map _)

theorem get_map {β : Type} (f : α → β) (m : GoMap α) (k : String) :
    get (m.map fun x => (x.1, f x.2)) k = (get m k).map f := by
  induction m with
  | nil => rfl
  | cons e rest ih =>
    rw [List.map_cons, get_cons, get_cons, ih]
    split <;> rfl

/-! ## Repeated keys -/

/-- The last value of a key: what a `JSONB` column keeps. -/
def last (m : GoMap α) (k : String) : Option α :=
  get m.reverse k

theorem last_append (m m' : GoMap α) (k : String) :
    last (m ++ m') k = (last m' k).or (last m k) := by
  rw [last, List.reverse_append, get_append]
  rfl

theorem last_cons (e : String × α) (m : GoMap α) (k : String) :
    last (e :: m) k = (last m k).or (if e.1 = k then some e.2 else none) := by
  rw [← List.singleton_append, last_append]
  congr 1
  rw [last, List.reverse_singleton, get_cons]
  rfl

theorem last_of_mem {e : String × α} (he : e ∈ m) : ∃ v, last m e.1 = some v := by
  cases h : last m e.1 with
  | some v => exact ⟨v, rfl⟩
  | none =>
    have hnot := get_eq_none.mp h
    exact absurd (List.mem_map_of_mem (List.mem_reverse.mpr he)) hnot

theorem last_eq_get (hm : (m.map (·.1)).Nodup) (k : String) : last m k = get m k :=
  (get_of_perm hm m.reverse_perm.symm k).symm

theorem get_overlay (m delta : GoMap α) (k : String) :
    get (m.overlay delta) k = (last delta k).or (get m k) := by
  unfold overlay
  induction delta generalizing m with
  | nil => rfl
  | cons e rest ih =>
    rw [List.foldl_cons, ih, get_set, last_cons, Option.or_assoc]
    congr 1
    split <;> rfl

theorem last_set (m : GoMap α) (k : String) (v : α) (k' : String) :
    last (m.set k v) k' = if k = k' then some v else last m k' := by
  unfold last
  rw [← get_set]
  unfold set
  rw [List.any_reverse]
  split
  · rw [List.map_reverse]
  · rename_i hany
    -- the new key stands in front of the reversed list or behind it
    rw [List.reverse_append, List.reverse_singleton, get_append, get_append]
    by_cases hk : k = k'
    · have hnone : get m.reverse k' = none := by
        rw [get_eq_none, ← hk]
        intro hmem
        obtain ⟨e, he, hek⟩ := List.mem_map.mp hmem
        exact hany (List.any_eq_true.mpr ⟨e, List.mem_reverse.mp he, beq_iff_eq.mpr hek⟩)
      rw [hnone, get_cons, if_pos hk]
      rfl
    · rw [get_cons, if_neg hk]
      cases get m.reverse k' with
      | none => rfl
      | some w => rfl

theorem last_overlay (m delta : GoMap α) (k : String) :
    last (m.overlay delta) k = (last delta k).or (last m k) := by
  unfold overlay
  induction delta generalizing m with
  | nil => rfl
  | cons e rest ih =>
    rw [List.foldl_cons, ih, last_set, last_cons, Option.or_assoc]
    congr 1
    split <;> rfl

theorem last_map {β : Type} (f : α → β) (m : GoMap α) (k : String) :
    last (m.map fun x => (x.1, f x.2)) k = (last m k).map f := by
  rw [last, ← List.map_reverse, get_map, last]

end GoMap

/-! ## Sorting -/

section Sorting

variable {α : Type}

theorem insertByKey_comm {a b : String × α} (hne : a.1 ≠ b.1) (m : List (String × α)) :
    insertByKey a (insertByKey b m) = insertByKey b (insertByKey a m) := by
  rcases lt_or_gt_of_ne hne with hlt | hlt
  · induction m with
    | nil => simp [insertByKey, hlt, hlt.asymm]
    | cons x xs ih =>
      by_cases hb : b.1 < x.1
      · have ha : a.1 < x.1 := hlt.trans hb
        simp [insertByKey, ha, hb, hlt, hlt.asymm]
      · by_cases ha : a.1 < x.1
        · simp [insertByKey, ha, hb, hlt.asymm]
        · simp [insertByKey, ha, hb, ih]
  · induction m with
    | nil => simp [insertByKey, hlt, hlt.asymm]
    | cons x xs ih =>
      by_cases ha : a.1 < x.1
      · have hb : b.1 < x.1 := hlt.trans ha
        simp [insertByKey, ha, hb, hlt, hlt.asymm]
      · by_cases hb : b.1 < x.1
        · simp [insertByKey, ha, hb, hlt.asymm]
        · simp [insertByKey, ha, hb, ih]

theorem insertByKey_perm (e : String × α) (m : List (String × α)) :
    (insertByKey e m).Perm (e :: m) := by
  induction m with
  | nil => exact .refl _
  | cons x xs ih =>
    rw [insertByKey]
    split
    · exact .refl _
    · exact (ih.cons x).trans (.swap ..)

theorem sortByKey_perm (m : List (String × α)) : (sortByKey m).Perm m := by
  unfold sortByKey
  induction m with
  | nil => exact .refl _
  | cons e rest ih => exact (insertByKey_perm e _).trans (ih.cons e)

/-- `json.Marshal` cannot tell the order of a map. -/
theorem sortByKey_eq_of_perm {m m' : List (String × α)} (hm : (m.map (·.1)).Nodup)
    (h : m.Perm m') : sortByKey m = sortByKey m' := by
  refine h.foldr_eq' ?_ []
  intro a ha b hb z
  by_cases hkey : b.1 = a.1
  · have hg := GoMap.get_of_mem hm ha
    rw [← hkey, GoMap.get_of_mem hm hb] at hg
    rw [Prod.ext hkey (Option.some.inj hg)]
  · exact insertByKey_comm hkey z

theorem sortMembers_eq_of_perm {m m' : List (String × α)} (hm : (m.map (·.1)).Nodup)
    (h : m.Perm m') : sortMembers m = sortMembers m' := by
  have hperm : (sortMembers m).Perm (sortMembers m') :=
    (sortMembers_perm m).trans (h.trans (sortMembers_perm m').symm)
  refine hperm.eq_of_pairwise ?_ (sortMembers_sorted m) (sortMembers_sorted m')
  intro a b ha hb hab hba
  have hkey : a.1 = b.1 := keyLe_antisymm hab hba
  have ha' := GoMap.get_of_mem hm ((sortMembers_perm m).mem_iff.mp ha)
  have hb' := GoMap.get_of_mem hm (h.mem_iff.mpr ((sortMembers_perm m').mem_iff.mp hb))
  rw [hkey, hb'] at ha'
  exact Prod.ext hkey (Option.some.inj ha').symm

/-- Nor can a `JSONB` column, which keeps the last value of each key. -/
theorem jsonb_obj_congr {m m' : GoMap Json} (h : ∀ k, m.last k = m'.last k) :
    (Json.obj m).jsonb = (Json.obj m').jsonb := by
  rw [Json.jsonb, Json.jsonb, jsonbMembers_eq_map, jsonbMembers_eq_map]
  congr 1
  refine sortMembers_eq_of_perm (overlay_nodup (by simp)) ?_
  refine GoMap.perm_of_get (overlay_nodup (by simp)) (overlay_nodup (by simp)) fun k => ?_
  rw [GoMap.get_overlay, GoMap.get_overlay, GoMap.last_map, GoMap.last_map, h]

end Sorting

/-! ## Encoding -/

/-- The JSON form of a value, if it has one. -/
def Value.json (v : Value) : Option Json :=
  v.marshal.toOption

theorem marshalMembers_keys {m : GoMap Value} {p : GoMap Json} (h : marshalMembers m = .ok p) :
    p.map (·.1) = m.map (·.1) := by
  induction m generalizing p with
  | nil =>
    cases h
    rfl
  | cons e rest ih =>
    obtain ⟨k, v⟩ := e
    rw [marshalMembers] at h
    obtain ⟨j, _, h⟩ := bind_eq_ok h
    obtain ⟨q, hq, h⟩ := bind_eq_ok h
    cases h
    rw [List.map_cons, List.map_cons, ih hq]

theorem get_marshalMembers {m : GoMap Value} {p : GoMap Json} (h : marshalMembers m = .ok p)
    (k : String) : (GoMap.get m k).map Value.json = (GoMap.get p k).map some := by
  induction m generalizing p with
  | nil =>
    cases h
    rfl
  | cons e rest ih =>
    obtain ⟨key, v⟩ := e
    rw [marshalMembers] at h
    obtain ⟨j, hj, h⟩ := bind_eq_ok h
    obtain ⟨q, hq, h⟩ := bind_eq_ok h
    cases h
    rw [GoMap.get_cons, GoMap.get_cons]
    split
    · simp [Value.json, hj, Except.toOption]
    · exact ih hq

/-- A map can be marshalled if all its values can. -/
theorem marshalMembers_isOk {m : GoMap Value} (h : ∀ e ∈ m, (Value.json e.2).isSome) :
    ∃ p, marshalMembers m = .ok p := by
  induction m with
  | nil => exact ⟨[], rfl⟩
  | cons e rest ih =>
    obtain ⟨k, v⟩ := e
    obtain ⟨q, hq⟩ := ih fun e he => h e (List.mem_cons_of_mem _ he)
    have hv := h (k, v) (List.mem_cons_self ..)
    unfold Value.json at hv
    cases hj : v.marshal with
    | error e =>
      rw [hj] at hv
      cases hv
    | ok j => exact ⟨(k, j) :: q, by rw [marshalMembers, hj, hq]; rfl⟩

/-- And only then. -/
theorem json_of_marshalMembers {m : GoMap Value} {p : GoMap Json} (h : marshalMembers m = .ok p) :
    ∀ e ∈ m, (Value.json e.2).isSome := by
  induction m generalizing p with
  | nil => exact fun e he => absurd he List.not_mem_nil
  | cons x rest ih =>
    obtain ⟨key, v⟩ := x
    rw [marshalMembers] at h
    obtain ⟨j, hj, h⟩ := bind_eq_ok h
    obtain ⟨q, hq, h⟩ := bind_eq_ok h
    intro e he
    rcases List.mem_cons.mp he with rfl | he
    · simp [Value.json, hj, Except.toOption]
    · exact ih hq e he

theorem marshal_obj_ok {m : GoMap Value} {j : Json} :
    (Value.obj m).marshal = .ok j ↔ ∃ p, marshalMembers m = .ok p ∧ j = .obj (sortByKey p) := by
  rw [Value.marshal]
  constructor
  · intro h
    obtain ⟨p, hp, h⟩ := bind_eq_ok h
    cases h
    exact ⟨p, hp, rfl⟩
  · rintro ⟨p, hp, rfl⟩
    rw [hp]
    rfl

/-- Maps whose values have the same JSON forms are marshalled alike. -/
theorem json_obj_congr {m m' : GoMap Value} (hm : (m.map (·.1)).Nodup)
    (hm' : (m'.map (·.1)).Nodup)
    (h : ∀ k, (GoMap.get m k).map Value.json = (GoMap.get m' k).map Value.json) :
    (Value.obj m).json = (Value.obj m').json := by
  have key : ∀ {m m' : GoMap Value}, (m.map (·.1)).Nodup → (m'.map (·.1)).Nodup →
      (∀ k, (GoMap.get m k).map Value.json = (GoMap.get m' k).map Value.json) →
      ∀ j, (Value.obj m).marshal = .ok j → (Value.obj m').marshal = .ok j := by
    intro m m' hm hm' h j hj
    obtain ⟨p, hp, rfl⟩ := marshal_obj_ok.mp hj
    obtain ⟨p', hp'⟩ : ∃ p', marshalMembers m' = .ok p' := by
      refine marshalMembers_isOk fun e he => ?_
      have hget := h e.1
      rw [GoMap.get_of_mem hm' he, Option.map_some] at hget
      obtain ⟨v, hv, hjson⟩ := Option.map_eq_some_iff.mp hget
      rw [← hjson]
      exact json_of_marshalMembers hp _ (GoMap.mem_of_get hv)
    refine marshal_obj_ok.mpr ⟨p', hp', ?_⟩
    have hnd : (p.map (·.1)).Nodup := marshalMembers_keys hp ▸ hm
    have hnd' : (p'.map (·.1)).Nodup := marshalMembers_keys hp' ▸ hm'
    congr 1
    refine sortByKey_eq_of_perm hnd (GoMap.perm_of_get hnd hnd' fun k => ?_)
    have hk := h k
    rw [get_marshalMembers hp, get_marshalMembers hp'] at hk
    exact Option.map_injective (Option.some_injective _) hk
  unfold Value.json
  cases hj : (Value.obj m).marshal with
  | ok j => rw [key hm hm' h j hj]
  | error e =>
    cases hj' : (Value.obj m').marshal with
    | error e' => rfl
    | ok j' =>
      rw [key hm' hm (fun k => (h k).symm) j' hj'] at hj
      cases hj

/-! ## Results up to order -/

/-- Both computations fail, or both succeed with related results. -/
def Alike {ε α β : Type} (R : α → β → Prop) : Except ε α → Except ε β → Prop
  | .ok a, .ok b => R a b
  | .error _, .error _ => True
  | _, _ => False

namespace Alike

variable {ε α β γ δ : Type} {R : α → β → Prop} {S : γ → δ → Prop} {x : Except ε α} {y : Except ε β}

theorem bind {f : α → Except ε γ} {g : β → Except ε δ} (h : Alike R x y)
    (hfg : ∀ a b, R a b → Alike S (f a) (g b)) : Alike S (x >>= f) (y >>= g) := by
  cases x with
  | error e =>
    cases y with
    | error e' => trivial
    | ok b => exact h.elim
  | ok a =>
    cases y with
    | error e' => exact h.elim
    | ok b => exact hfg a b h

theorem trans {T : α → α → Prop} (hT : ∀ a b c, T a b → T b c → T a c) {x y z : Except ε α}
    (h : Alike T x y) (h' : Alike T y z) : Alike T x z := by
  cases x with
  | error e =>
    cases y with
    | ok b => exact absurd h (by simp [Alike])
    | error e' =>
      cases z with
      | ok c => exact absurd h' (by simp [Alike])
      | error e'' => trivial
  | ok a =>
    cases y with
    | error e' => exact absurd h (by simp [Alike])
    | ok b =>
      cases z with
      | error e'' => exact absurd h' (by simp [Alike])
      | ok c => exact hT a b c h h'

end Alike

/-- Computes a value for every entry, stopping at the first error. -/
def GoMap.traverse {ε α β : Type} (f : String → α → Except ε β) : GoMap α → Except ε (GoMap β)
  | [] => .ok []
  | (k, a) :: rest => do
    let b ← f k a
    return (k, b) :: (← traverse f rest)

section Traverse

variable {ε α β : Type} {f : String → α → Except ε β}

/-- Whether it succeeds, and with which entries, does not depend on the order. -/
theorem traverse_perm {m m' : GoMap α} (h : m.Perm m') :
    Alike List.Perm (m.traverse f) (m'.traverse f) := by
  induction h with
  | nil => exact .refl _
  | @cons e l l' _ ih =>
    obtain ⟨k, a⟩ := e
    rw [GoMap.traverse, GoMap.traverse]
    cases f k a with
    | error _ => trivial
    | ok b => exact ih.bind fun r r' hr => hr.cons _
  | @swap x y l =>
    obtain ⟨k, a⟩ := x
    obtain ⟨k', a'⟩ := y
    simp only [GoMap.traverse]
    cases f k a with
    | error _ =>
      cases f k' a' with
      | error _ => trivial
      | ok b' => trivial
    | ok b =>
      cases f k' a' with
      | error _ => trivial
      | ok b' =>
        cases GoMap.traverse f l with
        | error _ => trivial
        | ok r => exact List.Perm.swap ..
  | trans _ _ ih ih' => exact Alike.trans (T := List.Perm) (fun _ _ _ => List.Perm.trans) ih ih'

theorem traverse_keys {m : GoMap α} {r : GoMap β} (h : m.traverse f = .ok r) :
    r.map (·.1) = m.map (·.1) := by
  induction m generalizing r with
  | nil =>
    cases h
    rfl
  | cons e rest ih =>
    obtain ⟨k, a⟩ := e
    rw [GoMap.traverse] at h
    obtain ⟨b, _, h⟩ := bind_eq_ok h
    obtain ⟨q, hq, h⟩ := bind_eq_ok h
    cases h
    rw [List.map_cons, List.map_cons, ih hq]

theorem traverse_error {m : GoMap α} {e : ε} (h : m.traverse f = .error e) :
    ∃ x ∈ m, f x.1 x.2 = .error e := by
  induction m with
  | nil => cases h
  | cons x rest ih =>
    obtain ⟨k, a⟩ := x
    rw [GoMap.traverse] at h
    cases hf : f k a with
    | error e' =>
      rw [hf] at h
      cases h
      exact ⟨(k, a), List.mem_cons_self .., hf⟩
    | ok b =>
      cases hrest : GoMap.traverse f rest with
      | error e' =>
        rw [hf, hrest] at h
        cases h
        obtain ⟨x, hx, hfx⟩ := ih hrest
        exact ⟨x, List.mem_cons_of_mem _ hx, hfx⟩
      | ok r =>
        rw [hf, hrest] at h
        cases h

theorem traverse_ok {m : GoMap α} {r : GoMap β} (h : m.traverse f = .ok r) :
    ∀ x ∈ m, ∃ b, f x.1 x.2 = .ok b := by
  induction m generalizing r with
  | nil => exact fun x hx => absurd hx List.not_mem_nil
  | cons e rest ih =>
    obtain ⟨k, a⟩ := e
    rw [GoMap.traverse] at h
    obtain ⟨b, hb, h⟩ := bind_eq_ok h
    obtain ⟨q, hq, h⟩ := bind_eq_ok h
    intro x hx
    rcases List.mem_cons.mp hx with rfl | hx
    · exact ⟨b, hb⟩
    · exact ih hq x hx

end Traverse

end Rochallor
