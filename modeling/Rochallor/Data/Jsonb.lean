import Rochallor.Data.Json
import Mathlib.Data.List.Sort
import Mathlib.Data.String.Basic

/-! # JSONB

    What becomes of a JSON document in a PostgreSQL `JSONB` column: of a
    repeated key the last value is kept, and the keys of an object are put in
    an order of their own, shorter ones (in bytes) first and bytewise among
    keys of one length.

    PostgreSQL keeps the scale of a number; it is left out here, since nothing
    that reads a stored document can tell `1.0` from `1`.
-/

namespace Rochallor

/-! ## Key order -/

/-- `a` comes before `b` in a JSONB object.  UTF-8 keeps the order of code
    points, so comparing bytes of one length is comparing strings. -/
def keyLe (a b : String) : Prop :=
  a.utf8ByteSize < b.utf8ByteSize ∨ (a.utf8ByteSize = b.utf8ByteSize ∧ a ≤ b)

instance : DecidableRel keyLe := fun a b =>
  inferInstanceAs (Decidable (_ ∨ (_ ∧ a ≤ b)))

theorem keyLe_total (a b : String) : keyLe a b ∨ keyLe b a := by
  unfold keyLe
  rcases Nat.lt_trichotomy a.utf8ByteSize b.utf8ByteSize with h | h | h
  · exact .inl (.inl h)
  · rcases le_total a b with hab | hba
    · exact .inl (.inr ⟨h, hab⟩)
    · exact .inr (.inr ⟨h.symm, hba⟩)
  · exact .inr (.inl h)

theorem keyLe_trans {a b c : String} (hab : keyLe a b) (hbc : keyLe b c) : keyLe a c := by
  unfold keyLe at *
  rcases hab with hab | ⟨hab, hle⟩
  · rcases hbc with hbc | ⟨hbc, -⟩ <;> left <;> omega
  · rcases hbc with hbc | ⟨hbc, hle'⟩
    · left
      omega
    · exact .inr ⟨hab.trans hbc, hle.trans hle'⟩

theorem keyLe_antisymm {a b : String} (hab : keyLe a b) (hba : keyLe b a) : a = b := by
  unfold keyLe at *
  rcases hab with hab | ⟨heq, hle⟩
  · rcases hba with hba | ⟨hba, -⟩ <;> omega
  · rcases hba with hba | ⟨-, hle'⟩
    · omega
    · exact le_antisymm hle hle'

instance : Std.Total keyLe := ⟨keyLe_total⟩

instance : IsTrans String keyLe := ⟨fun _ _ _ => keyLe_trans⟩

/-- The keys in JSONB order. -/
def sortKeys (keys : List String) : List String :=
  keys.insertionSort keyLe

/-- The members in the order of their keys. -/
def sortMembers {α : Type} (members : List (String × α)) : List (String × α) :=
  members.insertionSort fun a b => keyLe a.1 b.1

theorem sortKeys_perm (keys : List String) : (sortKeys keys).Perm keys :=
  List.perm_insertionSort ..

theorem sortKeys_sorted (keys : List String) : (sortKeys keys).Pairwise keyLe :=
  List.pairwise_insertionSort ..

/-- There is one way to sort keys. -/
theorem sorted_unique {keys keys' : List String} (hp : keys.Perm keys') (hs : keys.Pairwise keyLe)
    (hs' : keys'.Pairwise keyLe) : keys = keys' :=
  hp.eq_of_pairwise (fun _ _ _ _ hab hba => keyLe_antisymm hab hba) hs hs'

section Members

variable {α : Type}

theorem sortMembers_perm (members : List (String × α)) : (sortMembers members).Perm members :=
  List.perm_insertionSort ..

theorem sortMembers_sorted (members : List (String × α)) :
    (sortMembers members).Pairwise fun a b => keyLe a.1 b.1 := by
  have : Std.Total fun a b : String × α => keyLe a.1 b.1 := ⟨fun a b => keyLe_total a.1 b.1⟩
  have : IsTrans (String × α) fun a b => keyLe a.1 b.1 := ⟨fun _ _ _ => keyLe_trans⟩
  exact List.pairwise_insertionSort ..

theorem sortMembers_keys (members : List (String × α)) :
    (sortMembers members).map (·.1) = sortKeys (members.map (·.1)) := by
  refine sorted_unique ?_ (List.pairwise_map.mpr (sortMembers_sorted members)) (sortKeys_sorted _)
  exact ((sortMembers_perm members).map _).trans (sortKeys_perm _).symm

/-- The members named by `keys` among those `g` has. -/
def membersOf (keys : List String) (g : String → Option α) : List (String × α) :=
  keys.filterMap fun k => (g k).map fun a => (k, a)

theorem membersOf_cons (k : String) (keys : List String) (g : String → Option α) :
    membersOf (k :: keys) g = (g k).toList.map (k, ·) ++ membersOf keys g := by
  unfold membersOf
  cases h : g k with
  | none => simp [h]
  | some a => simp [h]

theorem membersOf_keys (keys : List String) (g : String → Option α) :
    ((membersOf keys g).map (·.1)).Sublist keys := by
  induction keys with
  | nil => exact .slnil
  | cons k rest ih =>
    rw [membersOf_cons]
    cases g k with
    | none => simpa using ih.cons k
    | some a => simpa using ih

theorem map_membersOf {β : Type} (f : α → β) (keys : List String) (g : String → Option α) :
    (membersOf keys g).map (fun m => (m.1, f m.2)) = membersOf keys fun k => (g k).map f := by
  unfold membersOf
  rw [List.map_filterMap]
  refine List.filterMap_congr fun k _ => ?_
  cases h : g k with
  | none => simp [h]
  | some a => simp [h]

theorem mem_membersOf {keys : List String} {g : String → Option α} {m : String × α} :
    m ∈ membersOf keys g ↔ m.1 ∈ keys ∧ g m.1 = some m.2 := by
  unfold membersOf
  rw [List.mem_filterMap]
  constructor
  · rintro ⟨k, hk, hm⟩
    obtain ⟨a, ha, rfl⟩ := Option.map_eq_some_iff.mp hm
    exact ⟨hk, ha⟩
  · rintro ⟨hk, ha⟩
    exact ⟨m.1, hk, by rw [ha]; rfl⟩

/-- Sorting the members of a record is sorting its field names. -/
theorem sortMembers_membersOf (keys : List String) (g : String → Option α) :
    sortMembers (membersOf keys g) = membersOf (sortKeys keys) g := by
  have hsorted : (membersOf (sortKeys keys) g).Pairwise fun a b => keyLe a.1 b.1 :=
    List.pairwise_map.mp ((sortKeys_sorted keys).sublist (membersOf_keys ..))
  have hperm : (sortMembers (membersOf keys g)).Perm (membersOf (sortKeys keys) g) :=
    (sortMembers_perm _).trans ((sortKeys_perm keys).symm.filterMap _)
  refine hperm.eq_of_pairwise ?_ (sortMembers_sorted _) hsorted
  intro a b ha hb hab hba
  -- equal keys have equal values
  have hkey : a.1 = b.1 := keyLe_antisymm hab hba
  have hga := (mem_membersOf.mp ((sortMembers_perm _).mem_iff.mp ha)).2
  have hgb := (mem_membersOf.mp hb).2
  rw [hkey, hgb] at hga
  exact Prod.ext hkey (Option.some.inj hga).symm

end Members

/-! ## Documents -/

mutual

/-- The document as the column holds it. -/
def Json.jsonb : Json → Json
  | .null => .null
  | .bool b => .bool b
  | .num q _ => .num q (decide (q.den = 1))
  | .str s => .str s
  | .arr items => .arr (jsonbItems items)
  | .obj members => .obj (sortMembers (GoMap.overlay [] (jsonbMembers members)))

def jsonbItems : List Json → List Json
  | [] => []
  | j :: js => j.jsonb :: jsonbItems js

def jsonbMembers : List (String × Json) → List (String × Json)
  | [] => []
  | (k, j) :: ms => (k, j.jsonb) :: jsonbMembers ms

end

mutual

/-- A string or a key of the document holds U+0000, which `JSONB` rejects. -/
def Json.hasNul : Json → Bool
  | .str s => s.toList.contains '\x00'
  | .arr items => hasNulItems items
  | .obj members => hasNulMembers members
  | _ => false

def hasNulItems : List Json → Bool
  | [] => false
  | j :: js => j.hasNul || hasNulItems js

def hasNulMembers : List (String × Json) → Bool
  | [] => false
  | (k, j) :: ms => k.toList.contains '\x00' || j.hasNul || hasNulMembers ms

end

mutual

/-- Equality of documents in their column form. -/
def Json.same : Json → Json → Bool
  | .null, .null => true
  | .bool a, .bool b => a == b
  | .num q p, .num q' p' => decide (q = q') && p == p'
  | .str a, .str b => a == b
  | .arr items, .arr items' => sameItems items items'
  | .obj members, .obj members' => sameMembers members members'
  | _, _ => false

def sameItems : List Json → List Json → Bool
  | [], [] => true
  | j :: js, j' :: js' => j.same j' && sameItems js js'
  | _, _ => false

def sameMembers : List (String × Json) → List (String × Json) → Bool
  | [], [] => true
  | (k, j) :: ms, (k', j') :: ms' => k == k' && j.same j' && sameMembers ms ms'
  | _, _ => false

end

theorem jsonbItems_eq_map (items : List Json) : jsonbItems items = items.map Json.jsonb := by
  induction items with
  | nil => rfl
  | cons j js ih => rw [jsonbItems, ih, List.map_cons]

theorem jsonbMembers_eq_map (members : List (String × Json)) :
    jsonbMembers members = members.map fun m => (m.1, m.2.jsonb) := by
  induction members with
  | nil => rfl
  | cons m ms ih =>
    obtain ⟨k, j⟩ := m
    rw [jsonbMembers, ih, List.map_cons]

mutual

theorem Json.eq_of_same : ∀ {j j' : Json}, j.same j' = true → j = j'
  | .null, j', h => by cases j' <;> simp_all [Json.same]
  | .bool a, j', h => by cases j' <;> simp_all [Json.same]
  | .num q p, j', h => by cases j' <;> simp_all [Json.same]
  | .str a, j', h => by cases j' <;> simp_all [Json.same]
  | .arr items, j', h => by
    cases j' with
    | arr items' =>
      rw [Json.same] at h
      rw [eq_of_sameItems h]
    | _ => simp [Json.same] at h
  | .obj members, j', h => by
    cases j' with
    | obj members' =>
      rw [Json.same] at h
      rw [eq_of_sameMembers h]
    | _ => simp [Json.same] at h

theorem eq_of_sameItems : ∀ {items items' : List Json}, sameItems items items' = true →
    items = items'
  | [], items', h => by cases items' <;> simp_all [sameItems]
  | j :: js, items', h => by
    cases items' with
    | nil => simp [sameItems] at h
    | cons j' js' =>
      rw [sameItems, Bool.and_eq_true] at h
      rw [Json.eq_of_same h.1, eq_of_sameItems h.2]

theorem eq_of_sameMembers : ∀ {members members' : List (String × Json)},
    sameMembers members members' = true → members = members'
  | [], members', h => by cases members' <;> simp_all [sameMembers]
  | (k, j) :: ms, members', h => by
    cases members' with
    | nil => simp [sameMembers] at h
    | cons m' ms' =>
      obtain ⟨k', j'⟩ := m'
      rw [sameMembers, Bool.and_eq_true, Bool.and_eq_true, beq_iff_eq] at h
      rw [h.1.1, Json.eq_of_same h.1.2, eq_of_sameMembers h.2]

end

mutual

theorem Json.same_self : ∀ j : Json, j.same j = true
  | .null => rfl
  | .bool a => by simp [Json.same]
  | .num q p => by simp [Json.same]
  | .str a => by simp [Json.same]
  | .arr items => by
    rw [Json.same]
    exact sameItems_self items
  | .obj members => by
    rw [Json.same]
    exact sameMembers_self members

theorem sameItems_self : ∀ items : List Json, sameItems items items = true
  | [] => rfl
  | j :: js => by
    rw [sameItems, Json.same_self j, sameItems_self js]
    rfl

theorem sameMembers_self : ∀ members : List (String × Json), sameMembers members members = true
  | [] => rfl
  | (k, j) :: ms => by
    rw [sameMembers, Json.same_self j, sameMembers_self ms]
    simp

end

instance : DecidableEq Json := fun j j' =>
  decidable_of_iff (j.same j' = true) ⟨Json.eq_of_same, fun h => h ▸ j.same_self⟩

section Overlay

variable {α : Type}

/-- Setting new keys appends them. -/
theorem overlay_append {acc m : List (String × α)} (h : ((acc ++ m).map (·.1)).Nodup) :
    GoMap.overlay acc m = acc ++ m := by
  induction m generalizing acc with
  | nil => simp [GoMap.overlay]
  | cons e rest ih =>
    have hnew : acc.any (fun x => x.1 == e.1) = false := by
      rw [List.map_append, List.map_cons, List.nodup_append] at h
      rw [List.any_eq_false]
      intro x hx heq
      exact h.2.2 _ (List.mem_map_of_mem hx) _ (List.mem_cons_self ..) (beq_iff_eq.mp heq)
    have hset : GoMap.set acc e.1 e.2 = acc ++ [e] := by
      simp [GoMap.set, hnew]
    have hrest : GoMap.overlay (acc ++ [e]) rest = acc ++ [e] ++ rest := ih (by simpa using h)
    unfold GoMap.overlay at hrest ⊢
    rw [List.foldl_cons, hset, hrest, List.append_assoc, List.singleton_append]

/-- Members with distinct keys are a map already. -/
theorem overlay_of_nodup {m : List (String × α)} (h : (m.map (·.1)).Nodup) :
    GoMap.overlay [] m = m :=
  overlay_append (by simpa using h)

theorem set_nodup {m : GoMap α} (h : (m.map (·.1)).Nodup) (k : String) (v : α) :
    ((GoMap.set m k v).map (·.1)).Nodup := by
  unfold GoMap.set
  split
  · have hkeys : (m.map fun e => if e.1 == k then (k, v) else e).map (·.1) = m.map (·.1) := by
      rw [List.map_map]
      refine List.map_congr_left fun e _ => ?_
      by_cases he : e.1 = k
      · simp [he]
      · simp [he]
    rw [hkeys]
    exact h
  · rename_i hany
    rw [List.map_append, List.nodup_append]
    refine ⟨h, by simp, ?_⟩
    intro a ha b hb
    obtain ⟨e, he, rfl⟩ := List.mem_map.mp ha
    obtain rfl : b = k := by simpa using hb
    intro heq
    exact hany (List.any_eq_true.mpr ⟨e, he, beq_iff_eq.mpr heq⟩)

theorem overlay_nodup {m delta : GoMap α} (h : (m.map (·.1)).Nodup) :
    ((GoMap.overlay m delta).map (·.1)).Nodup := by
  unfold GoMap.overlay
  induction delta generalizing m with
  | nil => exact h
  | cons e rest ih => exact ih (set_nodup h ..)

/-- A JSONB object has distinct keys. -/
theorem sortMembers_overlay_nodup (m : List (String × α)) :
    ((sortMembers (GoMap.overlay [] m)).map (·.1)).Nodup :=
  ((sortMembers_perm _).map _).nodup_iff.mpr (overlay_nodup (by simp))

/-! Rewriting the values under their keys commutes with all of it. -/

section Values

variable {β : Type} (f : α → β)

theorem map_insertByKey (e : String × α) (m : List (String × α)) :
    (insertByKey e m).map (fun x => (x.1, f x.2)) =
      insertByKey (e.1, f e.2) (m.map fun x => (x.1, f x.2)) := by
  induction m with
  | nil => rfl
  | cons x xs ih =>
    simp only [insertByKey, List.map_cons]
    split
    · simp
    · simp [ih]

theorem map_sortByKey (m : List (String × α)) :
    (sortByKey m).map (fun x => (x.1, f x.2)) = sortByKey (m.map fun x => (x.1, f x.2)) := by
  unfold sortByKey
  induction m with
  | nil => rfl
  | cons x xs ih => rw [List.foldr_cons, map_insertByKey, ih, List.map_cons, List.foldr_cons]

theorem map_set (m : GoMap α) (k : String) (v : α) :
    (GoMap.set m k v).map (fun x => (x.1, f x.2)) =
      GoMap.set (m.map fun x => (x.1, f x.2)) k (f v) := by
  unfold GoMap.set
  have hany : (m.map fun x => (x.1, f x.2)).any (fun e => e.1 == k) =
      m.any fun e => e.1 == k := by
    simp [List.any_map, Function.comp_def]
  rw [hany]
  split
  · rw [List.map_map, List.map_map]
    refine List.map_congr_left fun e _ => ?_
    by_cases he : e.1 = k
    · simp [he]
    · simp [he]
  · simp

theorem map_overlay (m delta : GoMap α) :
    (GoMap.overlay m delta).map (fun x => (x.1, f x.2)) =
      GoMap.overlay (m.map fun x => (x.1, f x.2)) (delta.map fun x => (x.1, f x.2)) := by
  unfold GoMap.overlay
  induction delta generalizing m with
  | nil => rfl
  | cons e rest ih => rw [List.foldl_cons, ih, map_set, List.map_cons, List.foldl_cons]

theorem map_sortMembers (m : List (String × α)) :
    (sortMembers m).map (fun x => (x.1, f x.2)) = sortMembers (m.map fun x => (x.1, f x.2)) :=
  List.map_insertionSort _ _ _ _ fun _ _ _ _ => Iff.rfl

end Values

/-- A map as it is after it has been written, stored and read again. -/
def GoMap.stored (m : GoMap α) : GoMap α :=
  sortMembers (GoMap.overlay [] (sortByKey m))

theorem stored_nodup (m : GoMap α) : (m.stored.map (·.1)).Nodup :=
  sortMembers_overlay_nodup _

end Overlay

/-- The column form of a map that `encode` writes. -/
theorem jsonb_map {α : Type} (encode : α → Json) (m : GoMap α) :
    (Json.obj (sortByKey (m.map fun x => (x.1, encode x.2)))).jsonb =
      .obj (m.stored.map fun x => (x.1, (encode x.2).jsonb)) := by
  rw [Json.jsonb, jsonbMembers_eq_map, ← map_sortByKey encode, List.map_map]
  unfold GoMap.stored
  rw [map_sortMembers (fun v => (encode v).jsonb), map_overlay (fun v => (encode v).jsonb)]
  rfl

/-- The column form of a record: its fields in the order of their names. -/
theorem jsonb_membersOf {keys : List String} (hk : keys.Nodup) (g : String → Option Json) :
    (Json.obj (membersOf keys g)).jsonb =
      .obj (membersOf (sortKeys keys) fun k => (g k).map Json.jsonb) := by
  rw [Json.jsonb, jsonbMembers_eq_map, map_membersOf, overlay_of_nodup, sortMembers_membersOf]
  exact hk.sublist (membersOf_keys ..)

end Rochallor
