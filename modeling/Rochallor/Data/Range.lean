import Rochallor.Data.Decoded

/-! # Numbers out of range

    Decoding fails over a number no double is near to, and encoding over an
    infinity or NaN.  Nothing else about a document or a value is rejected.
-/

namespace Rochallor

mutual

/-- Every number of the document is near to a double. -/
def Json.inRange : Json → Bool
  | .num q _ => (Float64.float64 q).isSome
  | .arr items => itemsInRange items
  | .obj members => membersInRange members
  | _ => true

def itemsInRange : List Json → Bool
  | [] => true
  | j :: js => j.inRange && itemsInRange js

def membersInRange : List (String × Json) → Bool
  | [] => true
  | (_, j) :: ms => j.inRange && membersInRange ms

end

mutual

/-- No number of the value is an infinity or NaN. -/
def Value.finite : Value → Bool
  | .float (.finite _) => true
  | .float _ => false
  | .arr items => itemsFinite items
  | .obj members => membersFinite members
  | _ => true

def itemsFinite : List Value → Bool
  | [] => true
  | v :: vs => v.finite && itemsFinite vs

def membersFinite : List (String × Value) → Bool
  | [] => true
  | (_, v) :: ms => v.finite && membersFinite ms

end

theorem isSome_bind_pure {ε α β : Type} (x : Except ε α) (f : α → β) :
    (x >>= fun a => pure (f a)).toOption.isSome = x.toOption.isSome := by
  cases x with
  | error e => rfl
  | ok a => rfl

theorem isSome_bind₂ {ε α β γ : Type} (x : Except ε α) (y : Except ε β) (f : α → β → γ) :
    (x >>= fun a => y >>= fun b => pure (f a b)).toOption.isSome =
      (x.toOption.isSome && y.toOption.isSome) := by
  cases x with
  | error e => rfl
  | ok a =>
    cases y with
    | error e => rfl
    | ok b => rfl

mutual

theorem isSome_toValue : ∀ j : Json, j.toValue.toOption.isSome = j.inRange
  | .null | .bool _ | .str _ => rfl
  | .num q plain => by
    rw [Json.toValue, Json.inRange]
    cases Float64.float64 q with
    | none => rfl
    | some v => rfl
  | .arr items => by
    rw [Json.toValue, Json.inRange, isSome_bind_pure]
    exact isSome_toValues items
  | .obj members => by
    rw [Json.toValue, Json.inRange, isSome_bind_pure]
    exact isSome_toMembers members

theorem isSome_toValues : ∀ items : List Json,
    (toValues items).toOption.isSome = itemsInRange items
  | [] => rfl
  | j :: js => by
    rw [toValues, itemsInRange, isSome_bind₂, isSome_toValue j, isSome_toValues js]

theorem isSome_toMembers : ∀ members : List (String × Json),
    (toMembers members).toOption.isSome = membersInRange members
  | [] => rfl
  | (k, j) :: ms => by
    rw [toMembers, membersInRange, isSome_bind₂, isSome_toValue j, isSome_toMembers ms]

end

mutual

theorem isSome_json : ∀ v : Value, v.json.isSome = v.finite
  | .null | .bool _ | .int _ | .str _ => rfl
  | .float x => by
    cases x with
    | finite q => rfl
    | posInf | negInf | nan => rfl
  | .arr items => by
    rw [Value.json, Value.marshal, Value.finite, isSome_bind_pure]
    exact isSome_marshalItems items
  | .obj members => by
    rw [Value.json, Value.marshal, Value.finite, isSome_bind_pure]
    exact isSome_marshalMembers members

theorem isSome_marshalItems : ∀ items : List Value,
    (marshalItems items).toOption.isSome = itemsFinite items
  | [] => rfl
  | v :: vs => by
    rw [marshalItems, itemsFinite, isSome_bind₂, isSome_marshalItems vs]
    exact congrArg (· && itemsFinite vs) (isSome_json v)

theorem isSome_marshalMembers : ∀ members : List (String × Value),
    (marshalMembers members).toOption.isSome = membersFinite members
  | [] => rfl
  | (k, v) :: ms => by
    rw [marshalMembers, membersFinite, isSome_bind₂, isSome_marshalMembers ms]
    exact congrArg (· && membersFinite ms) (isSome_json v)

end

theorem membersFinite_iff {members : List (String × Value)} :
    membersFinite members = true ↔ ∀ e ∈ members, e.2.finite = true := by
  induction members with
  | nil => simp [membersFinite]
  | cons e rest ih =>
    obtain ⟨k, v⟩ := e
    rw [membersFinite, Bool.and_eq_true, ih, List.forall_mem_cons]

end Rochallor
