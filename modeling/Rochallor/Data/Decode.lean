import Rochallor.Data.Jsonb

/-! # Decoding into Go structs

    `encoding/json` on the types of a definition.  A member of an object is
    decoded into the field of its name, exactly or up to case; a field without
    a member keeps its value, and so does one whose member is `null`, unless it
    is a pointer, a map or a slice.  Members are decoded in the order of the
    document and the first error is the one returned.

    The encoder leaves out the fields tagged `omitempty` that are empty.
-/

namespace Rochallor

/-- The kind of a document in an error message. -/
def Json.kind : Json → String
  | .null => "null"
  | .bool _ => "bool"
  | .num _ _ => "number"
  | .str _ => "string"
  | .arr _ => "array"
  | .obj _ => "object"

/-- The error of a document that does not fit its field. -/
def mismatch {α : Type} (j : Json) (type : String) : Except String α :=
  .error ("json: cannot unmarshal " ++ j.kind ++ " into Go value of type " ++ type)

/-! ## Values -/

def decodeString (old : String) : Json → Except String String
  | .str s => .ok s
  | .null => .ok old
  | j => mismatch j "string"

def decodeBool (old : Bool) : Json → Except String Bool
  | .bool b => .ok b
  | .null => .ok old
  | j => mismatch j "bool"

/-- The range of a Go `int`. -/
def goInt (n : Int) : Bool :=
  decide (-2 ^ 63 ≤ n) && decide (n < 2 ^ 63)

def decodeInt (old : Int) : Json → Except String Int
  | .num q plain => if plain && goInt q.num then .ok q.num else mismatch (.num q plain) "int"
  | .null => .ok old
  | j => mismatch j "int"

/-- A slice.  An element is decoded into the one already at its index. -/
def decodeItems {α : Type} (decode : α → Json → Except String α) (zero : α) :
    List α → List Json → Except String (List α)
  | _, [] => .ok []
  | old, j :: js => do
    let a ← decode (old.headD zero) j
    return a :: (← decodeItems decode zero old.tail js)

def decodeSlice {α : Type} (decode : α → Json → Except String α) (zero : α) (old : List α) :
    Json → Except String (List α)
  | .arr items => decodeItems decode zero old items
  | .null => .ok []
  | j => mismatch j "slice"

/-- A map.  Every element is decoded anew. -/
def decodeEntries {α : Type} (decode : Json → Except String α) :
    GoMap α → List (String × Json) → Except String (GoMap α)
  | m, [] => .ok m
  | m, (k, j) :: rest => do
    let a ← decode j
    decodeEntries decode (GoMap.set m k a) rest

def decodeMap {α : Type} (decode : Json → Except String α) (old : GoMap α) :
    Json → Except String (GoMap α)
  | .obj members => decodeEntries decode old members
  | .null => .ok []
  | j => mismatch j "map"

/-- A pointer: `null` makes it nil, and a value is decoded into what it points
    to. -/
def decodePointer {α : Type} (decode : α → Json → Except String α) (zero : α) (old : Option α) :
    Json → Except String (Option α)
  | .null => .ok none
  | j => do return some (← decode (old.getD zero) j)

/-! ## Structs -/

/-- A field: its JSON name and how a member is decoded into it. -/
structure Field (σ : Type) where
  name : String
  decode : σ → Json → Except String σ

/-- The field that `get` reads and `set` writes. -/
def Field.of {σ α : Type} (name : String) (decode : α → Json → Except String α) (get : σ → α)
    (set : σ → α → σ) : Field σ where
  name := name
  decode s j := do return set s (← decode (get s) j)

/-- Names are matched up to Unicode case folding.  Besides the letters of the
    other case, `ſ` and the Kelvin sign fold to ASCII letters. -/
def foldRune (c : Char) : Char :=
  if c = 'ſ' then 'S' else if c = '\u212A' then 'K' else c.toUpper

def foldName (name : String) : String :=
  String.ofList (name.toList.map foldRune)

/-- The field of a member: by its exact name, else by its folded name. -/
def findField {σ : Type} (fields : List (Field σ)) (key : String) : Option (Field σ) :=
  match fields.find? fun f => f.name == key with
  | some f => some f
  | none => fields.find? fun f => foldName f.name == foldName key

/-- The members of a struct.  With `strict` (`DisallowUnknownFields`) a member
    without a field is an error. -/
def decodeMembers {σ : Type} (strict : Bool) (fields : List (Field σ)) :
    σ → List (String × Json) → Except String σ
  | s, [] => .ok s
  | s, (k, j) :: rest =>
    match findField fields k with
    | some f => do
      let s ← f.decode s j
      decodeMembers strict fields s rest
    | none =>
      if strict then .error ("json: unknown field " ++ quote k)
      else decodeMembers strict fields s rest

def decodeStruct {σ : Type} (strict : Bool) (fields : List (Field σ)) (type : String) (s : σ) :
    Json → Except String σ
  | .obj members => decodeMembers strict fields s members
  | .null => .ok s
  | j => mismatch j type

/-! ## Encoding -/

/-- `omitempty` on a string. -/
def omitString (s : String) : Option Json :=
  if s.isEmpty then none else some (.str s)

/-- `omitempty` on an `int`. -/
def omitInt (n : Int) : Option Json :=
  if n = 0 then none else some (.num n true)

/-- `omitempty` on a `bool`. -/
def omitBool (b : Bool) : Option Json :=
  if b then some (.bool true) else none

/-- `omitempty` on a slice. -/
def omitItems (items : List Json) : Option Json :=
  if items.isEmpty then none else some (.arr items)

/-- `omitempty` on a map; keys are written in sorted order. -/
def omitMap (m : GoMap Json) : Option Json :=
  if m.isEmpty then none else some (.obj (sortByKey m))

/-! ## Reading back what was written -/

/-- Decoding the member, if there is one, turns the old value into `v`. -/
structure Reads {α : Type} (decode : α → Json → Except String α) (old : α) (member : Option Json)
    (v : α) : Prop where
  present : ∀ j, member = some j → decode old j = .ok v
  absent : member = none → v = old

section Structs

variable {σ α : Type} {strict : Bool} {fields : List (Field σ)} {s : σ} {key : String}
  {keys : List String} {g : String → Option Json} {decode : α → Json → Except String α}
  {get : σ → α} {set : σ → α → σ} {v : α}

/-- The fields of a record are read one after another. -/
theorem decodeMembers_field (hfield : findField fields key = some (.of key decode get set))
    (hset : set s (get s) = s) (h : Reads decode (get s) (g key) v) :
    decodeMembers strict fields s (membersOf (key :: keys) g) =
      decodeMembers strict fields (set s v) (membersOf keys g) := by
  rw [membersOf_cons]
  cases hg : g key with
  | none =>
    rw [h.absent hg, hset]
    rfl
  | some j =>
    simp only [Option.toList_some, List.map_cons, List.map_nil, List.singleton_append,
      decodeMembers, hfield, Field.of, h.present j hg]
    rfl

end Structs

section Values

theorem reads_string (old v : String) : Reads decodeString old (some (Json.str v).jsonb) v where
  present := by
    rintro j ⟨rfl⟩
    rfl
  absent := by simp

theorem reads_omitString (v : String) : Reads decodeString "" ((omitString v).map Json.jsonb) v where
  present := by
    intro j hj
    unfold omitString at hj
    split at hj
    · cases hj
    · cases hj
      rfl
  absent := by
    intro h
    unfold omitString at h
    split at h
    · rename_i hempty
      simpa using hempty
    · cases h

theorem reads_bool (old v : Bool) : Reads decodeBool old (some (Json.bool v).jsonb) v where
  present := by
    rintro j ⟨rfl⟩
    rfl
  absent := by simp

theorem reads_omitBool (v : Bool) : Reads decodeBool false ((omitBool v).map Json.jsonb) v where
  present := by
    intro j hj
    cases v with
    | true =>
      cases hj
      rfl
    | false => cases hj
  absent := by
    intro h
    cases v with
    | true => cases h
    | false => rfl

theorem reads_omitInt {v : Int} (hv : goInt v = true) :
    Reads decodeInt 0 ((omitInt v).map Json.jsonb) v where
  present := by
    intro j hj
    unfold omitInt at hj
    split at hj
    · cases hj
    · cases hj
      simp [Json.jsonb, decodeInt, hv]
  absent := by
    intro h
    unfold omitInt at h
    split at h
    · assumption
    · cases h

variable {α β : Type}

theorem decodeItems_map {encode : α → Json} {decode : β → Json → Except String β} {zero : β}
    {f : α → β} {items : List α} (h : ∀ a ∈ items, decode zero (encode a).jsonb = .ok (f a)) :
    decodeItems decode zero [] ((items.map encode).map Json.jsonb) = .ok (items.map f) := by
  induction items with
  | nil => rfl
  | cons a rest ih =>
    have hrest := ih fun x hx => h x (List.mem_cons_of_mem _ hx)
    simp only [List.map_cons, decodeItems, List.headD_nil, List.tail_nil,
      h a (List.mem_cons_self ..), bind, Except.bind, hrest]
    rfl

/-- A slice without `omitempty`. -/
theorem reads_items {encode : α → Json} {decode : β → Json → Except String β} {zero : β}
    {f : α → β} {items : List α} (h : ∀ a ∈ items, decode zero (encode a).jsonb = .ok (f a)) :
    Reads (decodeSlice decode zero) [] (some (Json.arr (items.map encode)).jsonb) (items.map f) where
  present := by
    rintro j ⟨rfl⟩
    rw [Json.jsonb, jsonbItems_eq_map]
    exact decodeItems_map h
  absent := by simp

theorem reads_omitItems {encode : α → Json} {decode : β → Json → Except String β} {zero : β}
    {f : α → β} {items : List α} (h : ∀ a ∈ items, decode zero (encode a).jsonb = .ok (f a)) :
    Reads (decodeSlice decode zero) [] ((omitItems (items.map encode)).map Json.jsonb)
      (items.map f) where
  present := by
    intro j hj
    unfold omitItems at hj
    split at hj
    · cases hj
    · exact (reads_items h).present j hj
  absent := by
    intro hnone
    unfold omitItems at hnone
    split at hnone
    · rename_i hempty
      have : items = [] := by simpa using hempty
      rw [this]
      rfl
    · cases hnone

theorem decodeEntries_map (encode : α → Json) {decode : Json → Except String β} {f : α → β}
    {m : GoMap α} (h : ∀ a, decode (encode a) = .ok (f a)) (acc : GoMap β) :
    decodeEntries decode acc (m.map fun x => (x.1, encode x.2)) =
      .ok (GoMap.overlay acc (m.map fun x => (x.1, f x.2))) := by
  induction m generalizing acc with
  | nil => rfl
  | cons x rest ih =>
    simp only [List.map_cons, decodeEntries, h, bind, Except.bind]
    rw [ih]
    rfl

/-- A map without `omitempty`. -/
theorem reads_map {encode : α → Json} {decode : Json → Except String β} {f : α → β}
    (h : ∀ a, decode (encode a).jsonb = .ok (f a)) (m : GoMap α) :
    Reads (decodeMap decode) [] (some (Json.obj (sortByKey (m.map fun x => (x.1, encode x.2)))).jsonb)
      (m.stored.map fun x => (x.1, f x.2)) where
  present := by
    rintro j ⟨rfl⟩
    have hnd : ((m.stored.map fun x => (x.1, f x.2)).map (·.1)).Nodup := by
      simpa [Function.comp_def] using stored_nodup m
    rw [jsonb_map, decodeMap, decodeEntries_map (fun a => (encode a).jsonb) h,
      overlay_of_nodup hnd]
  absent := by simp

theorem reads_omitMap {encode : α → Json} {decode : Json → Except String β} {f : α → β}
    (h : ∀ a, decode (encode a).jsonb = .ok (f a)) (m : GoMap α) :
    Reads (decodeMap decode) [] ((omitMap (m.map fun x => (x.1, encode x.2))).map Json.jsonb)
      (m.stored.map fun x => (x.1, f x.2)) where
  present := by
    intro j hj
    unfold omitMap at hj
    split at hj
    · cases hj
    · exact (reads_map h m).present j hj
  absent := by
    intro hnone
    unfold omitMap at hnone
    split at hnone
    · rename_i hempty
      have : m = [] := by simpa using hempty
      rw [this]
      rfl
    · cases hnone

/-- A pointer to a struct. -/
theorem reads_pointer {encode : α → Json} {decode : β → Json → Except String β} {zero : β}
    {f : α → β} (h : ∀ a, decode zero (encode a).jsonb = .ok (f a))
    (hobj : ∀ a, ∃ members, (encode a).jsonb = .obj members) (o : Option α) :
    Reads (decodePointer decode zero) none ((o.map encode).map Json.jsonb) (o.map f) where
  present := by
    intro j hj
    cases o with
    | none => cases hj
    | some a =>
      obtain rfl := Option.some.inj hj
      have ha := h a
      obtain ⟨members, hmembers⟩ := hobj a
      rw [hmembers] at ha ⊢
      simp only [decodePointer, Option.getD_none, ha]
      rfl
  absent := by
    intro hnone
    cases o with
    | none => rfl
    | some a => cases hnone

end Values

/-! ## What decoding keeps -/

section Keeps

variable {σ α : Type} {strict : Bool}

theorem findField_mem {fields : List (Field σ)} {key : String} {f : Field σ}
    (h : findField fields key = some f) : f ∈ fields := by
  unfold findField at h
  split at h
  · rename_i f' hfind
    cases h
    exact List.mem_of_find?_eq_some hfind
  · exact List.mem_of_find?_eq_some h

/-- A property every field keeps holds of the decoded struct. -/
theorem decodeMembers_keeps {fields : List (Field σ)} {P : σ → Prop}
    (hfields : ∀ f ∈ fields, ∀ s j s', P s → f.decode s j = .ok s' → P s') :
    ∀ {members : List (String × Json)} {s s' : σ}, P s →
      decodeMembers strict fields s members = .ok s' → P s' := by
  intro members
  induction members with
  | nil =>
    intro s s' hs h
    cases h
    exact hs
  | cons m rest ih =>
    intro s s' hs h
    obtain ⟨k, j⟩ := m
    rw [decodeMembers] at h
    split at h
    · rename_i f hfind
      obtain ⟨s₁, hs₁, h⟩ := bind_eq_ok h
      exact ih (hfields f (findField_mem hfind) s j s₁ hs hs₁) h
    · split at h
      · cases h
      · exact ih hs h

theorem decodeStruct_keeps {fields : List (Field σ)} {type : String} {P : σ → Prop}
    (hfields : ∀ f ∈ fields, ∀ s j s', P s → f.decode s j = .ok s' → P s') {s s' : σ} {j : Json}
    (hs : P s) (h : decodeStruct strict fields type s j = .ok s') : P s' := by
  unfold decodeStruct at h
  split at h
  · exact decodeMembers_keeps hfields hs h
  · cases h
    exact hs
  · cases h

/-- Every element of a decoded slice has the property its elements keep. -/
theorem decodeSlice_keeps {decode : α → Json → Except String α} {zero : α} {P : α → Prop}
    (hdecode : ∀ a j a', P a → decode a j = .ok a' → P a') (hzero : P zero) {old items : List α}
    {j : Json} (hold : ∀ a ∈ old, P a) (h : decodeSlice decode zero old j = .ok items) :
    ∀ a ∈ items, P a := by
  unfold decodeSlice at h
  split at h
  · rename_i js
    induction js generalizing old items with
    | nil =>
      cases h
      simp
    | cons j js ih =>
      obtain ⟨a, ha, h⟩ := bind_eq_ok h
      obtain ⟨rest, hrest, h⟩ := bind_eq_ok h
      cases h
      intro x hx
      rcases List.mem_cons.mp hx with rfl | hx
      · refine hdecode _ j _ ?_ ha
        cases old with
        | nil => exact hzero
        | cons b _ => exact hold b (List.mem_cons_self ..)
      · exact ih (fun b hb => hold b (List.mem_of_mem_tail hb)) hrest x hx
  · cases h
    simp
  · cases h

theorem decodeInt_inRange {old n : Int} {j : Json} (hold : goInt old = true)
    (h : decodeInt old j = .ok n) : goInt n = true := by
  unfold decodeInt at h
  split at h
  · split at h
    · rename_i hrange
      cases h
      exact (Bool.and_eq_true _ _ ▸ hrange).2
    · cases h
  · cases h
    exact hold
  · cases h

end Keeps

end Rochallor
