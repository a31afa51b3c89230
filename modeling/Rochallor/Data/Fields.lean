import Rochallor.Data.Decode
import Rochallor.Data.MapOrder

/-! # What a strict decoder reads

    Which documents the decoders accept, and what the fields of a struct hold
    afterwards, for objects that name each field once and spell it as it is
    declared.
-/

namespace Rochallor

/-! ## Types of documents -/

/-- The decoder accepts the documents of type `T`, whatever was there before. -/
def Decodes {α : Type} (decode : α → Json → Except String α) (T : Json → Prop) : Prop :=
  ∀ old j, (∃ v, decode old j = .ok v) ↔ T j

def IsText (j : Json) : Prop :=
  j = .null ∨ ∃ s, j = .str s

def IsBool (j : Json) : Prop :=
  j = .null ∨ ∃ b, j = .bool b

/-- An integer literal in the range of a Go `int`. -/
def IsInt (j : Json) : Prop :=
  j = .null ∨ ∃ q, j = .num q true ∧ goInt q.num = true

def IsItems (T : Json → Prop) (j : Json) : Prop :=
  j = .null ∨ ∃ items, j = .arr items ∧ ∀ item ∈ items, T item

def IsMap (T : Json → Prop) (j : Json) : Prop :=
  j = .null ∨ ∃ members, j = .obj members ∧ ∀ m ∈ members, T m.2

section Values

variable {α : Type}

theorem decodeString_decodes : Decodes decodeString IsText := by
  intro old j
  cases j <;> simp [decodeString, mismatch, IsText]

theorem decodeText_decodes {ofText : String → α} {text : α → String} {decodeText : α → Json → Except String α}
    (hdecode : ∀ old j, decodeText old j = (do return ofText (← decodeString (text old) j))) :
    Decodes decodeText IsText := by
  intro old j
  rw [hdecode]
  cases j <;> simp [decodeString, mismatch, IsText, bind, Except.bind, pure, Except.pure]

theorem decodeBool_decodes : Decodes decodeBool IsBool := by
  intro old j
  cases j <;> simp [decodeBool, mismatch, IsBool]

theorem decodeInt_decodes : Decodes decodeInt IsInt := by
  intro old j
  cases j with
  | num q plain =>
    rw [decodeInt]
    by_cases h : (plain && goInt q.num) = true
    · simp only [h, if_true]
      rw [Bool.and_eq_true] at h
      simp [IsInt, h.1, h.2]
    · simp only [h, Bool.false_eq_true, if_false]
      simp only [Bool.and_eq_true, not_and] at h
      simpa [mismatch, IsInt] using h
  | _ => simp [decodeInt, mismatch, IsInt]

theorem decodeItems_ok_iff {decode : α → Json → Except String α} {T : Json → Prop}
    (h : Decodes decode T) (zero : α) (items : List Json) (old : List α) :
    (∃ v, decodeItems decode zero old items = .ok v) ↔ ∀ item ∈ items, T item := by
  induction items generalizing old with
  | nil => simp [decodeItems]
  | cons j rest ih =>
    rw [decodeItems, List.forall_mem_cons, ← h (old.headD zero) j, ← ih old.tail]
    constructor
    · rintro ⟨v, hv⟩
      obtain ⟨a, ha, hv⟩ := bind_eq_ok hv
      obtain ⟨as, has, -⟩ := bind_eq_ok hv
      exact ⟨⟨a, ha⟩, as, has⟩
    · rintro ⟨⟨a, ha⟩, as, has⟩
      exact ⟨a :: as, by rw [ha, has]; rfl⟩

theorem decodeSlice_decodes {decode : α → Json → Except String α} {T : Json → Prop}
    (h : Decodes decode T) (zero : α) : Decodes (decodeSlice decode zero) (IsItems T) := by
  intro old j
  cases j with
  | arr items => simp [decodeSlice, decodeItems_ok_iff h, IsItems]
  | _ => simp [decodeSlice, mismatch, IsItems]

theorem decodeEntries_ok_iff {decode : Json → Except String α} {T : Json → Prop}
    (h : ∀ j, (∃ v, decode j = .ok v) ↔ T j) (members : List (String × Json)) (old : GoMap α) :
    (∃ v, decodeEntries decode old members = .ok v) ↔ ∀ m ∈ members, T m.2 := by
  induction members generalizing old with
  | nil => simp [decodeEntries]
  | cons m rest ih =>
    obtain ⟨k, j⟩ := m
    rw [decodeEntries, List.forall_mem_cons, ← h j]
    constructor
    · rintro ⟨v, hv⟩
      obtain ⟨a, ha, hv⟩ := bind_eq_ok hv
      exact ⟨⟨a, ha⟩, (ih _).mp ⟨v, hv⟩⟩
    · rintro ⟨⟨a, ha⟩, hrest⟩
      obtain ⟨v, hv⟩ := (ih (GoMap.set old k a)).mpr hrest
      exact ⟨v, by rw [ha]; exact hv⟩

theorem decodeMap_decodes {decode : Json → Except String α} {T : Json → Prop}
    (h : ∀ j, (∃ v, decode j = .ok v) ↔ T j) : Decodes (decodeMap decode) (IsMap T) := by
  intro old j
  cases j with
  | obj members => simp [decodeMap, decodeEntries_ok_iff h, IsMap]
  | _ => simp [decodeMap, mismatch, IsMap]

theorem decodePointer_decodes {decode : α → Json → Except String α} {T : Json → Prop}
    (h : Decodes decode T) (hnull : T .null) (zero : α) : Decodes (decodePointer decode zero) T := by
  intro old j
  have hj : (∃ v, (do return some (← decode (old.getD zero) j) : Except String (Option α)) = .ok v) ↔
      T j := by
    rw [← h (old.getD zero) j]
    constructor
    · rintro ⟨v, hv⟩
      obtain ⟨a, ha, -⟩ := bind_eq_ok hv
      exact ⟨a, ha⟩
    · rintro ⟨a, ha⟩
      exact ⟨some a, by rw [ha]; rfl⟩
  cases j with
  | null => simpa [decodePointer] using hnull
  | _ => exact hj

/-- What a decoded map holds under a key: the last member of that name. -/
theorem decodeEntries_get {decode : Json → Except String α} {members : List (String × Json)}
    {old v : GoMap α} (h : decodeEntries decode old members = .ok v) (k : String) :
    (GoMap.last members k = none → v.get k = old.get k) ∧
      ∀ j, GoMap.last members k = some j → ∃ a, decode j = .ok a ∧ v.get k = some a := by
  induction members generalizing old with
  | nil =>
    cases h
    refine ⟨fun _ => rfl, ?_⟩
    intro j hj
    cases hj
  | cons m rest ih =>
    obtain ⟨key, j⟩ := m
    obtain ⟨a, ha, h⟩ := bind_eq_ok h
    obtain ⟨hnone, hsome⟩ := ih h
    rw [GoMap.last_cons]
    cases hlast : GoMap.last rest k with
    | some j' => exact ⟨fun hk => absurd hk (by simp), fun i hi => hsome i (hlast.trans hi)⟩
    | none =>
      have hkept := hnone hlast
      rw [GoMap.get_set] at hkept
      by_cases hk : key = k
      · rw [if_pos hk] at hkept
        refine ⟨fun hmiss => absurd hmiss (by simp [hk]), fun i hi => ⟨a, ?_, hkept⟩⟩
        have hij : j = i := by simpa [hk] using hi
        exact hij ▸ ha
      · rw [if_neg hk] at hkept
        exact ⟨fun _ => hkept, fun i hi => absurd hi (by simp [hk])⟩

theorem decodeEntries_nodup {decode : Json → Except String α} {members : List (String × Json)}
    {old v : GoMap α} (hold : (old.map (·.1)).Nodup)
    (h : decodeEntries decode old members = .ok v) : (v.map (·.1)).Nodup := by
  induction members generalizing old with
  | nil =>
    cases h
    exact hold
  | cons m rest ih =>
    obtain ⟨key, j⟩ := m
    obtain ⟨a, -, h⟩ := bind_eq_ok h
    exact ih (set_nodup hold key a) h

/-- A map decoded from members has entries. -/
theorem decodeEntries_ne_nil {decode : Json → Except String α} {members : List (String × Json)}
    {old v : GoMap α} (hne : members ≠ []) (h : decodeEntries decode old members = .ok v) :
    v ≠ [] := by
  obtain ⟨m, hm⟩ := List.exists_mem_of_ne_nil _ hne
  obtain ⟨j, hj⟩ := GoMap.last_of_mem hm
  obtain ⟨a, -, ha⟩ := (decodeEntries_get h m.1).2 j hj
  exact List.ne_nil_of_mem (GoMap.mem_of_get ha)

end Values

/-! ## Structs -/

/-- Each name is there once, and is spelled as the field it folds to. -/
structure Spelled (names : List String) (members : GoMap Json) : Prop where
  nodup : (members.map (·.1)).Nodup
  exact_name : ∀ m ∈ members, ∀ name ∈ names, foldName m.1 = foldName name → m.1 = name

instance (names : List String) (members : GoMap Json) : Decidable (Spelled names members) :=
  decidable_of_iff ((members.map (·.1)).Nodup ∧
    ∀ m ∈ members, ∀ name ∈ names, foldName m.1 = foldName name → m.1 = name)
    ⟨fun h => ⟨h.1, h.2⟩, fun h => ⟨h.1, h.2⟩⟩

theorem Spelled.tail {names : List String} {m : String × Json} {members : GoMap Json}
    (h : Spelled names (m :: members)) : Spelled names members where
  nodup := (List.nodup_cons.mp h.nodup).2
  exact_name := fun m' hm' => h.exact_name m' (List.mem_cons_of_mem m hm')

/-- A field that accepts the documents of a type. -/
def Field.Typed {σ : Type} (f : Field σ) (T : Json → Prop) : Prop :=
  ∀ s j, (∃ s', f.decode s j = .ok s') ↔ T j

@[simp] theorem Field.of_name {σ α : Type} (name : String) (decode : α → Json → Except String α)
    (get : σ → α) (set : σ → α → σ) : (Field.of name decode get set).name = name := rfl

theorem Field.of_decode_eq_ok {σ α : Type} {name : String}
    {decode : α → Json → Except String α} {get : σ → α} {set : σ → α → σ} {s s' : σ} {j : Json} :
    (Field.of name decode get set).decode s j = .ok s' ↔
      ∃ v, decode (get s) j = .ok v ∧ set s v = s' := by
  constructor
  · intro h
    obtain ⟨v, hv, hset⟩ := bind_eq_ok h
    cases hset
    exact ⟨v, hv, rfl⟩
  · rintro ⟨v, hv, rfl⟩
    simp only [Field.of, hv]
    rfl

theorem Field.of_typed {σ α : Type} {name : String} {decode : α → Json → Except String α}
    {get : σ → α} {set : σ → α → σ} {T : Json → Prop} (h : Decodes decode T) :
    (Field.of name decode get set).Typed T := by
  intro s j
  rw [← h (get s) j]
  simp [Field.of_decode_eq_ok]

/-- The types of the fields, under their names. -/
def FieldTypes {σ : Type} (fields : List (Field σ)) (types : List (String × (Json → Prop))) : Prop :=
  List.Forall₂ (fun f t => f.name = t.1 ∧ f.Typed t.2) fields types

/-- The type of a member: by its exact name, else by its folded name. -/
def findType (types : List (String × (Json → Prop))) (key : String) : Option (Json → Prop) :=
  ((types.find? fun t => t.1 == key).or
    (types.find? fun t => foldName t.1 == foldName key)).map (·.2)

/-- An object whose members are all fields and have their types. -/
def IsStruct (types : List (String × (Json → Prop))) (j : Json) : Prop :=
  j = .null ∨ ∃ members, j = .obj members ∧
    ∀ m ∈ members, ∃ T, findType types m.1 = some T ∧ T m.2

section Structs

variable {σ α : Type} {fields : List (Field σ)} {types : List (String × (Json → Prop))}
  {members : GoMap Json} {s s' : σ}

/-- A field is found where its type is. -/
private theorem find_types (h : FieldTypes fields types) (p : String → Bool) :
    Option.Rel (fun f t => f.Typed t.2) (fields.find? fun f => p f.name)
      (types.find? fun t => p t.1) := by
  induction h with
  | nil => exact .none
  | @cons f t fields types hft _ ih =>
    rw [List.find?_cons, List.find?_cons, hft.1]
    cases p t.1 with
    | true => exact .some hft.2
    | false => exact ih

private theorem findField_types (h : FieldTypes fields types) (key : String) :
    Option.Rel (fun f T => f.Typed T) (findField fields key) (findType types key) := by
  have hexact := find_types h fun name => name == key
  have hfold := find_types h fun name => foldName name == foldName key
  unfold findField findType
  generalize (fields.find? fun f => f.name == key) = x at *
  generalize (types.find? fun t => t.1 == key) = y at *
  cases hexact with
  | some htyped => exact .some htyped
  | none =>
    rw [Option.none_or]
    generalize (fields.find? fun f => foldName f.name == foldName key) = x at *
    generalize (types.find? fun t => foldName t.1 == foldName key) = y at *
    cases hfold with
    | some htyped => exact .some htyped
    | none => exact .none

/-- A struct is decoded without an error when every member is a field and has
    its type. -/
theorem decodeMembers_ok_iff (h : FieldTypes fields types) (members : List (String × Json)) (s : σ) :
    (∃ s', decodeMembers true fields s members = .ok s') ↔
      ∀ m ∈ members, ∃ T, findType types m.1 = some T ∧ T m.2 := by
  induction members generalizing s with
  | nil => simp [decodeMembers]
  | cons m rest ih =>
    obtain ⟨k, j⟩ := m
    have hfield := findField_types h k
    rw [List.forall_mem_cons, ← ih s, decodeMembers]
    generalize findField fields k = x at *
    generalize findType types k = y at *
    cases hfield with
    | none => simp
    | @some f T htyped =>
      simp only [Option.some.injEq, exists_eq_left']
      rw [← htyped s j]
      constructor
      · rintro ⟨s', hs'⟩
        obtain ⟨s₁, hs₁, hs'⟩ := bind_eq_ok hs'
        exact ⟨⟨s₁, hs₁⟩, (ih s).mpr ((ih s₁).mp ⟨s', hs'⟩)⟩
      · rintro ⟨⟨s₁, hs₁⟩, hrest⟩
        obtain ⟨s', hs'⟩ := (ih s₁).mpr ((ih s).mp hrest)
        exact ⟨s', by rw [hs₁]; exact hs'⟩

theorem decodeStruct_decodes (h : FieldTypes fields types) (type : String) :
    Decodes (decodeStruct true fields type) (IsStruct types) := by
  intro s j
  cases j with
  | obj members => simp [decodeStruct, decodeMembers_ok_iff h, IsStruct]
  | _ => simp [decodeStruct, mismatch, IsStruct]

/-- A name spelled as a field is that field's. -/
theorem findField_spelled (h : Spelled (fields.map (·.name)) members) {m : String × Json}
    (hm : m ∈ members) : findField fields m.1 = fields.find? fun f => f.name == m.1 := by
  unfold findField
  cases hfind : fields.find? fun f => f.name == m.1 with
  | some f => rfl
  | none =>
    rw [List.find?_eq_none] at hfind ⊢
    intro f hf hfold
    have := h.exact_name m hm f.name (List.mem_map_of_mem hf) (beq_iff_eq.mp hfold).symm
    exact hfind f hf (beq_iff_eq.mpr this.symm)

/-- The field leaves what `get` reads as it is. -/
def Field.Frames (f : Field σ) (get : σ → α) : Prop :=
  ∀ s j s', f.decode s j = .ok s' → get s' = get s

theorem Field.of_frames {β : Type} {name : String} {decode : β → Json → Except String β}
    {get' : σ → β} {set : σ → β → σ} {get : σ → α} (h : ∀ s v, get (set s v) = get s) :
    (Field.of name decode get' set).Frames get := by
  intro s j s' hs'
  obtain ⟨v, -, rfl⟩ := Field.of_decode_eq_ok.mp hs'
  exact h s v

/-- One field of the struct: no other field touches it. -/
structure Lens (fields : List (Field σ)) (name : String) (decode : α → Json → Except String α)
    (get : σ → α) (set : σ → α → σ) : Prop where
  field : ∀ f ∈ fields, f.name = name → f = .of name decode get set
  get_set : ∀ s v, get (set s v) = v
  frame : ∀ f ∈ fields, f.name ≠ name → f.Frames get

/-- The field holds what its member decodes to, or what it held before. -/
theorem Lens.reads {strict : Bool} {name : String} {decode : α → Json → Except String α}
    {get : σ → α} {set : σ → α → σ} (hlens : Lens fields name decode get set)
    (hknown : strict = true ∨ name ∈ fields.map (·.name))
    (h : Spelled (fields.map (·.name)) members)
    (hok : decodeMembers strict fields s members = .ok s') :
    Reads decode (get s) (GoMap.last members name) (get s') := by
  induction members generalizing s with
  | nil =>
    cases hok
    refine ⟨?_, fun _ => rfl⟩
    intro j hj
    cases hj
  | cons m rest ih =>
    have hfind := findField_spelled h (List.mem_cons_self ..)
    obtain ⟨k, j⟩ := m
    simp only at hfind
    rw [decodeMembers] at hok
    rw [GoMap.last_cons]
    split at hok
    · rename_i f hf
      obtain ⟨s₁, hs₁, hok⟩ := bind_eq_ok hok
      have hrest := ih h.tail hok
      rw [hfind] at hf
      have hmem := List.mem_of_find?_eq_some hf
      have hkey : f.name = k := by simpa using List.find?_some hf
      by_cases hname : k = name
      · subst hname
        -- the name does not occur again
        have hnone : GoMap.last rest k = none := by
          have hnot := (List.nodup_cons.mp h.nodup).1
          cases hlast : GoMap.last rest k with
          | none => rfl
          | some j' => exact absurd (List.mem_map_of_mem (GoMap.mem_of_get hlast |> List.mem_reverse.mp)) hnot
        rw [hnone]
        obtain rfl := hlens.field f hmem hkey
        obtain ⟨v, hv, hset⟩ := bind_eq_ok hs₁
        cases hset
        have hkept := hrest.absent hnone
        rw [hlens.get_set] at hkept
        refine ⟨?_, by simp⟩
        intro j' hj'
        simp only [if_true, Option.none_or, Option.some.injEq] at hj'
        rw [← hj', hv, hkept]
      · have hframe := hlens.frame f hmem (hkey ▸ hname) s j s₁ hs₁
        rw [hframe] at hrest
        simpa [hname] using hrest
    · rename_i hnone
      -- a member without a field is an error, or is left out
      split at hok
      · cases hok
      · rename_i hlax
        have hname : k ≠ name := by
          rintro rfl
          obtain ⟨f, hf, hkey⟩ := List.mem_map.mp (hknown.resolve_left hlax)
          rw [hfind, List.find?_eq_none] at hnone
          exact hnone f hf (beq_iff_eq.mpr hkey)
        simpa [hname] using ih h.tail hok

end Structs

end Rochallor
