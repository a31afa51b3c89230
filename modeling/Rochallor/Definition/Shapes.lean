import Rochallor.Definition.Alike
import Rochallor.Definition.Validator

/-! # Schemas, as documents

    `validateSchemaShape` looks at a decoded schema.  Here is what it asks for
    of the document the schema is decoded from.
-/

namespace Rochallor

/-- The texts of the types a property may have. -/
def supportedTypes : List String := ["string", "number", "integer", "boolean"]

/-- A schema without a fault: some property, each of a known type, among them
    all that are required. -/
structure SchemaFits (j : Json) : Prop where
  properties : (j.member "properties").members ≠ []
  types : ∀ name p, GoMap.last (j.member "properties").members name = some p →
    ∃ t ∈ supportedTypes, p.member "type" = .str t
  required : ∀ r ∈ (j.member "required").items,
    r.text ∈ (j.member "properties").members.map (·.1)

theorem supported_ofText {t : String} : (SchemaType.ofText t).supported = true ↔ t ∈ supportedTypes := by
  unfold SchemaType.ofText supportedTypes
  split_ifs <;> simp_all [SchemaType.supported]

/-! ## Members that are read -/

section Reading

variable {α : Type} {members : GoMap Json} {name : String}

/-- An object and a field that reads it. -/
theorem Reads.member {j : Json} {decode : α → Json → Except String α} {old v : α}
    (h : Reads decode old (GoMap.last j.members name) v) (hnull : decode old .null = .ok old) :
    decode old (j.member name) = .ok v := by
  rw [Json.member]
  cases hlast : GoMap.last j.members name with
  | none => rw [h.absent hlast]; exact hnull
  | some i => exact h.present i hlast

theorem decodePointer_eq_none {decode : α → Json → Except String α} {zero : α} {j : Json}
    {o : Option α} (h : decodePointer decode zero none j = .ok o) : o = none ↔ j = .null := by
  cases j with
  | null =>
    cases h
    simp
  | _ =>
    obtain ⟨a, -, hsome⟩ := bind_eq_ok h
    obtain rfl := Except.ok.inj hsome
    simp

/-- The members of a map, as the entries that are read. -/
theorem decodeMap_spec {decode : Json → Except String α} {j : Json} {v : GoMap α}
    (h : decodeMap decode [] j = .ok v) :
    (v.map (·.1)).Nodup ∧
      (∀ k, k ∈ j.members.map (·.1) ↔ (v.get k).isSome = true) ∧
      ∀ k p, GoMap.last j.members k = some p → ∃ a, decode p = .ok a ∧ v.get k = some a := by
  cases j with
  | obj members =>
    refine ⟨decodeEntries_nodup (by simp) h, fun k => ?_, fun k p => (decodeEntries_get h k).2 p⟩
    constructor
    · intro hk
      obtain ⟨m, hm, rfl⟩ := List.mem_map.mp hk
      obtain ⟨p, hp⟩ := GoMap.last_of_mem hm
      obtain ⟨a, -, ha⟩ := (decodeEntries_get h m.1).2 p hp
      rw [ha]
      rfl
    · intro hk
      cases hlast : GoMap.last members k with
      | none =>
        rw [(decodeEntries_get h k).1 hlast] at hk
        cases hk
      | some p => exact List.mem_map_of_mem (f := (·.1)) (List.mem_reverse.mp (GoMap.mem_of_get hlast))
  | null =>
    cases h
    refine ⟨List.nodup_nil, fun k => by simp [Json.members, GoMap.get], fun k p hp => ?_⟩
    cases hp
  | _ => cases h

/-- The items of an array of texts. -/
theorem decodeTexts_spec {j : Json} {ts : List String}
    (h : decodeSlice decodeString "" [] j = .ok ts) : ts = j.items.map Json.text := by
  cases j with
  | arr js =>
    have htexts : List.Forall₂ (fun t i => t = Json.text i) ts js :=
      (forall₂_of_decodeItems h).flip.imp fun t i hi => (text_of_decodeString hi).symm
    exact List.forall₂_eq_eq_eq ▸ List.forall₂_map_right_iff.mpr htexts
  | null => exact (Except.ok.inj h).symm
  | _ => cases h

end Reading

/-! ## Schemas -/

theorem propertyRead {j : Json} {t : SchemaType}
    (hspelled : Spelled (propertyTypes.map (·.1)) j.members)
    (h : decodeProperty true j = .ok t) :
    t.supported = true ↔ ∃ text ∈ supportedTypes, j.member "type" = .str text := by
  cases j with
  | obj members =>
    rw [← propertyFields_types.names] at hspelled
    have hlens : Lens propertyFields "type" (decodeText SchemaType.ofText SchemaType.text) id
        (fun _ v => v) :=
      ⟨by simp [propertyFields], fun _ _ => rfl, by simp [propertyFields]⟩
    have hreads := hlens.reads (.inl rfl) hspelled h
    have htype := Reads.member (j := .obj members) hreads rfl
    cases hmember : Json.member (.obj members) "type" with
    | str text =>
      rw [hmember] at htype
      obtain rfl : SchemaType.ofText text = t := Except.ok.inj htype
      rw [supported_ofText]
      simp
    | null =>
      rw [hmember] at htype
      obtain rfl : SchemaType.ofText "" = t := Except.ok.inj htype
      rw [supported_ofText]
      simp [supportedTypes]
    | _ =>
      rw [hmember] at htype
      cases htype
  | null =>
    obtain rfl : SchemaType.unsupported "" = t := Except.ok.inj h
    simp [SchemaType.supported, Json.member, Json.members, GoMap.last, GoMap.get]
  | _ => cases h

theorem schemaRead {j : Json} {s : Schema} (hspelled : SchemaSpelled j) (hne : j ≠ .null)
    (h : decodeSchema true none j = .ok (some s)) :
    decodeMap (decodeProperty true) [] (j.member "properties") = .ok s.properties ∧
      decodeSlice decodeString "" [] (j.member "required") = .ok s.required := by
  cases j with
  | obj members =>
    obtain ⟨s', hs', hsome⟩ := bind_eq_ok h
    obtain rfl : s' = s := Option.some.inj (Except.ok.inj hsome)
    have hnames := hspelled.schema
    rw [← schemaFields_types.names] at hnames
    have hproperties : Lens (schemaFields true) "properties" (decodeMap (decodeProperty true))
        (·.properties) (fun s v => { s with properties := v }) :=
      ⟨by simp [schemaFields], fun _ _ => rfl, by simp [schemaFields, Field.of_frames]⟩
    have hrequired : Lens (schemaFields true) "required" (decodeSlice decodeString "")
        (·.required) (fun s v => { s with required := v }) :=
      ⟨by simp [schemaFields], fun _ _ => rfl, by simp [schemaFields, Field.of_frames]⟩
    exact ⟨Reads.member (j := .obj members) (hproperties.reads (.inl rfl) hnames hs') rfl,
      Reads.member (j := .obj members) (hrequired.reads (.inl rfl) hnames hs') rfl⟩
  | null => exact absurd rfl hne
  | _ => cases h

/-- The shape of a schema is that of its document. -/
theorem validateSchemaShape_iff {j : Json} {s : Schema} (label : String)
    (hspelled : SchemaSpelled j) (hne : j ≠ .null)
    (h : decodeSchema true none j = .ok (some s)) :
    validateSchemaShape label s = [] ↔ SchemaFits j := by
  obtain ⟨hproperties, hrequired⟩ := schemaRead hspelled hne h
  obtain ⟨hnodup, hkeys, hget⟩ := decodeMap_spec hproperties
  have hnames := decodeTexts_spec hrequired
  -- a property of the document is an entry of the schema, with its type
  have hentry : ∀ name p, GoMap.last (j.member "properties").members name = some p →
      ∃ t, (name, t) ∈ s.properties ∧
        (t.supported = true ↔ ∃ text ∈ supportedTypes, p.member "type" = .str text) := by
    intro name p hp
    obtain ⟨t, ht, hname⟩ := hget name p hp
    have hmem := List.mem_reverse.mp (GoMap.mem_of_get hp)
    exact ⟨t, GoMap.mem_of_get hname, propertyRead (hspelled.properties _ hmem) ht⟩
  simp only [validateSchemaShape, List.append_eq_nil_iff, List.filterMap_eq_nil_iff]
  constructor
  · rintro ⟨⟨hsome, htypes⟩, hlisted⟩
    constructor
    · intro hnil
      have hempty : s.properties = [] := by
        refine List.eq_nil_iff_forall_not_mem.mpr fun e he => ?_
        have hk := (hkeys e.1).mpr (by rw [GoMap.get_of_mem hnodup he]; rfl)
        rw [hnil] at hk
        cases hk
      rw [hempty] at hsome
      cases hsome
    · intro name p hp
      obtain ⟨t, ht, hsupported⟩ := hentry name p hp
      have hnone := htypes (name, t) ht
      exact hsupported.mp (by simpa using hnone)
    · intro r hr
      have hreq : r.text ∈ s.required := hnames ▸ List.mem_map_of_mem hr
      have hnone := hlisted r.text hreq
      exact (hkeys r.text).mpr (by simpa [Option.isSome_iff_ne_none] using hnone)
  · intro hfits
    refine ⟨⟨?_, ?_⟩, ?_⟩
    · obtain ⟨m, hm⟩ := List.exists_mem_of_ne_nil _ hfits.properties
      obtain ⟨p, hp⟩ := GoMap.last_of_mem hm
      obtain ⟨t, ht, -⟩ := hentry m.1 p hp
      have hfull : s.properties ≠ [] := List.ne_nil_of_mem ht
      simp [hfull]
    · intro e he
      have hk := (hkeys e.1).mpr (by rw [GoMap.get_of_mem hnodup he]; rfl)
      obtain ⟨m, hm, hname⟩ := List.mem_map.mp hk
      obtain ⟨p, hp⟩ := GoMap.last_of_mem hm
      rw [hname] at hp
      obtain ⟨t, ht, hsupported⟩ := hentry e.1 p hp
      have heq : t = e.2 := by
        have hleft : s.properties.get e.1 = some t := GoMap.get_of_mem hnodup ht
        have hright : s.properties.get e.1 = some e.2 := GoMap.get_of_mem hnodup he
        exact Option.some.inj (hleft.symm.trans hright)
      have htype := hsupported.mpr (hfits.types e.1 p hp)
      rw [heq] at htype
      simp [htype]
    · intro req hreq
      rw [hnames] at hreq
      obtain ⟨r, hr, rfl⟩ := List.mem_map.mp hreq
      have hlisted := (hkeys r.text).mp (hfits.required r hr)
      simp [hlisted]

end Rochallor
