import Rochallor.Definition.Reading
import Rochallor.Modeller.Schema

/-! # One document, two readers

    The modeller's schema and the engine's strict parser read a document into
    types of their own.  Where every object has each name once, and spells it as
    the engine's field of that name, the two read the same: what one holds of a
    step can be said of what the other holds.
-/

namespace Rochallor

open Modeller (zString zNonempty zLiteral zItems zArray zEntries zRecord zBoundaryEvent zVariant
  zStep zWorkflowDefinition required)

/-! ## Documents -/

def Json.members : Json → GoMap Json
  | .obj members => members
  | _ => []

def Json.items : Json → List Json
  | .arr items => items
  | _ => []

/-- A member of an object, `null` if there is none. -/
def Json.member (j : Json) (name : String) : Json :=
  (GoMap.last j.members name).getD .null

/-- A document as a text: `null` leaves the zero value. -/
def Json.text : Json → String
  | .str s => s
  | _ => ""

structure SchemaSpelled (j : Json) : Prop where
  schema : Spelled (schemaTypes.map (·.1)) j.members
  properties : ∀ p ∈ (j.member "properties").members, Spelled (propertyTypes.map (·.1)) p.2.members

/-- The objects of a step that the engine reads field by field spell the
    names. -/
structure StepSpelled (j : Json) : Prop where
  step : Spelled (stepTypes.map (·.1)) j.members
  events : ∀ e ∈ (j.member "boundaryEvents").items,
    Spelled (boundaryEventTypes.map (·.1)) e.members
  table : Spelled (decisionTableTypes.map (·.1)) (j.member "decisionTable").members
  outputsSchema : SchemaSpelled (j.member "outputs_schema")

structure DocumentSpelled (doc : Json) : Prop where
  definition : Spelled (definitionTypes.map (·.1)) doc.members
  steps : ∀ j ∈ (doc.member "steps").items, StepSpelled j
  inputSchema : SchemaSpelled (doc.member "input_schema")

instance (j : Json) : Decidable (SchemaSpelled j) :=
  decidable_of_iff (Spelled (schemaTypes.map (·.1)) j.members ∧
    ∀ p ∈ (j.member "properties").members, Spelled (propertyTypes.map (·.1)) p.2.members)
    ⟨fun h => ⟨h.1, h.2⟩, fun h => ⟨h.1, h.2⟩⟩

instance (j : Json) : Decidable (StepSpelled j) :=
  decidable_of_iff (Spelled (stepTypes.map (·.1)) j.members ∧
    (∀ e ∈ (j.member "boundaryEvents").items,
      Spelled (boundaryEventTypes.map (·.1)) e.members) ∧
    Spelled (decisionTableTypes.map (·.1)) (j.member "decisionTable").members ∧
    SchemaSpelled (j.member "outputs_schema"))
    ⟨fun h => ⟨h.1, h.2.1, h.2.2.1, h.2.2.2⟩, fun h => ⟨h.1, h.2, h.3, h.4⟩⟩

instance (doc : Json) : Decidable (DocumentSpelled doc) :=
  decidable_of_iff (Spelled (definitionTypes.map (·.1)) doc.members ∧
    (∀ j ∈ (doc.member "steps").items, StepSpelled j) ∧
    SchemaSpelled (doc.member "input_schema"))
    ⟨fun h => ⟨h.1, h.2.1, h.2.2⟩, fun h => ⟨h.1, h.2, h.3⟩⟩

/-! ## Members -/

section Members

variable {members : GoMap Json} {name : String}

theorem member_of_last {j v : Json} (h : GoMap.last j.members name = some v) : j.member name = v := by
  rw [Json.member, h]
  rfl

theorem zString_eq_some {j : Json} {s : String} : zString j = some s ↔ j = .str s := by
  cases j <;> simp [zString]

theorem zNonempty_eq_some {j : Json} {s : String} : zNonempty j = some s ↔ j = .str s ∧ s ≠ "" := by
  unfold zNonempty
  rw [Option.filter_eq_some_iff, zString_eq_some]
  simp

theorem required_eq_some {α : Type} {read : Json → Option α} {a : α} :
    required members name read = some a ↔
      ∃ j, GoMap.last members name = some j ∧ read j = some a :=
  Option.bind_eq_some_iff

theorem optional_eq_some {α : Type} {read : Json → Option α} {o : Option α}
    (h : Modeller.optional members name read = some o) :
    GoMap.last members name = none ∧ o = none ∨
      ∃ j a, GoMap.last members name = some j ∧ read j = some a ∧ o = some a := by
  unfold Modeller.optional Modeller.prop at h
  cases hlast : GoMap.last members name with
  | none =>
    rw [hlast] at h
    exact .inl ⟨rfl, (Option.some.inj h).symm⟩
  | some j =>
    rw [hlast] at h
    obtain ⟨a, ha, rfl⟩ := Option.map_eq_some_iff.mp h
    exact .inr ⟨j, a, rfl, ha, rfl⟩

theorem text_of_decodeString {j : Json} {s : String} (h : decodeString "" j = .ok s) :
    j.text = s := by
  cases j with
  | str t => exact Except.ok.inj h
  | null => exact Except.ok.inj h
  | _ => cases h

/-- A text that both read. -/
theorem Reads.text {old s v : String} (h : Reads decodeString old (some (.str s)) v) : v = s :=
  (Except.ok.inj (h.present _ rfl)).symm

theorem required_text {s v : String} (hz : required members name zString = some s)
    (h : Reads decodeString "" (GoMap.last members name) v) : v = s := by
  obtain ⟨j, hj, hs⟩ := required_eq_some.mp hz
  obtain rfl := zString_eq_some.mp hs
  rw [hj] at h
  exact h.text

theorem optional_text {o : Option String} {v : String} (hz : Modeller.optional members name zString = some o)
    (h : Reads decodeString "" (GoMap.last members name) v) : v = o.getD "" := by
  rcases optional_eq_some hz with ⟨hnone, rfl⟩ | ⟨j, s, hj, hs, rfl⟩
  · exact h.absent hnone
  · obtain rfl := zString_eq_some.mp hs
    rw [hj] at h
    exact h.text

end Members

/-! ## Lists -/

section Lists

variable {α β : Type}

/-- Two lists made from one, element by element. -/
theorem forall₂_join {js : List Json} {as : List α} {bs : List β} {R : Json → α → Prop}
    {S : Json → β → Prop} (hR : List.Forall₂ R js as) (hS : List.Forall₂ S js bs) :
    List.Forall₂ (fun a b => ∃ j ∈ js, R j a ∧ S j b) as bs := by
  induction hR generalizing bs with
  | nil =>
    cases hS
    exact .nil
  | @cons j a js as ha _ ih =>
    cases hS with
    | @cons _ b _ bs hb hrest =>
      refine .cons ⟨j, List.mem_cons_self .., ha, hb⟩ ((ih hrest).imp ?_)
      intro x y ⟨i, hi, hx, hy⟩
      exact ⟨i, List.mem_cons_of_mem j hi, hx, hy⟩

theorem forall₂_of_zItems {read : Json → Option α} {js : List Json} {as : List α}
    (h : zItems read js = some as) : List.Forall₂ (fun j a => read j = some a) js as := by
  induction js generalizing as with
  | nil =>
    obtain rfl := Option.some.inj h
    exact .nil
  | cons j rest ih =>
    obtain ⟨a, ha, h⟩ := Option.bind_eq_some_iff.mp h
    obtain ⟨as', has, h⟩ := Option.bind_eq_some_iff.mp h
    obtain rfl := Option.some.inj h
    exact .cons ha (ih has)

/-- Nothing was there before, so every item is decoded from the zero value. -/
theorem forall₂_of_decodeItems {decode : α → Json → Except String α} {zero : α} {js : List Json}
    {as : List α} (h : decodeItems decode zero [] js = .ok as) :
    List.Forall₂ (fun j a => decode zero j = .ok a) js as := by
  induction js generalizing as with
  | nil =>
    cases h
    exact .nil
  | cons j rest ih =>
    obtain ⟨a, ha, h⟩ := bind_eq_ok h
    obtain ⟨as', has, h⟩ := bind_eq_ok h
    cases h
    exact .cons ha (ih has)

theorem zArray_eq_some {read : Json → Option α} {j : Json} {as : List α}
    (h : zArray read j = some as) :
    ∃ js, j = .arr js ∧ List.Forall₂ (fun j a => read j = some a) js as := by
  cases j with
  | arr js => exact ⟨js, rfl, forall₂_of_zItems h⟩
  | _ => cases h

/-- What both read from an array. -/
theorem Reads.slice {read : Json → Option α} {decode : β → Json → Except String β} {zero : β}
    {js : List Json} {as : List α} {bs : List β}
    (hz : List.Forall₂ (fun j a => read j = some a) js as)
    (h : Reads (decodeSlice decode zero) [] (some (.arr js)) bs) :
    List.Forall₂ (fun a b => ∃ j ∈ js, read j = some a ∧ decode zero j = .ok b) as bs :=
  forall₂_join hz (forall₂_of_decodeItems (h.present _ rfl))

/-- Texts that both read from an array are the same. -/
theorem required_texts {members : GoMap Json} {name : String} {ts vs : List String}
    (hz : required members name (zArray zString) = some ts)
    (h : Reads (decodeSlice decodeString "") [] (GoMap.last members name) vs) : vs = ts := by
  obtain ⟨j, hj, hts⟩ := required_eq_some.mp hz
  obtain ⟨js, rfl, hjs⟩ := zArray_eq_some hts
  rw [hj] at h
  have hboth := Reads.slice hjs h
  refine (List.forall₂_eq_eq_eq ▸ hboth.imp ?_ : ts = vs).symm
  intro t v ⟨j, _, ht, hv⟩
  obtain rfl := zString_eq_some.mp ht
  exact Except.ok.inj hv

end Lists

/-! ## Boundary events -/

/-- The two readings of an event. -/
structure EventAlike (me : Modeller.BoundaryEvent) (e : BoundaryEvent) : Prop where
  type : e.type = .timer
  duration : e.duration = me.duration
  targetStepId : e.targetStepId = me.targetStepId

theorem eventAlike {j : Json} {me : Modeller.BoundaryEvent} {e : BoundaryEvent}
    (hspelled : Spelled (boundaryEventTypes.map (·.1)) j.members) (hz : zBoundaryEvent j = some me)
    (hd : decodeStruct true boundaryEventFields "definition.BoundaryEvent" .zero j = .ok e) :
    EventAlike me e := by
  cases j with
  | obj members =>
    have hread := eventRead hspelled hd
    obtain ⟨type, htype, hz⟩ := Option.bind_eq_some_iff.mp hz
    obtain ⟨duration, hduration, hz⟩ := Option.bind_eq_some_iff.mp hz
    obtain ⟨interrupting, -, hz⟩ := Option.bind_eq_some_iff.mp hz
    obtain ⟨target, htarget, hz⟩ := Option.bind_eq_some_iff.mp hz
    obtain rfl := Option.some.inj hz
    constructor
    · obtain ⟨j, hj, hs⟩ := required_eq_some.mp htype
      obtain ⟨hs, htimer⟩ := Option.filter_eq_some_iff.mp hs
      obtain rfl := zString_eq_some.mp hs
      obtain rfl := beq_iff_eq.mp htimer
      exact (Except.ok.inj (hread.type.present _ hj)).symm
    · obtain ⟨j, hj, hs⟩ := required_eq_some.mp hduration
      obtain ⟨rfl, -⟩ := zNonempty_eq_some.mp hs
      exact (hj ▸ hread.duration).text
    · obtain ⟨j, hj, hs⟩ := required_eq_some.mp htarget
      obtain ⟨rfl, -⟩ := zNonempty_eq_some.mp hs
      exact (hj ▸ hread.targetStepId).text
  | _ => cases hz

/-- The events of a step that may have some. -/
theorem eventsAlike {j : Json} {events : Option (List Modeller.BoundaryEvent)}
    {es : List BoundaryEvent}
    (hspelled : ∀ e ∈ (j.member "boundaryEvents").items,
      Spelled (boundaryEventTypes.map (·.1)) e.members)
    (hz : Modeller.optional j.members "boundaryEvents" (zArray zBoundaryEvent) = some events)
    (h : Reads (decodeSlice (decodeStruct true boundaryEventFields "definition.BoundaryEvent") .zero)
      [] (GoMap.last j.members "boundaryEvents") es) :
    List.Forall₂ EventAlike (events.getD []) es := by
  rcases optional_eq_some hz with ⟨hnone, rfl⟩ | ⟨v, as, hv, has, rfl⟩
  · rw [h.absent hnone]
    exact .nil
  · obtain ⟨js, rfl, hjs⟩ := zArray_eq_some has
    rw [member_of_last hv] at hspelled
    rw [hv] at h
    refine (Reads.slice hjs h).imp ?_
    intro me e ⟨i, hi, hme, he⟩
    exact eventAlike (hspelled i hi) hme he

/-! ## Branches -/

/-- What reading the members adds to the branches. -/
theorem decodeBranches_spec {members : List (String × Json)} {c c' : ConditionalBranches}
    (h : decodeBranches c members = .ok c') :
    c'.exprs = c.exprs ++ members.map (·.1) ∧
      (∀ k, c'.targets.get k = ((GoMap.last members k).map Json.text).or (c.targets.get k)) ∧
      ((c.targets.map (·.1)).Nodup → (c'.targets.map (·.1)).Nodup) := by
  induction members generalizing c with
  | nil =>
    cases h
    exact ⟨(List.append_nil _).symm, fun k => rfl, fun hn => hn⟩
  | cons m rest ih =>
    obtain ⟨key, j⟩ := m
    rw [decodeBranches] at h
    cases hs : decodeString "" j with
    | error e =>
      rw [hs] at h
      cases h
    | ok s =>
      rw [hs] at h
      obtain ⟨hexprs, hget, hnodup⟩ := ih h
      refine ⟨by rw [hexprs]; simp, fun k => ?_, fun hn => hnodup (set_nodup hn key s)⟩
      rw [hget, GoMap.get_set, GoMap.last_cons, ← text_of_decodeString hs]
      cases GoMap.last rest k with
      | some v => rfl
      | none =>
        by_cases hk : key = k
        · simp [hk]
        · simp [hk]

/-- The targets of the branches are those of the modeller's branches. -/
theorem branchesAlike {members : GoMap Json} {branches : GoMap StepId} {c : ConditionalBranches}
    (hz : zRecord zString (.obj members) = some branches)
    (h : decodeBranches ⟨[], []⟩ members = .ok c) :
    (branches ≠ [] → c.exprs ≠ []) ∧ ∀ t, t ∈ c.targets.map (·.2) ↔ t ∈ branches.map (·.2) := by
  obtain ⟨hexprs, hget, hnodup⟩ := decodeBranches_spec h
  have htargets : (c.targets.map (·.1)).Nodup := hnodup List.nodup_nil
  have hentries : ∀ (es : GoMap Json) (bs : GoMap StepId), zEntries zString es = some bs →
      es = bs.map fun b => (b.1, Json.str b.2) := by
    intro es
    induction es with
    | nil =>
      intro bs hbs
      obtain rfl := Option.some.inj hbs
      rfl
    | cons e rest ih =>
      intro bs hbs
      obtain ⟨k, j⟩ := e
      obtain ⟨s, hs, hbs⟩ := Option.bind_eq_some_iff.mp hbs
      obtain ⟨bs', hbs', hbs⟩ := Option.bind_eq_some_iff.mp hbs
      obtain rfl := Option.some.inj hbs
      obtain rfl := zString_eq_some.mp hs
      rw [ih bs' hbs']
      rfl
  have hread := hentries _ _ hz
  have hmem : ∀ k t, (k, t) ∈ branches ↔ GoMap.last members k = some (.str t) := by
    intro k t
    rw [← Modeller.mem_entries (e := (k, Json.str t)), hread]
    simp
  constructor
  · intro hne hnil
    rw [hexprs] at hnil
    obtain ⟨⟨k, t⟩, rest, rfl⟩ := List.exists_cons_of_ne_nil hne
    have hlast := (hmem k t).mp (List.mem_cons_self ..)
    have hnone : members = [] := by simpa using hnil
    rw [hnone] at hlast
    cases hlast
  · intro t
    constructor
    · intro ht
      obtain ⟨e, he, rfl⟩ := List.mem_map.mp ht
      have hk := GoMap.get_of_mem htargets he
      rw [hget e.1] at hk
      obtain ⟨j, hj, htext⟩ : ∃ j, GoMap.last members e.1 = some j ∧ j.text = e.2 := by
        cases hlast : GoMap.last members e.1 with
        | none =>
          rw [hlast] at hk
          cases hk
        | some j =>
          rw [hlast] at hk
          exact ⟨j, rfl, Option.some.inj hk⟩
      have hentry : (e.1, j) ∈ Modeller.entries members := Modeller.mem_entries.mpr hj
      rw [hread] at hentry
      obtain ⟨b, hb, heq⟩ := List.mem_map.mp hentry
      obtain ⟨-, rfl⟩ := Prod.mk.inj heq
      exact List.mem_map.mpr ⟨b, hb, htext⟩
    · intro ht
      obtain ⟨⟨k, t'⟩, hb, rfl⟩ := List.mem_map.mp ht
      have hk := hget k
      rw [(hmem k t').mp hb] at hk
      exact List.mem_map.mpr ⟨(k, t'), GoMap.mem_of_get hk, rfl⟩

/-! ## Steps -/

/-- What the engine holds of a step, by what the modeller holds of it. -/
def VariantAlike (s : WorkflowStep) : Modeller.Variant → Prop
  | .serviceTask nextStep jobType _ _ events =>
    s.nextStep = nextStep.getD "" ∧ s.jobType = jobType.getD "" ∧
      List.Forall₂ EventAlike (events.getD []) s.boundaryEvents
  | .userTask nextStep _ events =>
    s.nextStep = nextStep.getD "" ∧ List.Forall₂ EventAlike (events.getD []) s.boundaryEvents
  | .decision branches =>
    ∃ c, s.conditionalNextSteps = some c ∧ (branches ≠ [] → c.exprs ≠ []) ∧
      ∀ t, t ∈ c.targets.map (·.2) ↔ t ∈ branches.map (·.2)
  | .decisionTable hitPolicy nextStep table =>
    s.nextStep = nextStep ∧ (s.hitPolicy = "" ∨ s.hitPolicy = hitPolicy) ∧
      ∃ t, s.decisionTable = some t ∧ (table.rules ≠ [] → t.rules ≠ [])
  | .transformation nextStep transformations =>
    s.nextStep = nextStep ∧ (transformations ≠ [] → s.transformations ≠ [])
  | .wait nextStep events =>
    s.nextStep = nextStep ∧ List.Forall₂ EventAlike (events.getD []) s.boundaryEvents
  | .parallelGateway targets join => s.parallelNextSteps = targets ∧ s.joinStep = join
  | .joinGateway nextStep => s.nextStep = nextStep
  | .endStep => True

structure StepAlike (ms : Modeller.Step) (s : WorkflowStep) : Prop where
  id : s.id = ms.id
  name : s.name = ms.name
  type : s.type = ms.variant.type
  variant : VariantAlike s ms.variant

/-- The type of what the modeller reads is the one it reads it by. -/
theorem zVariant_type {members : GoMap Json} {type : StepType} {v : Modeller.Variant}
    (h : zVariant members type = some v) : v.type = type := by
  cases type with
  | serviceTask =>
    obtain ⟨_, _, h⟩ := Option.bind_eq_some_iff.mp h
    obtain ⟨_, _, h⟩ := Option.bind_eq_some_iff.mp h
    obtain ⟨_, _, h⟩ := Option.bind_eq_some_iff.mp h
    obtain ⟨_, _, h⟩ := Option.bind_eq_some_iff.mp h
    obtain ⟨_, _, h⟩ := Option.bind_eq_some_iff.mp h
    obtain rfl := Option.some.inj h
    rfl
  | userTask | decisionTable =>
    obtain ⟨_, _, h⟩ := Option.bind_eq_some_iff.mp h
    obtain ⟨_, _, h⟩ := Option.bind_eq_some_iff.mp h
    obtain ⟨_, _, h⟩ := Option.bind_eq_some_iff.mp h
    obtain rfl := Option.some.inj h
    rfl
  | transformation | wait | parallelGateway =>
    obtain ⟨_, _, h⟩ := Option.bind_eq_some_iff.mp h
    obtain ⟨_, _, h⟩ := Option.bind_eq_some_iff.mp h
    obtain rfl := Option.some.inj h
    rfl
  | decision | joinGateway =>
    obtain ⟨_, _, h⟩ := Option.bind_eq_some_iff.mp h
    obtain rfl := Option.some.inj h
    rfl
  | endStep =>
    obtain rfl := Option.some.inj h
    rfl
  | unsupported => cases h

section Variants

variable {j : Json} {s : WorkflowStep} {v : Modeller.Variant}

theorem serviceTaskAlike (hspelled : StepSpelled j) (hread : StepRead j.members s)
    (hz : Modeller.zServiceTask j.members = some v) : VariantAlike s v := by
  obtain ⟨nextStep, hnext, hz⟩ := Option.bind_eq_some_iff.mp hz
  obtain ⟨jobType, hjob, hz⟩ := Option.bind_eq_some_iff.mp hz
  obtain ⟨_, _, hz⟩ := Option.bind_eq_some_iff.mp hz
  obtain ⟨_, _, hz⟩ := Option.bind_eq_some_iff.mp hz
  obtain ⟨events, hevents, hz⟩ := Option.bind_eq_some_iff.mp hz
  obtain rfl := Option.some.inj hz
  exact ⟨optional_text hnext hread.nextStep, optional_text hjob hread.jobType,
    eventsAlike hspelled.events hevents hread.boundaryEvents⟩

theorem userTaskAlike (hspelled : StepSpelled j) (hread : StepRead j.members s)
    (hz : Modeller.zUserTask j.members = some v) : VariantAlike s v := by
  obtain ⟨nextStep, hnext, hz⟩ := Option.bind_eq_some_iff.mp hz
  obtain ⟨_, _, hz⟩ := Option.bind_eq_some_iff.mp hz
  obtain ⟨events, hevents, hz⟩ := Option.bind_eq_some_iff.mp hz
  obtain rfl := Option.some.inj hz
  exact ⟨optional_text hnext hread.nextStep,
    eventsAlike hspelled.events hevents hread.boundaryEvents⟩

theorem waitAlike (hspelled : StepSpelled j) (hread : StepRead j.members s)
    (hz : Modeller.zWait j.members = some v) : VariantAlike s v := by
  obtain ⟨nextStep, hnext, hz⟩ := Option.bind_eq_some_iff.mp hz
  obtain ⟨events, hevents, hz⟩ := Option.bind_eq_some_iff.mp hz
  obtain rfl := Option.some.inj hz
  exact ⟨required_text hnext hread.nextStep,
    eventsAlike hspelled.events hevents hread.boundaryEvents⟩

theorem decisionAlike (hread : StepRead j.members s)
    (hz : Modeller.zDecision j.members = some v) : VariantAlike s v := by
  obtain ⟨branches, hbranches, hz⟩ := Option.bind_eq_some_iff.mp hz
  obtain rfl := Option.some.inj hz
  obtain ⟨o, ho, hbranches⟩ := required_eq_some.mp hbranches
  have hpresent := hread.conditionalNextSteps.present o ho
  cases o with
  | obj members =>
    obtain ⟨c, hc, hsome⟩ := bind_eq_ok hpresent
    obtain ⟨hne, htargets⟩ := branchesAlike hbranches hc
    exact ⟨c, (Except.ok.inj hsome).symm, hne, htargets⟩
  | _ => cases hbranches

theorem transformationAlike (hread : StepRead j.members s)
    (hz : Modeller.zTransformation j.members = some v) : VariantAlike s v := by
  obtain ⟨nextStep, hnext, hz⟩ := Option.bind_eq_some_iff.mp hz
  obtain ⟨transformations, htransformations, hz⟩ := Option.bind_eq_some_iff.mp hz
  obtain rfl := Option.some.inj hz
  refine ⟨required_text hnext hread.nextStep, fun hne hnil => hne ?_⟩
  obtain ⟨o, ho, hrecord⟩ := required_eq_some.mp htransformations
  have hpresent := hread.transformations.present o ho
  rw [hnil] at hpresent
  cases o with
  | obj members =>
    have hempty : members = [] := by
      by_contra hmembers
      exact decodeEntries_ne_nil hmembers hpresent rfl
    rw [hempty] at hrecord
    exact (Option.some.inj hrecord).symm
  | _ => cases hrecord

theorem parallelGatewayAlike (hread : StepRead j.members s)
    (hz : Modeller.zParallelGateway j.members = some v) : VariantAlike s v := by
  obtain ⟨targets, htargets, hz⟩ := Option.bind_eq_some_iff.mp hz
  obtain ⟨join, hjoin, hz⟩ := Option.bind_eq_some_iff.mp hz
  obtain rfl := Option.some.inj hz
  exact ⟨required_texts htargets hread.parallelNextSteps, required_text hjoin hread.joinStep⟩

theorem joinGatewayAlike (hread : StepRead j.members s)
    (hz : Modeller.zJoinGateway j.members = some v) : VariantAlike s v := by
  obtain ⟨nextStep, hnext, hz⟩ := Option.bind_eq_some_iff.mp hz
  obtain rfl := Option.some.inj hz
  exact required_text hnext hread.nextStep

theorem decisionTableAlike (hspelled : StepSpelled j) (hread : StepRead j.members s)
    (hz : Modeller.zDecisionTableStep j.members = some v) : VariantAlike s v := by
  obtain ⟨hitPolicy, hhit, hz⟩ := Option.bind_eq_some_iff.mp hz
  obtain ⟨nextStep, hnext, hz⟩ := Option.bind_eq_some_iff.mp hz
  obtain ⟨table, htable, hz⟩ := Option.bind_eq_some_iff.mp hz
  obtain rfl := Option.some.inj hz
  refine ⟨?_, ?_, ?_⟩
  · obtain ⟨o, ho, hs⟩ := required_eq_some.mp hnext
    obtain ⟨rfl, -⟩ := zNonempty_eq_some.mp hs
    exact (ho ▸ hread.nextStep).text
  · rcases optional_eq_some hhit with ⟨hnone, rfl⟩ | ⟨o, a, ho, ha, rfl⟩
    · exact .inl (hread.hitPolicy.absent hnone)
    · obtain ⟨hs, -⟩ := Option.filter_eq_some_iff.mp ha
      obtain rfl := zString_eq_some.mp hs
      exact .inr (ho ▸ hread.hitPolicy).text
  · obtain ⟨o, ho, ht⟩ := required_eq_some.mp htable
    have hpresent := hread.decisionTable.present o ho
    have hnames := hspelled.table
    rw [member_of_last ho] at hnames
    cases o with
    | obj members =>
      obtain ⟨t, hdecoded, hsome⟩ := bind_eq_ok hpresent
      refine ⟨t, (Except.ok.inj hsome).symm, fun _ hnil => ?_⟩
      have hrules := decisionTableRead hnames hdecoded
      obtain ⟨rules, hrules', ht⟩ := Option.bind_eq_some_iff.mp ht
      obtain ⟨r, hr, hitems⟩ := required_eq_some.mp hrules'
      obtain ⟨js, rfl, hjs⟩ := zArray_eq_some hitems
      change Reads _ _ (GoMap.last members "rules") _ at hrules
      rw [hr, hnil] at hrules
      have hboth := (Reads.slice hjs hrules).length_eq
      have hempty : rules = [] := List.length_eq_zero_iff.mp hboth
      rw [hempty] at ht
      cases ht
    | _ => cases ht

end Variants

/-- What the modeller reads of a step. -/
theorem zStep_spec {j : Json} {ms : Modeller.Step} (hz : zStep j = some ms) :
    ∃ members text, j = .obj members ∧ required members "type" zString = some text ∧
      required members "id" zString = some ms.id ∧
      required members "name" zString = some ms.name ∧
      zVariant members (.ofText text) = some ms.variant ∧
      ms.extra = Modeller.passthrough members (Modeller.knownStepKeys (.ofText text)) := by
  cases j with
  | obj members =>
    obtain ⟨text, htype, hz⟩ := Option.bind_eq_some_iff.mp hz
    obtain ⟨id, hid, hz⟩ := Option.bind_eq_some_iff.mp hz
    obtain ⟨name, hname, hz⟩ := Option.bind_eq_some_iff.mp hz
    obtain ⟨description, -, hz⟩ := Option.bind_eq_some_iff.mp hz
    obtain ⟨v, hv, hz⟩ := Option.bind_eq_some_iff.mp hz
    obtain rfl := Option.some.inj hz
    exact ⟨members, text, rfl, htype, hid, hname, hv, rfl⟩
  | _ => cases hz

theorem stepAlike {j : Json} {ms : Modeller.Step} {s : WorkflowStep} (hspelled : StepSpelled j)
    (hz : zStep j = some ms)
    (hd : decodeStruct true (stepFields true) "definition.WorkflowStep" .zero j = .ok s) :
    StepRead j.members s ∧ StepAlike ms s := by
  obtain ⟨members, text, rfl, htype, hid, hname, hv, -⟩ := zStep_spec hz
  have hread := stepRead hspelled.step hd
  refine ⟨hread, required_text hid hread.id, required_text hname hread.name, ?_, ?_⟩
  · obtain ⟨o, ho, hs⟩ := required_eq_some.mp htype
    obtain rfl := zString_eq_some.mp hs
    have htext : s.type = StepType.ofText text := (Except.ok.inj (hread.type.present _ ho)).symm
    rw [htext]
    exact (zVariant_type hv).symm
  · cases hkind : StepType.ofText text with
    | serviceTask => exact serviceTaskAlike hspelled hread (by rw [hkind] at hv; exact hv)
    | userTask => exact userTaskAlike hspelled hread (by rw [hkind] at hv; exact hv)
    | wait => exact waitAlike hspelled hread (by rw [hkind] at hv; exact hv)
    | decision => exact decisionAlike hread (by rw [hkind] at hv; exact hv)
    | transformation => exact transformationAlike hread (by rw [hkind] at hv; exact hv)
    | parallelGateway => exact parallelGatewayAlike hread (by rw [hkind] at hv; exact hv)
    | joinGateway => exact joinGatewayAlike hread (by rw [hkind] at hv; exact hv)
    | decisionTable => exact decisionTableAlike hspelled hread (by rw [hkind] at hv; exact hv)
    | endStep =>
      rw [hkind] at hv
      rw [← Option.some.inj hv]
      trivial
    | unsupported =>
      rw [hkind] at hv
      cases hv

/-! ## Definitions -/

/-- What the two hold of the document. -/
structure DefinitionAlike (doc : Json) (md : Modeller.WorkflowDefinition) (d : WorkflowDefinition) :
    Prop where
  read : DefinitionRead doc.members d
  id : d.id = md.id
  name : d.name = md.name
  autoStartNextWorkflow : d.autoStartNextWorkflow = md.autoStartNextWorkflow.getD false
  nextWorkflowId : d.nextWorkflowId = md.nextWorkflowId.getD ""
  steps : List.Forall₂ (fun ms s => ∃ j ∈ (doc.member "steps").items,
    zStep j = some ms ∧ StepRead j.members s ∧ StepAlike ms s) md.steps d.steps
  items : ∀ j ∈ (doc.member "steps").items, ∃ ms ∈ md.steps, ∃ s ∈ d.steps,
    zStep j = some ms ∧ StepRead j.members s ∧ StepAlike ms s

theorem definitionAlike {doc : Json} {md : Modeller.WorkflowDefinition} {d : WorkflowDefinition}
    (hspelled : DocumentSpelled doc) (hz : zWorkflowDefinition doc = some md)
    (hd : parse doc = .ok d) : DefinitionAlike doc md d := by
  cases doc with
  | obj members =>
    have hdecoded : decodeMembers true (definitionFields true) .zero members = .ok d := by
      unfold parse at hd
      cases hdefinition : decodeDefinition true (.obj members) with
      | error e =>
        rw [hdefinition] at hd
        cases hd
      | ok d' =>
        rw [hdefinition] at hd
        obtain rfl := Except.ok.inj hd
        exact hdefinition
    have hread := definitionRead hspelled.definition hdecoded
    obtain ⟨id, hid, hz⟩ := Option.bind_eq_some_iff.mp hz
    obtain ⟨version, -, hz⟩ := Option.bind_eq_some_iff.mp hz
    obtain ⟨name, hname, hz⟩ := Option.bind_eq_some_iff.mp hz
    obtain ⟨description, -, hz⟩ := Option.bind_eq_some_iff.mp hz
    obtain ⟨auto, hauto, hz⟩ := Option.bind_eq_some_iff.mp hz
    obtain ⟨next, hnext, hz⟩ := Option.bind_eq_some_iff.mp hz
    obtain ⟨steps, hsteps, hz⟩ := Option.bind_eq_some_iff.mp hz
    obtain ⟨metadata, -, hz⟩ := Option.bind_eq_some_iff.mp hz
    obtain rfl := Option.some.inj hz
    obtain ⟨o, ho, hitems⟩ := required_eq_some.mp hsteps
    obtain ⟨js, rfl, hjs⟩ := zArray_eq_some hitems
    have hreads := hread.steps
    change Reads _ _ (GoMap.last members "steps") _ at hreads
    rw [ho] at hreads
    have hds := forall₂_of_decodeItems (hreads.present _ rfl)
    have hjs' : ((Json.obj members).member "steps").items = js := by
      have hlast : GoMap.last (Json.obj members).members "steps" = some (.arr js) := ho
      rw [member_of_last hlast]
      rfl
    have halike : ∀ {ms s j}, j ∈ js → zStep j = some ms →
        decodeStruct true (stepFields true) "definition.WorkflowStep" .zero j = .ok s →
        zStep j = some ms ∧ StepRead j.members s ∧ StepAlike ms s :=
      fun hj hms hs => ⟨hms, stepAlike (hspelled.steps _ (hjs' ▸ hj)) hms hs⟩
    refine ⟨hread, required_text hid hread.id, required_text hname hread.name, ?_,
      optional_text hnext hread.nextWorkflowId, ?_, ?_⟩
    · rcases optional_eq_some hauto with ⟨hnone, rfl⟩ | ⟨v, b, hv, hb, rfl⟩
      · exact hread.autoStartNextWorkflow.absent hnone
      · have hpresent := hread.autoStartNextWorkflow.present v hv
        cases v with
        | bool b' =>
          obtain rfl := Option.some.inj hb
          exact (Except.ok.inj hpresent).symm
        | _ => cases hb
    · rw [hjs']
      refine (forall₂_join hjs hds).imp ?_
      intro ms s ⟨j, hj, hms, hs⟩
      exact ⟨j, hj, halike hj hms hs⟩
    · rw [hjs']
      intro j hj
      obtain ⟨i, hlt, rfl⟩ := List.mem_iff_getElem.mp hj
      have hms := hjs.get hlt (hjs.length_eq ▸ hlt)
      have hs := hds.get hlt (hds.length_eq ▸ hlt)
      exact ⟨_, List.get_mem _ _, _, List.get_mem _ _, halike (List.getElem_mem hlt) hms hs⟩
  | _ => cases hz

end Rochallor
