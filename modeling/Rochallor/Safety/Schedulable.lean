import Rochallor.Modeller.Validate
import Rochallor.Safety.DataErrors
import Rochallor.Safety.Durations

/-! # Which durations can be scheduled

    `Validate` asks for a boundary event that its duration is not empty, the
    modeller asks that it matches a pattern, and the scan of `parseDuration`
    asks for something else again.  A duration it does not parse makes every
    dispatch of the step fail, and the callback with it.
-/

namespace Rochallor

open Duration

/-! ## How a duration is read -/

/-- How the text after the `P` is cut up: a separator is skipped, a run of
    numerals and the character after it are a component, and where neither
    stands, or nothing comes after the numerals, the rest is ignored. -/
inductive Duration.Cut : List UInt8 → List Component → Prop where
  | done {bs : List UInt8} (hall : ∀ b ∈ bs, isNumeral b = true) : Cut bs []
  | ignore {b : UInt8} {rest : List UInt8} (hb : isNumeral b = false) (ht : b ≠ 84) :
      Cut (b :: rest) []
  | separator {rest : List UInt8} {cs : List Component} (h : Cut rest cs) : Cut (84 :: rest) cs
  | component {num : List UInt8} {unit : UInt8} {rest : List UInt8} {cs : List Component}
      (hne : num ≠ []) (hall : ∀ b ∈ num, isNumeral b = true) (hunit : isNumeral unit = false)
      (h : Cut rest cs) : Cut (num ++ unit :: rest) ((num, unit) :: cs)

/-- A duration starts with `P`, and its components are not worth zero
    nanoseconds in a 64-bit sum. -/
def Schedulable (iso : String) : Prop :=
  ∃ rest cs, bytes iso = 80 :: rest ∧ Cut rest cs ∧ ¬ (2 ^ 64 : Int) ∣ (cs.map (·.nanos)).sum

theorem Duration.span_numerals {num : List UInt8} {unit : UInt8} (rest : List UInt8)
    (hall : ∀ b ∈ num, isNumeral b = true) (hunit : isNumeral unit = false) :
    (num ++ unit :: rest).takeWhile isNumeral = num ∧
      (num ++ unit :: rest).dropWhile isNumeral = unit :: rest := by
  constructor
  · rw [List.takeWhile_append_of_pos hall, List.takeWhile_cons_of_neg (by simp [hunit]),
      List.append_nil]
  · rw [List.dropWhile_append_of_pos hall, List.dropWhile_cons_of_neg (by simp [hunit])]

/-- The scan cuts the text up. -/
theorem Duration.cut_components (rounds : Nat) (bs : List UInt8) (h : bs.length ≤ rounds) :
    Cut bs (components rounds bs) := by
  induction rounds generalizing bs with
  | zero =>
    obtain rfl := List.length_eq_zero_iff.mp (Nat.le_zero.mp h)
    exact .done (by simp)
  | succ rounds ih =>
    cases bs with
    | nil => exact .done (by simp)
    | cons b rest =>
      rw [List.length_cons] at h
      rw [components]
      split
      · rename_i hb
        subst hb
        exact .separator (ih rest (by omega))
      · rename_i ht
        have htext : b :: rest =
            (b :: rest).takeWhile isNumeral ++ (b :: rest).dropWhile isNumeral :=
          (List.takeWhile_append_dropWhile ..).symm
        have hall : ∀ c ∈ (b :: rest).takeWhile isNumeral, isNumeral c = true :=
          fun c hc => List.mem_takeWhile_imp hc
        split
        · rename_i hdrop
          rw [hdrop, List.append_nil] at htext
          exact .done (fun c hc => hall c (htext ▸ hc))
        · rename_i unit rest' hdrop
          have hunit : isNumeral unit = false := by
            have hstop := List.head?_dropWhile_not isNumeral (b :: rest)
            rw [hdrop] at hstop
            simpa using hstop
          split
          · rename_i hempty
            rw [List.isEmpty_iff.mp hempty, hdrop, List.nil_append] at htext
            obtain ⟨rfl, rfl⟩ := List.cons.inj htext
            exact .ignore hunit ht
          · rename_i hne
            have hlength : rest'.length ≤ rounds := by
              have hle := (List.dropWhile_suffix isNumeral (l := b :: rest)).length_le
              rw [hdrop] at hle
              simp only [List.length_cons] at hle
              omega
            have hcut := Cut.component (by simpa using hne) hall hunit (ih rest' hlength)
            rw [← hdrop, ← htext] at hcut
            exact hcut

/-- There is one way to cut a text up. -/
theorem Duration.Cut.unique {bs : List UInt8} {cs cs' : List Component} (h : Cut bs cs)
    (h' : Cut bs cs') : cs = cs' := by
  have hfirst : ∀ {num : List UInt8} {unit b : UInt8} {rest rest' : List UInt8}, num ≠ [] →
      (∀ b ∈ num, isNumeral b = true) → num ++ unit :: rest = b :: rest' → isNumeral b = true := by
    intro num unit b rest rest' hne hall heq
    obtain ⟨c, cs, rfl⟩ := List.exists_cons_of_ne_nil hne
    rw [← (List.cons.inj heq).1]
    exact hall c (List.mem_cons_self ..)
  induction h generalizing cs' with
  | done hall =>
    cases h' with
    | done => rfl
    | ignore => rfl
    | separator => exact absurd (hall 84 (List.mem_cons_self ..)) (by decide)
    | component hne hall' hunit h' =>
      have := hall _ (List.mem_append_right _ (List.mem_cons_self ..))
      rw [hunit] at this
      cases this
  | ignore hb ht =>
    generalize hbs : _ :: _ = bs at h'
    cases h' with
    | done => rfl
    | ignore => rfl
    | separator => exact absurd (List.cons.inj hbs).1 ht
    | component hne hall hunit h' =>
      rw [hfirst hne hall hbs.symm] at hb
      cases hb
  | separator h ih =>
    generalize hbs : (84 : UInt8) :: _ = bs at h'
    cases h' with
    | done hall => exact absurd (hall 84 (hbs ▸ List.mem_cons_self ..)) (by decide)
    | ignore hb ht => exact absurd (List.cons.inj hbs).1.symm ht
    | separator h' =>
      obtain ⟨-, rfl⟩ := List.cons.inj hbs
      exact ih h'
    | component hne hall hunit h' => exact absurd (hfirst hne hall hbs.symm) (by decide)
  | @component num unit rest cs hne hall hunit h ih =>
    generalize hbs : num ++ unit :: rest = bs at h'
    cases h' with
    | done hall' =>
      have := hall' unit (hbs ▸ List.mem_append_right _ (List.mem_cons_self ..))
      rw [hunit] at this
      cases this
    | ignore hb ht =>
      rw [hfirst hne hall hbs] at hb
      cases hb
    | separator h' => exact absurd (hfirst hne hall hbs) (by decide)
    | @component num' unit' rest' cs' hne' hall' hunit' h' =>
      have hspan := span_numerals rest hall hunit
      have hspan' := span_numerals rest' hall' hunit'
      rw [hbs] at hspan
      have hnum := hspan.1.symm.trans hspan'.1
      obtain ⟨rfl, rfl⟩ := List.cons.inj (hspan.2.symm.trans hspan'.2)
      rw [hnum, ih h']

theorem wrapInt64_eq_zero_iff {n : Int} : wrapInt64 n = 0 ↔ (2 ^ 64 : Int) ∣ n := by
  unfold wrapInt64
  omega

/-- A duration is parsed exactly if it can be scheduled. -/
theorem parseDuration_ok_iff (iso : String) :
    (∃ dur, parseDuration iso = .ok dur) ↔ Schedulable iso := by
  constructor
  · rintro ⟨dur, h⟩
    obtain ⟨rest, hbytes, rfl, hne⟩ := parseDuration_eq_ok.mp h
    exact ⟨rest, components rest.length rest, hbytes, cut_components _ rest (Nat.le_refl _),
      fun hzero => hne (wrapInt64_eq_zero_iff.mpr hzero)⟩
  · rintro ⟨rest, cs, hbytes, hcut, hne⟩
    obtain rfl := hcut.unique (cut_components _ rest (Nat.le_refl _))
    exact ⟨nanosOf rest, parseDuration_eq_ok.mpr
      ⟨rest, hbytes, rfl, fun hzero => hne (wrapInt64_eq_zero_iff.mp hzero)⟩⟩

/-! ## What follows for a dispatch -/

section Dispatch

variable {svc : Service} {now : Time} {d : WorkflowDefinition} {tx : Tx} {step : WorkflowStep}
  {stepID : StepId}

theorem scheduleBoundaryEvents_ok_iff {instanceID seID : Nat} {events : List BoundaryEvent}
    {db : Db} : (∃ db', scheduleBoundaryEvents now instanceID seID events db = .ok db') ↔
      ∀ be ∈ events.filter fun be => decide (be.type = .timer), Schedulable be.duration := by
  induction events generalizing db with
  | nil => simp [scheduleBoundaryEvents]
  | cons be rest ih =>
    rw [scheduleBoundaryEvents]
    by_cases htimer : be.type = .timer
    · rw [if_pos htimer, List.filter_cons_of_pos (by simpa using htimer), List.forall_mem_cons,
        ← parseDuration_ok_iff]
      cases hparse : parseDuration be.duration with
      | error e => simp
      | ok dur =>
        dsimp only
        rw [ih]
        simp
    · rw [if_neg htimer, List.filter_cons_of_neg (by simpa using htimer)]
      exact ih

/-- The dispatch of a step that waits for a callback fails exactly if one of
    its timers cannot be scheduled. -/
theorem dispatchStep_parks_iff (hfind : findStep d stepID = some step)
    (hexternal : step.type.external = true) :
    (∃ r, dispatchStep svc now d tx stepID = .ok r) ↔
      ∀ be ∈ step.timers, Schedulable be.duration := by
  have hbind : ∀ {db : Db} {instanceID seID : Nat} {f : Db → Tx × List StepId},
      (∃ r, (do let db ← scheduleBoundaryEvents now instanceID seID step.boundaryEvents db
                return f db : Except EngineError (Tx × List StepId)) = .ok r) ↔
        ∀ be ∈ step.timers, Schedulable be.duration := by
    intro db instanceID seID f
    have hschedule : (∃ db', scheduleBoundaryEvents now instanceID seID step.boundaryEvents db =
        .ok db') ↔ ∀ be ∈ step.timers, Schedulable be.duration := scheduleBoundaryEvents_ok_iff
    rw [← hschedule]
    constructor
    · rintro ⟨r, hr⟩
      obtain ⟨db', hdb', -⟩ := bind_eq_ok hr
      exact ⟨db', hdb'⟩
    · rintro ⟨db', hdb'⟩
      rw [hdb']
      exact ⟨_, rfl⟩
  simp only [dispatchStep, hfind, routeStep]
  cases htype : step.type with
  | serviceTask => exact hbind
  | userTask => exact hbind
  | wait => exact hbind
  | _ =>
    rw [htype] at hexternal
    cases hexternal

end Dispatch

/-- The call dispatches a step that waits for a callback. -/
structure ParksAt (svc : Service) (db : Db) (call : Call) (m : Dispatch) (step : WorkflowStep) :
    Prop where
  attempted : m ∈ attempts svc db call
  found : findStep m.definition m.stepID = some step
  external : step.type.external = true

/-- The durations of an accepted definition, and those the modeller's pattern
    matches, are parsed exactly if they can be scheduled; the dispatch of a step
    fails over its timers exactly if one of them cannot, and what called it
    fails with it. -/
theorem durations_schedulable (svc : Service) (db : Db) (call : Call) (m : Dispatch)
    (step : WorkflowStep) (d : WorkflowDefinition) (iso : String) :
    (Accepted d →
      ((∀ step ∈ d.steps, ∀ be ∈ step.boundaryEvents, ∃ dur, parseDuration be.duration = .ok dur) ↔
        ∀ step ∈ d.steps, ∀ be ∈ step.boundaryEvents, Schedulable be.duration)) ∧
    (Modeller.matchesIsoDuration iso = true →
      ((∃ dur, parseDuration iso = .ok dur) ↔ Schedulable iso)) ∧
    (ParksAt svc db call m step →
      ((∃ r, dispatchStep svc m.now m.definition m.tx m.stepID = .ok r) ↔
        ∀ be ∈ step.timers, Schedulable be.duration) ∧
      ∀ e, dispatchStep svc m.now m.definition m.tx m.stepID = .error e →
        transact svc db call = .error e) := by
  refine ⟨fun _ => ?_, fun _ => parseDuration_ok_iff iso, fun h => ?_⟩
  · simp only [parseDuration_ok_iff]
  · exact ⟨dispatchStep_parks_iff h.found h.external, fun e => transact_of_error h.attempted⟩

/-- A service task with a timer. -/
def chargeWithin (duration : String) : WorkflowDefinition where
  id := "charge-within"
  version := 1
  name := "charge within"
  steps := [
    { id := "charge", name := "charge", type := .serviceTask, jobType := "charge",
      nextStep := "end",
      boundaryEvents := [⟨.timer, duration, true, "end"⟩] },
    { id := "end", name := "end", type := .endStep }]

/-- The start of `chargeWithin`. -/
def startCharge : Call :=
  ⟨.start "charge-within" 0 [] "", 0, 16⟩

theorem durations_schedulable_hour :
    (∀ step ∈ (chargeWithin "PT1H").steps, ∀ be ∈ step.boundaryEvents,
      ∃ dur, parseDuration be.duration = .ok dur) ∧
    (∃ dur, parseDuration "PT1H" = .ok dur) ∧
    ∃ m ∈ attempts (.ofList [chargeWithin "PT1H"]) {} startCharge,
      ∃ r, dispatchStep (.ofList [chargeWithin "PT1H"]) m.now m.definition m.tx m.stepID = .ok r := by
  let charge := (chargeWithin "PT1H").steps[0]
  have hattempts : ∃ m ∈ attempts (.ofList [chargeWithin "PT1H"]) {} startCharge,
      findStep m.definition m.stepID = some charge := ⟨_, List.mem_cons_self .., rfl⟩
  obtain ⟨m, hm, hfind⟩ := hattempts
  have hall := durations_schedulable (.ofList [chargeWithin "PT1H"]) {} startCharge m charge
    (chargeWithin "PT1H") "PT1H"
  have hhour : Schedulable "PT1H" :=
    (hall.2.1 (by decide +kernel)).mp ⟨3600000000000, by decide +kernel⟩
  refine ⟨(hall.1 (by decide +kernel)).mpr ?_, (hall.2.1 (by decide +kernel)).mpr hhour,
    m, hm, (hall.2.2 ⟨hm, hfind, rfl⟩).1.mpr ?_⟩
  · intro step hstep be hbe
    simp only [chargeWithin, List.mem_cons, List.not_mem_nil, or_false] at hstep
    rcases hstep with rfl | rfl
    · rw [List.mem_singleton.mp hbe]
      exact hhour
    · cases hbe
  · intro be hbe
    rw [List.mem_singleton.mp (List.mem_filter.mp hbe).1]
    exact hhour

/-- A text that is no duration is accepted on upload, and the start of the
    workflow fails; a number of years is accepted by the modeller and not
    parsed. -/
theorem tomorrow_not_schedulable :
    Accepted (chargeWithin "tomorrow") ∧ (¬ ∃ dur, parseDuration "tomorrow" = .ok dur) ∧
      (transact (.ofList [chargeWithin "tomorrow"]) {} startCharge).isOk = false ∧
      Modeller.matchesIsoDuration "P1Y" = true ∧ ¬ ∃ dur, parseDuration "P1Y" = .ok dur := by
  have hfails : ∀ iso, (parseDuration iso).isOk = false → ¬ ∃ dur, parseDuration iso = .ok dur := by
    rintro iso h ⟨dur, hdur⟩
    rw [hdur] at h
    cases h
  exact ⟨by decide +kernel, hfails _ (by decide +kernel), by decide +kernel, by decide +kernel,
    hfails _ (by decide +kernel)⟩

end Rochallor
