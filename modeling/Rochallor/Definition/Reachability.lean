import Rochallor.Definition.Validator
import Rochallor.Framework.Search

/-! # Reachability

    What `graphWalk` marks and what the reachability rules of `Validate`
    report.  The graph is on the ids: the edges out of an id are the references
    of the step that `stepByID` has for it.
-/

namespace Rochallor

open Relation (ReflTransGen)

/-! ## The graph -/

/-- A reference of a step that `graphWalk` follows. -/
inductive WalkRef (s : WorkflowStep) : StepId → Prop where
  | nextStep (h : s.nextStep ≠ "") : WalkRef s s.nextStep
  | conditionalNextSteps (c : ConditionalBranches) (hc : s.conditionalNextSteps = some c)
      (e : String × StepId) (he : e ∈ c.targets) : WalkRef s e.2
  | parallelNextSteps (t : StepId) (ht : t ∈ s.parallelNextSteps) : WalkRef s t
  | joinStep (h : s.joinStep ≠ "") : WalkRef s s.joinStep
  | boundaryEvents (be : BoundaryEvent) (hbe : be ∈ s.boundaryEvents) : WalkRef s be.targetStepId

/-- An edge of the step graph. -/
def WalkEdge (d : WorkflowDefinition) (a b : StepId) : Prop :=
  ∃ s, stepByID d a = some s ∧ WalkRef s b

/-- A path of the step graph. -/
def Reaches (d : WorkflowDefinition) : StepId → StepId → Prop :=
  ReflTransGen (WalkEdge d)

theorem mem_walkTargets {s : WorkflowStep} {t : StepId} : t ∈ walkTargets s ↔ WalkRef s t := by
  unfold walkTargets
  constructor
  · intro h
    simp only [List.mem_append] at h
    rcases h with (((h | h) | h) | h) | h
    · split at h
      · cases h
      · rename_i hne
        obtain rfl := List.mem_singleton.mp h
        exact .nextStep (by simpa using hne)
    · split at h
      · cases h
      · rename_i c hc
        obtain ⟨e, he, rfl⟩ := List.mem_map.mp h
        exact .conditionalNextSteps c hc e he
    · exact .parallelNextSteps t h
    · split at h
      · cases h
      · rename_i hne
        obtain rfl := List.mem_singleton.mp h
        exact .joinStep (by simpa using hne)
    · obtain ⟨be, hbe, rfl⟩ := List.mem_map.mp h
      exact .boundaryEvents be hbe
  · intro h
    cases h with
    | nextStep h => simp [h]
    | conditionalNextSteps c hc e he =>
      simp only [hc, List.mem_append, List.mem_map]
      exact .inl (.inl (.inl (.inr ⟨e, he, rfl⟩)))
    | parallelNextSteps t ht => simp [ht]
    | joinStep h => simp [h]
    | boundaryEvents be hbe =>
      simp only [List.mem_append, List.mem_map]
      exact .inr ⟨be, hbe, rfl⟩

/-! ## The walk -/

/-- The ids `graphWalk` goes on to from an id. -/
def walkSuccessors (d : WorkflowDefinition) (id : StepId) : List StepId :=
  match stepByID d id with
  | none => []
  | some s => walkTargets s

variable {d : WorkflowDefinition}

theorem mem_walkSuccessors {a b : StepId} : b ∈ walkSuccessors d a ↔ WalkEdge d a b := by
  unfold walkSuccessors WalkEdge
  cases stepByID d a with
  | none => simp
  | some s => simp [mem_walkTargets]

theorem walkEdge_of_order {order : StepId → List StepId}
    (horder : ∀ a b, b ∈ order a ↔ b ∈ walkSuccessors d a) : Search.Edge order = WalkEdge d := by
  funext a b
  exact propext ((horder a b).trans mem_walkSuccessors)

variable (d) in
/-- `graphWalk` is the depth-first walk of the library. -/
theorem graphWalk_eq (depth : Nat) (id : StepId) (visited : List StepId) :
    graphWalk d depth id visited = Search.walk (walkSuccessors d) depth id visited := by
  induction depth generalizing id visited with
  | zero => rfl
  | succ depth ih =>
    rw [graphWalk, Search.walk, walkSuccessors]
    split
    · rfl
    · cases stepByID d id with
      | none => rfl
      | some s =>
        have hstep : (fun acc t => graphWalk d depth t acc) =
            fun acc t => Search.walk (walkSuccessors d) depth t acc := by
          funext acc t
          exact ih t acc
        dsimp only
        rw [hstep]

/-- Only ids of steps have successors. -/
theorem mem_ids_of_walkSuccessors {a : StepId} (h : walkSuccessors d a ≠ []) :
    a ∈ d.steps.map (·.id) := by
  unfold walkSuccessors at h
  split at h
  · exact absurd rfl h
  · rename_i s hs
    have hmem := List.mem_of_find?_eq_some hs
    have hid := List.find?_some hs
    simp only [Bool.and_eq_true, beq_iff_eq] at hid
    exact List.mem_map.mpr ⟨s, List.mem_reverse.mp hmem, hid.1⟩

variable (d) in
/-- A walk that goes on to the successors in any order marks what a path leads
    to. -/
theorem mem_walk_iff_reaches {order : StepId → List StepId}
    (horder : ∀ a b, b ∈ order a ↔ b ∈ walkSuccessors d a) (start id : StepId) :
    id ∈ Search.walk order (d.steps.length + 1) start [] ↔ Reaches d start id := by
  have hnodes : ∀ a, order a ≠ [] → a ∈ d.steps.map (·.id) := by
    intro a ha
    obtain ⟨b, hb⟩ := List.exists_mem_of_ne_nil _ ha
    exact mem_ids_of_walkSuccessors (List.ne_nil_of_mem ((horder a b).mp hb))
  have h : id ∈ Search.walk order ((d.steps.map (·.id)).length + 1) start [] ↔
      Relation.ReflTransGen (Search.Edge order) start id := Search.mem_walk_iff hnodes
  rw [List.length_map, walkEdge_of_order horder] at h
  exact h

variable (d) in
theorem mem_graphWalk_iff (start id : StepId) :
    id ∈ graphWalk d (d.steps.length + 1) start [] ↔ Reaches d start id := by
  rw [graphWalk_eq]
  exact mem_walk_iff_reaches d (fun a b => Iff.rfl) start id

variable (d) in
/-- The recursion of `graphWalk` ends above the bound. -/
theorem graphWalk_depth {depth : Nat} (h : d.steps.length < depth) (start : StepId) :
    graphWalk d depth start [] = graphWalk d (d.steps.length + 1) start [] := by
  have hbound : Search.unmarked (d.steps.map (·.id)) [] ≤ d.steps.length :=
    (List.length_filter_le ..).trans_eq (List.length_map ..)
  rw [graphWalk_eq, graphWalk_eq]
  exact Search.walk_depth (fun a ha => mem_ids_of_walkSuccessors ha) (by omega) (by omega)

/-! ## The errors of the other rules -/

/-- No error of the list ends as those of the reachability rules do. -/
structure Elsewhere (errs : List String) : Prop where
  getLast?_ne : ∀ m ∈ errs, m.toList.getLast? ≠ some 'p'

namespace Elsewhere

theorem nil : Elsewhere [] := ⟨fun m h => absurd h (by simp)⟩

theorem append {errs errs' : List String} (h : Elsewhere errs) (h' : Elsewhere errs') :
    Elsewhere (errs ++ errs') := by
  refine ⟨fun m hm => ?_⟩
  exact (List.mem_append.mp hm).elim (h.getLast?_ne m) (h'.getLast?_ne m)

theorem cons_message {m : String} {errs : List String} (hm : m.toList.getLast? ≠ some 'p')
    (h : Elsewhere errs) : Elsewhere (m :: errs) := by
  refine ⟨fun m' hm' => ?_⟩
  rcases List.mem_cons.mp hm' with rfl | hm'
  · exact hm
  · exact h.getLast?_ne m' hm'

theorem cons {front back : String} {errs : List String} (hne : back ≠ "")
    (hlast : back.toList.getLast? ≠ some 'p') (h : Elsewhere errs) :
    Elsewhere ((front ++ back) :: errs) := by
  refine cons_message ?_ h
  rw [String.toList_append, List.getLast?_append]
  cases hb : back.toList.getLast? with
  | none => exact absurd (by simpa using hb) hne
  | some c =>
    rw [hb] at hlast
    exact hlast

/-- A fixed message. -/
theorem message {m : String} (hm : m.toList.getLast? ≠ some 'p') : Elsewhere [m] :=
  cons_message hm nil

theorem cons_number (front : String) (n : Nat) {errs : List String} (h : Elsewhere errs) :
    Elsewhere ((front ++ toString n) :: errs) := by
  have hdigits : ∀ c ∈ (toString n).toList, c.isDigit = true := by
    rw [show toString n = n.repr from rfl, Nat.toList_repr]
    exact fun c hc => Nat.isDigit_of_mem_toDigits (by decide) (by decide) hc
  refine cons (fun hnil => ?_) (fun hlast => ?_) h
  · have hlist := congrArg String.toList hnil
    rw [show toString n = n.repr from rfl, Nat.toList_repr] at hlist
    exact Nat.toDigits_ne_nil hlist
  · exact absurd (hdigits 'p' (List.mem_of_getLast? hlast)) (by decide)

/-- A message that ends in a fixed text. -/
theorem text (front : String) {back : String} (hne : back ≠ "")
    (hlast : back.toList.getLast? ≠ some 'p') : Elsewhere [front ++ back] :=
  cons hne hlast nil

theorem cons_quote (front s : String) {errs : List String} (h : Elsewhere errs) :
    Elsewhere ((front ++ quote s) :: errs) := by
  refine cons (by simp [quote]) ?_ h
  unfold quote
  simp [String.toList_append, List.getLast?_cons, List.getLast?_append]

/-- A message that ends in a quoted name. -/
theorem quoted (front s : String) : Elsewhere [front ++ quote s] :=
  cons_quote front s nil

theorem branch {c : Prop} [Decidable c] {errs errs' : List String} (h : Elsewhere errs)
    (h' : Elsewhere errs') : Elsewhere (if c then errs else errs') := by
  split
  · exact h
  · exact h'

theorem flatMap {α : Type} {xs : List α} {f : α → List String} (h : ∀ x, Elsewhere (f x)) :
    Elsewhere (xs.flatMap f) := by
  refine ⟨fun m hm => ?_⟩
  obtain ⟨x, -, hx⟩ := List.mem_flatMap.mp hm
  exact (h x).getLast?_ne m hx

theorem filterMap {α : Type} {xs : List α} {f : α → Option String}
    (h : ∀ x, Elsewhere (f x).toList) : Elsewhere (xs.filterMap f) := by
  refine ⟨fun m hm => ?_⟩
  obtain ⟨x, -, hx⟩ := List.mem_filterMap.mp hm
  exact (h x).getLast?_ne m (by simp [hx])

end Elsewhere

open Elsewhere

theorem elsewhere_checkRef (stepID : StepId) (field : String) (target : StepId) :
    Elsewhere (checkRef d stepID field target) :=
  branch nil (quoted _ target)

theorem elsewhere_validateSchemaShape (label : String) (s : Schema) :
    Elsewhere (validateSchemaShape label s) := by
  refine append (append ?_ ?_) ?_
  · exact branch (text _ (by decide) (by decide)) nil
  · refine filterMap fun e => ?_
    dsimp only
    split
    · exact nil
    · exact text _ (by decide) (by decide)
  · refine filterMap fun req => ?_
    split
    · exact nil
    · exact text _ (by decide) (by decide)

theorem elsewhere_validateHitPolicy (s : WorkflowStep) : Elsewhere (validateHitPolicy s) := by
  refine branch nil ?_
  split
  · exact branch (text _ (by decide) (by decide)) (text _ (by decide) (by decide))
  · exact text _ (by decide) (by decide)

theorem elsewhere_foreignField (s : WorkflowStep) (present : Bool) (field : String) :
    Elsewhere (foreignField s present field) :=
  branch (text _ (by decide) (by decide)) nil

theorem elsewhere_validateDecisionTable (s : WorkflowStep) :
    Elsewhere (validateDecisionTable d s) := by
  unfold validateDecisionTable
  split
  · exact text _ (by decide) (by decide)
  · have hrules : ∀ rules : List DecisionTableRule, Elsewhere (if rules.isEmpty then
        ["step " ++ quote s.id ++ " (DECISION_TABLE): rules must not be empty"] else []) :=
      fun rules => branch (text _ (by decide) (by decide)) nil
    have hnext : Elsewhere (if s.nextStep.isEmpty then
        ["step " ++ quote s.id ++ " (DECISION_TABLE): nextStep is required"]
        else checkRef d s.id "nextStep" s.nextStep) :=
      branch (text _ (by decide) (by decide)) (elsewhere_checkRef ..)
    have hfield := elsewhere_foreignField s
    exact append (append (append (append (append (append (append (append (append (append (hrules _)
      hnext) (elsewhere_validateHitPolicy s)) (hfield ..)) (hfield ..)) (hfield ..)) (hfield ..))
      (hfield ..)) (hfield ..)) (hfield ..)) (hfield ..)

theorem elsewhere_requireNextStep (s : WorkflowStep) (label : String) :
    Elsewhere (requireNextStep d s label) :=
  branch (text _ (by decide) (by decide)) (elsewhere_checkRef ..)

theorem elsewhere_validateByType (s : WorkflowStep) : Elsewhere (validateByType d s) := by
  unfold validateByType
  split
  · exact append (branch (text _ (by decide) (by decide)) nil) (branch nil (elsewhere_checkRef ..))
  · exact branch nil (elsewhere_checkRef ..)
  · refine append (branch (text _ (by decide) (by decide)) nil) ?_
    split
    · exact nil
    · exact flatMap fun e => elsewhere_checkRef ..
  · exact append (elsewhere_requireNextStep ..) (branch (text _ (by decide) (by decide)) nil)
  · exact elsewhere_requireNextStep ..
  · refine append (append (branch (text _ (by decide) (by decide)) nil) ?_) ?_
    · exact branch (text _ (by decide) (by decide)) (elsewhere_checkRef ..)
    · exact flatMap fun t => elsewhere_checkRef ..
  · exact elsewhere_requireNextStep ..
  · exact nil
  · exact elsewhere_validateDecisionTable s
  · exact nil

theorem elsewhere_validateBoundaryEvent (s : WorkflowStep) (j : Nat) (be : BoundaryEvent) :
    Elsewhere (validateBoundaryEvent d s j be) := by
  refine append (append ?_ ?_) ?_
  · split
    · exact nil
    · exact text _ (by decide) (by decide)
  · exact branch (text _ (by decide) (by decide)) nil
  · exact branch (text _ (by decide) (by decide)) (elsewhere_checkRef ..)

theorem elsewhere_validateStep (s : WorkflowStep) : Elsewhere (validateStep d s) := by
  refine append (append (append (append (append ?_ ?_) ?_) ?_) ?_) ?_
  · exact branch (text _ (by decide) (by decide)) nil
  · exact branch nil (quoted _ s.type.text)
  · exact elsewhere_validateByType s
  · exact branch (text _ (by decide) (by decide)) nil
  · split
    · exact nil
    · exact branch (text _ (by decide) (by decide)) (elsewhere_validateSchemaShape ..)
  · exact flatMap fun e => elsewhere_validateBoundaryEvent ..

theorem elsewhere_validateStepIds (i : Nat) (seen : List StepId) (steps : List WorkflowStep) :
    Elsewhere (validateStepIds i seen steps) := by
  induction steps generalizing i seen with
  | nil => exact nil
  | cons s rest ih =>
    rw [validateStepIds]
    refine branch ?_ (branch ?_ (ih ..))
    · exact cons (by decide) (by decide) (ih ..)
    · exact cons_quote _ s.id (ih ..)

theorem elsewhere_validateTopLevel : Elsewhere (validateTopLevel d) := by
  refine append (append (append (append ?_ ?_) ?_) ?_) ?_
  · refine branch (message (by decide)) (branch ?_ (branch nil ?_))
    · exact cons_number _ d.id.utf8ByteSize nil
    · exact text _ (by decide) (by decide)
  · exact branch (message (by decide)) nil
  · exact branch (message (by decide)) nil
  · exact branch (message (by decide)) nil
  · split
    · exact nil
    · exact elsewhere_validateSchemaShape ..

theorem elsewhere_rules : Elsewhere (validateTopLevel d ++ validateStepIds 0 [] d.steps ++
    (d.steps.filter fun s => !s.id.isEmpty).flatMap (validateStep d)) :=
  append (append elsewhere_validateTopLevel (elsewhere_validateStepIds ..))
    (flatMap elsewhere_validateStep)

/-! ## What is reported -/

/-- What escaped text stands for. -/
def unescape : List Char → List Char
  | '\\' :: c :: rest =>
    (if c = 'n' then '\n' else if c = 't' then '\t' else if c = 'r' then '\r' else c) ::
      unescape rest
  | c :: rest => c :: unescape rest
  | [] => []

theorem unescape_quoteChar (c : Char) (rest : List Char) :
    unescape ((quoteChar c).toList ++ rest) = c :: unescape rest := by
  unfold quoteChar
  split_ifs with hquote hslash hn ht hr
  · simp [unescape, hquote]
  · simp [unescape, hslash]
  · simp [unescape, hn]
  · simp [unescape, ht]
  · simp [unescape, hr]
  · rw [String.toList_singleton, List.singleton_append, unescape.eq_2]
    intro c' rest' hc
    exact absurd hc hslash

theorem quote_injective {s t : String} (h : quote s = quote t) : s = t := by
  have hunescape : ∀ cs : List Char,
      unescape (cs.flatMap fun c => (quoteChar c).toList) = cs := by
    intro cs
    induction cs with
    | nil => rfl
    | cons c cs ih => rw [List.flatMap_cons, unescape_quoteChar, ih]
  have htext : ∀ s : String, (quote s).toList =
      ['"'] ++ (s.toList.flatMap fun c => (quoteChar c).toList) ++ ['"'] := by
    intro s
    unfold quote
    simp [String.toList_append, List.flatMap_map]
  have hlist := congrArg String.toList h
  rw [htext, htext] at hlist
  have hchars := List.append_cancel_left (List.append_cancel_right hlist)
  rw [← String.toList_inj, ← hunescape s.toList, hchars, hunescape]

/-- The error about a step that cannot be reached. -/
def unreachableError (id : StepId) : String :=
  "step " ++ quote id ++ " is unreachable from the first step"

def noEndError : String := "no END step is reachable from the first step"

theorem unreachableError_last (id : StepId) :
    (unreachableError id).toList.getLast? = some 'p' := by
  rw [unreachableError, String.toList_append, List.getLast?_append]
  rfl

theorem noEndError_last : noEndError.toList.getLast? = some 'p' := by
  decide

theorem unreachableError_injective {a b : StepId} (h : unreachableError a = unreachableError b) :
    a = b := by
  have hlist := congrArg String.toList h
  simp only [unreachableError, String.toList_append] at hlist
  have hquote := List.append_cancel_left (List.append_cancel_right hlist)
  exact quote_injective (String.toList_inj.mp hquote)

theorem unreachableError_ne (id : StepId) : unreachableError id ≠ noEndError := by
  intro h
  have hlist := congrArg (fun s => s.toList.head?) h
  simp [unreachableError, noEndError] at hlist

/-- Errors that end like those of the reachability rules come from them. -/
theorem mem_validate_iff {m : String} (hm : m.toList.getLast? = some 'p') :
    m ∈ validate d ↔ m ∈ validateReachability d := by
  unfold validate
  cases hsteps : d.steps with
  | nil =>
    have htop : m ∉ validateTopLevel d := fun h => elsewhere_validateTopLevel.getLast?_ne m h hm
    simpa [validateReachability, hsteps] using htop
  | cons s rest =>
    rw [← hsteps, if_neg (by simp [hsteps]), List.mem_append]
    exact or_iff_right fun h => elsewhere_rules.getLast?_ne m h hm

theorem validateReachability_eq {first : WorkflowStep} {rest : List WorkflowStep}
    (hsteps : d.steps = first :: rest) (hid : first.id ≠ "") :
    validateReachability d =
      (d.steps.filterMap fun s =>
        if !s.id.isEmpty && !(graphWalk d (d.steps.length + 1) first.id []).contains s.id then
          some (unreachableError s.id)
        else none) ++
      (if (graphWalk d (d.steps.length + 1) first.id []).any fun id =>
          (stepByID d id).any fun s => s.type == .endStep then [] else [noEndError]) := by
  unfold validateReachability
  rw [hsteps]
  dsimp only
  rw [if_neg (by simpa using hid), ← hsteps]
  rfl

theorem unreachable_reported {first : WorkflowStep} {rest : List WorkflowStep}
    (hsteps : d.steps = first :: rest) (hid : first.id ≠ "") {s : WorkflowStep}
    (hs : s ∈ d.steps) (hsid : s.id ≠ "") :
    unreachableError s.id ∈ validate d ↔ ¬ Reaches d first.id s.id := by
  rw [mem_validate_iff (unreachableError_last s.id), validateReachability_eq hsteps hid,
    List.mem_append, List.mem_filterMap, ← mem_graphWalk_iff]
  constructor
  · rintro (⟨s', -, hs'⟩ | hend)
    · obtain ⟨hleft, hs'⟩ := (ite_eq_iff.mp hs').resolve_right (by simp)
      rw [← unreachableError_injective (Option.some.inj hs')]
      simp only [Bool.and_eq_true, Bool.not_eq_true', List.contains_eq_mem,
        decide_eq_false_iff_not] at hleft
      exact hleft.2
    · split at hend
      · cases hend
      · exact absurd (List.mem_singleton.mp hend) (unreachableError_ne s.id)
  · intro hnot
    exact .inl ⟨s, hs, by simp [hsid, hnot]⟩

theorem noEnd_reported {first : WorkflowStep} {rest : List WorkflowStep}
    (hsteps : d.steps = first :: rest) (hid : first.id ≠ "") :
    noEndError ∈ validate d ↔
      ¬ ∃ id s, Reaches d first.id id ∧ stepByID d id = some s ∧ s.type = .endStep := by
  have hany : ((graphWalk d (d.steps.length + 1) first.id []).any fun id =>
        (stepByID d id).any fun s => s.type == .endStep) = true ↔
      ∃ id s, Reaches d first.id id ∧ stepByID d id = some s ∧ s.type = .endStep := by
    simp only [List.any_eq_true, mem_graphWalk_iff, Option.any_eq_true, beq_iff_eq]
    constructor
    · rintro ⟨id, hreach, s, hs, htype⟩
      exact ⟨id, s, hreach, hs, htype⟩
    · rintro ⟨id, s, hreach, hs, htype⟩
      exact ⟨id, hreach, s, hs, htype⟩
  rw [mem_validate_iff noEndError_last, validateReachability_eq hsteps hid, List.mem_append,
    List.mem_filterMap, ← hany]
  constructor
  · rintro (⟨s, -, hs⟩ | hend)
    · split at hs
      · exact absurd (Option.some.inj hs) (unreachableError_ne s.id)
      · cases hs
    · split at hend
      · cases hend
      · assumption
  · intro hnot
    rw [if_neg hnot]
    exact .inr (List.mem_singleton_self _)

/-- `graphWalk` ends and marks what paths lead to, in whatever order the targets
    of an id are visited; the reachability rules report what it leaves out, if
    the first step has an id. -/
theorem graphWalk_exact (d : WorkflowDefinition) :
    (∀ start depth, d.steps.length < depth →
      graphWalk d depth start [] = graphWalk d (d.steps.length + 1) start []) ∧
    (∀ start id, id ∈ graphWalk d (d.steps.length + 1) start [] ↔ Reaches d start id) ∧
    (∀ order : StepId → List StepId, (∀ a b, b ∈ order a ↔ WalkEdge d a b) → ∀ start id,
      id ∈ Search.walk order (d.steps.length + 1) start [] ↔ Reaches d start id) ∧
    ∀ first rest, d.steps = first :: rest → first.id ≠ "" →
      (∀ s ∈ d.steps, s.id ≠ "" →
        (unreachableError s.id ∈ validate d ↔ ¬ Reaches d first.id s.id)) ∧
      (noEndError ∈ validate d ↔
        ¬ ∃ id s, Reaches d first.id id ∧ stepByID d id = some s ∧ s.type = .endStep) := by
  refine ⟨fun start depth h => graphWalk_depth d h start, mem_graphWalk_iff d, ?_, ?_⟩
  · intro order horder start id
    exact mem_walk_iff_reaches d (fun a b => (horder a b).trans mem_walkSuccessors.symm) start id
  · intro first rest hsteps hid
    exact ⟨fun s hs hsid => unreachable_reported hsteps hid hs hsid, noEnd_reported hsteps hid⟩

/-- Two steps that wait for each other, and one that nothing leads to. -/
def waitingSteps : WorkflowDefinition :=
  { id := "w", name := "w",
    steps :=
      [{ id := "a", name := "a", type := .wait, nextStep := "b" },
       { id := "b", name := "b", type := .wait, nextStep := "a" },
       { id := "c", name := "c", type := .endStep }] }

theorem graphWalk_exact_waitingSteps :
    graphWalk waitingSteps 7 "a" [] = graphWalk waitingSteps 4 "a" [] ∧
      (unreachableError "c" ∈ validate waitingSteps ↔ ¬ Reaches waitingSteps "a" "c") :=
  ⟨(graphWalk_exact waitingSteps).1 "a" 7 (by decide),
    ((graphWalk_exact waitingSteps).2.2.2 _ _ rfl (by decide)).1
      { id := "c", name := "c", type := .endStep } (by simp [waitingSteps]) (by decide)⟩

/-- A list whose first step has no id. -/
def namelessFirst : WorkflowDefinition :=
  { id := "w", name := "w",
    steps :=
      [{ id := "", name := "a", type := .wait, nextStep := "" },
       { id := "b", name := "b", type := .wait, nextStep := "b" }] }

/-- Without an id of the first step no path leads to a step or to an `END`, and
    neither is reported. -/
theorem nameless_first_not_walked :
    ¬ Reaches namelessFirst "" "b" ∧ unreachableError "b" ∉ validate namelessFirst ∧
      (¬ ∃ id s, Reaches namelessFirst "" id ∧ stepByID namelessFirst id = some s ∧
        s.type = .endStep) ∧ noEndError ∉ validate namelessFirst := by
  have hwalk : graphWalk namelessFirst 3 "" [] = [""] := by decide
  refine ⟨?_, by decide, ?_, by decide⟩
  · rw [← mem_graphWalk_iff]
    decide
  · rintro ⟨id, s, hreach, hs, htype⟩
    rw [← mem_graphWalk_iff] at hreach
    obtain rfl : id = "" := by
      rw [show graphWalk namelessFirst (namelessFirst.steps.length + 1) "" [] = [""] from hwalk]
        at hreach
      exact List.mem_singleton.mp hreach
    rw [show stepByID namelessFirst "" = none by rfl] at hs
    cases hs

end Rochallor
