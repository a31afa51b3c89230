import Rochallor.Framework.Run

/-! # Passes over a listing

    A background worker lists what there is to do and then takes the items one
    by one: each gets one call, and an error is noted and does not stop the
    pass.  Other processes act before every turn, and one of them may be
    holding the item, so that the turn passes without a call.

    What the listing promised is therefore not what a turn finds.  The rule
    here says what is left of it at the end of the pass.
-/

namespace Sweep

variable {σ : Type u} {ι : Type v} {ε : Type w}

/-- One item's turn. -/
structure Turn (ι : Type v) where
  /-- The calls of other processes since the last turn. -/
  meanwhile : List ι
  /-- The call for the item, unless another process holds it. -/
  call : Option ι

variable (perform : σ → ι → σ × Option ε)

/-- The state when the turn comes. -/
def atTurn (s : σ) (turn : Turn ι) : σ :=
  Run.after (fun s i => (perform s i).1) s turn.meanwhile

/-- The state after the turn. -/
def afterTurn (s : σ) (turn : Turn ι) : σ :=
  match turn.call with
  | none => atTurn perform s turn
  | some i => (perform (atTurn perform s turn) i).1

/-- The state after the pass. -/
def after (s : σ) (turns : List (Turn ι)) : σ :=
  turns.foldl (afterTurn perform) s

/-- What the calls of the pass have answered. -/
def outcomes : σ → List (Turn ι) → List (ι × Option ε)
  | _, [] => []
  | s, turn :: rest =>
    (turn.call.toList.map fun i => (i, (perform (atTurn perform s turn) i).2)) ++
      outcomes (afterTurn perform s turn) rest

/-- The first error of the pass. -/
def firstError (s : σ) (turns : List (Turn ι)) : Option ε :=
  (outcomes perform s turns).findSome? (·.2)

section Outcomes

theorem after_cons (s : σ) (turn : Turn ι) (rest : List (Turn ι)) :
    after perform s (turn :: rest) = after perform (afterTurn perform s turn) rest := rfl

/-- Every item that is not held gets its call. -/
theorem outcomes_calls (s : σ) (turns : List (Turn ι)) :
    (outcomes perform s turns).map (·.1) = turns.filterMap (·.call) := by
  induction turns generalizing s with
  | nil => rfl
  | cons turn rest ih =>
    rw [outcomes, List.map_append, ih]
    cases hc : turn.call with
    | none => simp [hc]
    | some i => simp [hc]

variable {perform}

theorem firstError_none {s : σ} {turns : List (Turn ι)} (h : firstError perform s turns = none)
    {o : ι × Option ε} (ho : o ∈ outcomes perform s turns) : o.2 = none :=
  List.findSome?_eq_none_iff.mp h o ho

end Outcomes

/-! ## The rule -/

section Rule

variable {perform} {I : σ → Prop} {L D : ι → σ → Prop}

/-- What a call keeps, a turn keeps. -/
theorem afterTurn_keeps (hI : ∀ s i, I s → I (perform s i).1) {s : σ} (hs : I s) (turn : Turn ι) :
    I (atTurn perform s turn) ∧ I (afterTurn perform s turn) := by
  have hmeanwhile : I (atTurn perform s turn) :=
    Run.invariant (G := fun _ _ => True) (fun s i hs _ => hI s i hs) hs (Run.guarded_true _ _)
  refine ⟨hmeanwhile, ?_⟩
  unfold afterTurn
  split
  · exact hmeanwhile
  · exact hI _ _ hmeanwhile

theorem after_keeps (hI : ∀ s i, I s → I (perform s i).1) {s : σ} (hs : I s)
    (turns : List (Turn ι)) : I (after perform s turns) := by
  induction turns generalizing s with
  | nil => exact hs
  | cons turn rest ih => exact ih (afterTurn_keeps hI hs turn).2

/-- At the end of a pass every item whose call has answered without an error
    is done: being listed (`L`) lasts until the call, the call does the item,
    and being done (`D`) lasts. -/
theorem settled (hI : ∀ s i, I s → I (perform s i).1)
    (hlisted : ∀ s i c, I s → L c s → L c (perform s i).1)
    (hdone : ∀ s i c, I s → D c s → D c (perform s i).1)
    {turns : List (Turn ι)}
    (hcall : ∀ s, ∀ turn ∈ turns, ∀ c, turn.call = some c → I s → L c s →
      (perform s c).2 = none → D c (perform s c).1)
    {s : σ} (hs : I s) (hall : ∀ turn ∈ turns, ∀ c, turn.call = some c → L c s) :
    ∀ c, (c, none) ∈ outcomes perform s turns → D c (after perform s turns) := by
  induction turns generalizing s with
  | nil => exact fun c hc => absurd hc List.not_mem_nil
  | cons turn rest ih =>
    intro c hc
    have hIturn := afterTurn_keeps hI hs turn
    -- what is listed is still listed when the turn comes, and afterwards
    have hboth : ∀ c, L c s →
        L c (atTurn perform s turn) ∧ L c (afterTurn perform s turn) := by
      intro c hc
      have h := afterTurn_keeps (I := fun s => I s ∧ L c s)
        (fun s i hs => ⟨hI s i hs.1, hlisted s i c hs.1 hs.2⟩) ⟨hs, hc⟩ turn
      exact ⟨h.1.2, h.2.2⟩
    rw [outcomes] at hc
    rw [after_cons]
    rcases List.mem_append.mp hc with hc | hc
    · obtain ⟨i, hi, heq⟩ := List.mem_map.mp hc
      have hturn : turn.call = some i := Option.mem_toList.mp hi
      obtain ⟨rfl, hanswer⟩ := Prod.mk.inj heq
      have hlist := (hboth i (hall turn (List.mem_cons_self ..) i hturn)).1
      have hdone' : D i (afterTurn perform s turn) := by
        unfold afterTurn
        rw [hturn]
        exact hcall _ turn (List.mem_cons_self ..) i hturn hIturn.1 hlist hanswer
      exact (after_keeps (I := fun s => I s ∧ D i s)
        (fun s i' hs => ⟨hI s i' hs.1, hdone s i' i hs.1 hs.2⟩) ⟨hIturn.2, hdone'⟩ rest).2
    · refine ih ?_ hIturn.2 ?_ c hc
      · exact fun s turn' hmem => hcall s turn' (List.mem_cons_of_mem _ hmem)
      · exact fun turn' hmem c hc =>
          (hboth c (hall turn' (List.mem_cons_of_mem _ hmem) c hc)).2

end Rule

end Sweep
