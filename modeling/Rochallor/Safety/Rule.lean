import Rochallor.Instance.Opening

/-! # The invariant rule for transactions

    An invariant of the committed tables has a form `I` between calls and a
    form `J` inside a transaction, which may also speak of the in-memory
    instance and of the dispatches still pending.  `TxInvariant` lists what has
    to be shown: the opening of every operation leads from `I` to `J` (or
    commits with `I`), a dispatch keeps `J`, and `J` with nothing pending gives
    `I`.  The rest of the module derives what follows for a call and for a run.
-/

namespace Rochallor

/-- A plan leaves the tables to commit in `I`, or the dispatches in `J`. -/
def Plan.Establishes (I : Db → Prop) (J : WorkflowDefinition → Tx → List StepId → Prop) :
    Plan → Prop
  | .commit db _ => I db
  | .dispatch d tx steps => J d tx steps
  | .chain d tx steps _ => J d tx steps

/-- `I` and `J` are invariant as long as calls meet `C` and dispatches meet
    `G`.  `I₀` and `J₀` are already known to hold. -/
structure TxInvariant (svc : Service) (I₀ : Db → Prop)
    (J₀ : WorkflowDefinition → Tx → List StepId → Prop) (C : Db → Call → Prop)
    (G : Dispatch → Prop) (I : Db → Prop)
    (J : WorkflowDefinition → Tx → List StepId → Prop) : Prop where
  opening : ∀ {db op now p} (fuel : Nat), I₀ db → I db → C db ⟨op, now, fuel⟩ →
    Opened svc now db op p → p.Establishes I J
  step : ∀ {now d tx step pending tx' next}, J₀ d tx (step.id :: pending) →
    J d tx (step.id :: pending) → G ⟨now, d, tx, step.id, pending⟩ →
    findStep d step.id = some step → Dispatched svc now d tx step tx' next →
    J d tx' (next ++ pending)
  closing : ∀ {d tx}, J₀ d tx [] → J d tx [] → I tx.db
  acknowledge : ∀ {db source child}, I db → I (db.completeWorkflowChain source child)

namespace TxInvariant

variable {svc : Service} {I₀ : Db → Prop} {J₀ : WorkflowDefinition → Tx → List StepId → Prop}
  {C : Db → Call → Prop} {G : Dispatch → Prop} {I : Db → Prop}
  {J : WorkflowDefinition → Tx → List StepId → Prop}

/-- An invariant relative to an unconditional one holds together with it. -/
theorem and (h₀ : TxInvariant svc (fun _ => True) (fun _ _ _ => True) (fun _ _ => True)
      (fun _ => True) I₀ J₀) (h : TxInvariant svc I₀ J₀ C G I J) :
    TxInvariant svc (fun _ => True) (fun _ _ _ => True) C G (fun db => I₀ db ∧ I db)
      (fun d tx pending => J₀ d tx pending ∧ J d tx pending) where
  opening := by
    intro db op now p fuel _ hI hC hop
    have h₁ := h₀.opening fuel trivial hI.1 trivial hop
    have h₂ := h.opening fuel hI.1 hI.2 hC hop
    cases p with
    | commit db reply => exact ⟨h₁, h₂⟩
    | dispatch d tx steps => exact ⟨h₁, h₂⟩
    | chain d tx steps source => exact ⟨h₁, h₂⟩
  step := by
    intro now d tx step pending tx' next _ hJ hG hfind hdisp
    exact ⟨h₀.step trivial hJ.1 trivial hfind hdisp, h.step hJ.1 hJ.2 hG hfind hdisp⟩
  closing := fun _ hJ => ⟨h₀.closing trivial hJ.1, h.closing hJ.1 hJ.2⟩
  acknowledge := fun hI => ⟨h₀.acknowledge hI.1, h.acknowledge hI.2⟩

/-- An invariant relative to a weaker one, where the tables ensure what it asks
    of a call. -/
theorem weaken {I₁ : Db → Prop} {J₁ : WorkflowDefinition → Tx → List StepId → Prop}
    (h : TxInvariant svc I₀ J₀ C G I J) (hI : ∀ {db}, I₁ db → I₀ db)
    (hJ : ∀ {d tx pending}, J₁ d tx pending → J₀ d tx pending)
    (hC : ∀ {db call}, I₁ db → C db call) : TxInvariant svc I₁ J₁ (fun _ _ => True) G I J where
  opening := fun fuel hI₁ hI' _ hop => h.opening fuel (hI hI₁) hI' (hC hI₁) hop
  step := fun hJ₁ hJ' hG hfind hdisp => h.step (hJ hJ₁) hJ' hG hfind hdisp
  closing := fun hJ₁ hJ' => h.closing (hJ hJ₁) hJ'
  acknowledge := h.acknowledge

section Absolute

variable (h : TxInvariant svc (fun _ => True) (fun _ _ _ => True) C G I J)

include h

/-- One dispatch, as the agenda sees it. -/
private theorem agenda_step (now : Time) (d : WorkflowDefinition) (tx : Tx) (stepID : StepId)
    (pending : List StepId) (tx' : Tx) (next : List StepId) (hJ : J d tx (stepID :: pending))
    (hG : G ⟨now, d, tx, stepID, pending⟩)
    (hs : dispatchStep svc now d tx stepID = .ok (tx', next)) : J d tx' (next ++ pending) := by
  obtain ⟨step, hfind, hdisp⟩ := dispatchStep_dispatched hs
  obtain rfl := findStep_id hfind
  exact h.step trivial hJ hG hfind hdisp

private theorem dispatchAll_closes {now : Time} {d : WorkflowDefinition} {fuel : Nat} {tx tx' : Tx}
    {steps : List StepId} (hJ : J d tx steps)
    (hG : ∀ m ∈ Agenda.trace (dispatchStep svc now d) fuel tx steps,
      G ⟨now, d, m.before, m.item, m.pending⟩)
    (hrun : dispatchAll svc now d fuel tx steps = .ok tx') : I tx'.db :=
  h.closing trivial (Agenda.run_invariant (J := J d)
    (G := fun m => G ⟨now, d, m.before, m.item, m.pending⟩)
    (fun t a pending t' next hJ hG hs => h.agenda_step now d t a pending t' next hJ hG hs)
    hJ hG hrun)

/-- The dispatches of a plan keep the invariant. -/
theorem settle {now : Time} {fuel : Nat} {p : Plan} {r : Db × Option EngineError}
    (hest : p.Establishes I J) (hG : ∀ x ∈ p.dispatches svc now fuel, G x)
    (hsettle : p.settle svc now fuel = .ok r) : I r.1 := by
  cases p with
  | commit db' reply =>
    cases hsettle
    exact hest
  | dispatch d tx steps =>
    obtain ⟨tx', hrun, hr⟩ := bind_eq_ok hsettle
    cases hr
    exact h.dispatchAll_closes hest (fun m hm => hG _ (List.mem_map_of_mem hm)) hrun
  | chain d tx steps source =>
    obtain ⟨tx', hrun, hr⟩ := bind_eq_ok hsettle
    cases hr
    exact h.acknowledge
      (h.dispatchAll_closes hest (fun m hm => hG _ (List.mem_map_of_mem hm)) hrun)

/-- A call keeps the invariant. -/
theorem apply {db : Db} {call : Call} (hI : I db) (hC : C db call)
    (hG : ∀ x ∈ dispatches svc db call, G x) : I (apply svc db call) := by
  unfold Rochallor.apply perform
  cases ht : transact svc db call with
  | error e => exact hI
  | ok r =>
    obtain ⟨p, hp, hsettle⟩ := bind_eq_ok ht
    have hest := h.opening call.fuel trivial hI hC (plan_opened hp)
    unfold dispatches at hG
    simp only [ht, hp] at hG
    exact h.settle hest hG hsettle

/-- Every dispatch a call attempts is made in `J`. -/
theorem at_attempt {db : Db} {call : Call} (hI : I db) (hC : C db call)
    (hG : ∀ x ∈ attempts svc db call, G x) :
    ∀ x ∈ attempts svc db call, J x.definition x.tx (x.stepID :: x.pending) := by
  unfold attempts at hG ⊢
  cases hp : plan svc call.now db call.op with
  | error e => simp
  | ok p =>
    have hest := h.opening call.fuel trivial hI hC (plan_opened hp)
    simp only [hp] at hG ⊢
    have key : ∀ d tx steps, J d tx steps →
        (∀ x ∈ (Agenda.trace (dispatchStep svc call.now d) call.fuel tx steps).map fun m =>
          (⟨call.now, d, m.before, m.item, m.pending⟩ : Dispatch), G x) →
        ∀ x ∈ (Agenda.trace (dispatchStep svc call.now d) call.fuel tx steps).map fun m =>
          (⟨call.now, d, m.before, m.item, m.pending⟩ : Dispatch),
          J x.definition x.tx (x.stepID :: x.pending) := by
      intro d tx steps hJ hG x hx
      obtain ⟨m, hm, rfl⟩ := List.mem_map.mp hx
      exact Agenda.trace_invariant (J := J d)
        (G := fun m => G ⟨call.now, d, m.before, m.item, m.pending⟩)
        (fun t a pending t' next hJ hG hs =>
          h.agenda_step call.now d t a pending t' next hJ hG hs)
        hJ (fun m hm => hG _ (List.mem_map_of_mem hm)) m hm
    cases p with
    | commit db' reply => simp [Plan.dispatches, Plan.agenda]
    | dispatch d tx steps => exact key d tx steps hest hG
    | chain d tx steps source => exact key d tx steps hest hG

/-- When the last dispatch of a call has returned, `J` holds with nothing
    pending. -/
theorem at_end {db : Db} {call : Call} {tx : Tx} (hI : I db) (hC : C db call)
    (hG : ∀ x ∈ attempts svc db call, G x) (htx : finalTx svc db call = some tx) :
    ∃ d, J d tx [] := by
  unfold finalTx at htx
  unfold attempts Plan.dispatches at hG
  cases hp : plan svc call.now db call.op with
  | error e => simp [hp] at htx
  | ok p =>
    have hest := h.opening call.fuel trivial hI hC (plan_opened hp)
    simp only [hp] at htx hG
    cases hag : p.agenda with
    | none => simp [hag] at htx
    | some x =>
      obtain ⟨d, tx₀, steps⟩ := x
      simp only [hag] at htx hG
      have hJ : J d tx₀ steps := by
        cases p with
        | commit db' reply => cases hag
        | dispatch d' tx' steps' =>
          cases hag
          exact hest
        | chain d' tx' steps' source =>
          cases hag
          exact hest
      have hrun : dispatchAll svc call.now d call.fuel tx₀ steps = .ok tx := by
        cases hr : dispatchAll svc call.now d call.fuel tx₀ steps with
        | error e =>
          rw [hr] at htx
          cases htx
        | ok tx' =>
          rw [hr] at htx
          cases htx
          rfl
      exact ⟨d, Agenda.run_invariant (J := J d)
        (G := fun m => G ⟨call.now, d, m.before, m.item, m.pending⟩)
        (fun t a pending t' next hJ hG hs => h.agenda_step call.now d t a pending t' next hJ hG hs)
        hJ (fun m hm => hG _ (List.mem_map_of_mem hm)) hrun⟩

/-- The calls of a run meet `C` and their dispatches meet `G`. -/
theorem run {calls : List Call} (h₀ : I {})
    (hg : Run.Guarded (Rochallor.apply svc)
      (fun db call => C db call ∧ ∀ x ∈ dispatches svc db call, G x) {} calls) :
    I (run svc calls) :=
  Run.invariant (fun _ _ hI hG => h.apply hI hG.1 hG.2) h₀ hg

end Absolute

end TxInvariant

/-! ## Histories -/

/-- `I` and `J` are invariant and speak of the dispatches committed so far as
    well.  `I₀` and `J₀` are already known to hold. -/
structure TxHistory (svc : Service) (I₀ : Db → Prop)
    (J₀ : WorkflowDefinition → Tx → List StepId → Prop) (I : Db → List Dispatch → Prop)
    (J : WorkflowDefinition → Tx → List Dispatch → Prop) : Prop where
  opening : ∀ {db op now p past}, I₀ db → I db past → Opened svc now db op p →
    p.Establishes (fun db => I db past) (fun d tx _ => J d tx past)
  step : ∀ {now d tx step pending tx' next past}, J₀ d tx (step.id :: pending) → J d tx past →
    findStep d step.id = some step → Dispatched svc now d tx step tx' next →
    J d tx' (past ++ [⟨now, d, tx, step.id, pending⟩])
  closing : ∀ {d tx past}, J₀ d tx [] → J d tx past → I tx.db past
  acknowledge : ∀ {db source child past}, I db past → I (db.completeWorkflowChain source child) past

namespace TxHistory

variable {svc : Service} {I₀ : Db → Prop} {J₀ : WorkflowDefinition → Tx → List StepId → Prop}
  {I : Db → List Dispatch → Prop} {J : WorkflowDefinition → Tx → List Dispatch → Prop}

private theorem dispatchAll_closes
    (h₀ : TxInvariant svc (fun _ => True) (fun _ _ _ => True) (fun _ _ => True) (fun _ => True)
      I₀ J₀) (h : TxHistory svc I₀ J₀ I J) {now : Time} {d : WorkflowDefinition} {fuel : Nat}
    {tx tx' : Tx} {steps : List StepId} {past : List Dispatch} (hJ₀ : J₀ d tx steps)
    (hJ : J d tx past) (hrun : dispatchAll svc now d fuel tx steps = .ok tx') :
    I tx'.db (past ++ (Agenda.trace (dispatchStep svc now d) fuel tx steps).map fun m =>
      ⟨now, d, m.before, m.item, m.pending⟩) := by
  let J' (tx : Tx) (pending : List StepId) (made : List (Agenda.Made Tx StepId)) : Prop :=
    J₀ d tx pending ∧ J d tx (past ++ made.map fun m => ⟨now, d, m.before, m.item, m.pending⟩)
  have hclosed : J' tx' [] ([] ++ Agenda.trace (dispatchStep svc now d) fuel tx steps) := by
    refine Agenda.run_history ?_ ⟨hJ₀, by simpa using hJ⟩ hrun
    intro t stepID pending t' next made hJ' hs
    obtain ⟨step, hfind, hdisp⟩ := dispatchStep_dispatched hs
    obtain rfl := findStep_id hfind
    have hJ := h.step hJ'.1 hJ'.2 hfind hdisp
    exact ⟨h₀.step trivial hJ'.1 trivial hfind hdisp, by simpa using hJ⟩
  exact h.closing hclosed.1 hclosed.2

/-- A call keeps the invariant and adds its dispatches to the history. -/
theorem apply
    (h₀ : TxInvariant svc (fun _ => True) (fun _ _ _ => True) (fun _ _ => True) (fun _ => True)
      I₀ J₀) (h : TxHistory svc I₀ J₀ I J) {db : Db} {past : List Dispatch} (hI₀ : I₀ db)
    (hI : I db past) (call : Call) :
    I (Rochallor.apply svc db call) (past ++ dispatches svc db call) := by
  unfold Rochallor.apply perform dispatches
  cases ht : transact svc db call with
  | error e => simpa using hI
  | ok r =>
    obtain ⟨p, hp, hsettle⟩ := bind_eq_ok ht
    simp only [hp]
    have hest₀ := h₀.opening call.fuel trivial hI₀ trivial (plan_opened hp)
    have hest := h.opening hI₀ hI (plan_opened hp)
    cases p with
    | commit db' reply =>
      cases hsettle
      have hI' : I db' past := hest
      simpa [Plan.dispatches, Plan.agenda] using hI'
    | dispatch d tx steps =>
      obtain ⟨tx', hrun, hr⟩ := bind_eq_ok hsettle
      cases hr
      exact dispatchAll_closes h₀ h hest₀ hest hrun
    | chain d tx steps source =>
      obtain ⟨tx', hrun, hr⟩ := bind_eq_ok hsettle
      cases hr
      exact h.acknowledge (dispatchAll_closes h₀ h hest₀ hest hrun)

/-- The dispatches of a run are its history. -/
theorem run
    (h₀ : TxInvariant svc (fun _ => True) (fun _ _ _ => True) (fun _ _ => True) (fun _ => True)
      I₀ J₀) (h : TxHistory svc I₀ J₀ I J) (hI₀ : I₀ {}) (hI : I {} []) (calls : List Call) :
    I (Rochallor.run svc calls) (runDispatches svc calls) := by
  have hrule : I₀ (Rochallor.run svc calls) ∧
      I (Rochallor.run svc calls) ([] ++ runDispatches svc calls) :=
    Run.history (I := fun db past => I₀ db ∧ I db past) (G := fun _ _ => True)
      (fun _ _ call hboth _ => ⟨h₀.apply hboth.1 trivial fun _ _ => trivial,
        h.apply h₀ hboth.1 hboth.2 call⟩)
      ⟨hI₀, hI⟩ (Run.guarded_true _ _)
  exact hrule.2

end TxHistory

end Rochallor
