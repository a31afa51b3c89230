import Mathlib.Data.List.Basic

/-! # Agendas

    A step takes a state and an item of work and returns the new state with the
    items it goes on to.  `Agenda.run` makes the steps depth first, and
    `Agenda.trace` lists the steps it makes.  This is how a recursive procedure
    whose recursive calls are all tail positions of a loop runs: its call stack
    is the list of items still pending.
-/

namespace Agenda

variable {τ : Type u} {α : Type v} {ε : Type w}

/-- Works the agenda off.  What a step goes on to comes before what was
    already pending, and the first error stops everything.  `stuck` is the
    answer when more than `fuel` steps are needed. -/
def run (step : τ → α → Except ε (τ × List α)) (stuck : ε) : Nat → τ → List α → Except ε τ
  | _, t, [] => .ok t
  | 0, _, _ :: _ => .error stuck
  | fuel + 1, t, a :: pending =>
    match step t a with
    | .error e => .error e
    | .ok (t', next) => run step stuck fuel t' (next ++ pending)

/-- One step of a run: the state it found, its item, and what was left. -/
structure Made (τ : Type u) (α : Type v) where
  before : τ
  item : α
  pending : List α

/-- The steps `run` makes, in order. -/
def trace (step : τ → α → Except ε (τ × List α)) : Nat → τ → List α → List (Made τ α)
  | _, _, [] => []
  | 0, _, _ :: _ => []
  | fuel + 1, t, a :: pending =>
    ⟨t, a, pending⟩ ::
      match step t a with
      | .error _ => []
      | .ok (t', next) => trace step fuel t' (next ++ pending)

section Rules

variable {step : τ → α → Except ε (τ × List α)} {stuck : ε}

/-- A run that ends well has made its first step and run the rest. -/
theorem run_cons {fuel : Nat} {t t' : τ} {a : α} {pending : List α}
    (h : run step stuck fuel t (a :: pending) = .ok t') :
    ∃ n t₁ next, fuel = n + 1 ∧ step t a = .ok (t₁, next) ∧
      run step stuck n t₁ (next ++ pending) = .ok t' := by
  cases fuel with
  | zero => simp [run] at h
  | succ n =>
    rw [run] at h
    split at h
    · cases h
    · rename_i t₁ next hstep
      exact ⟨n, t₁, next, rfl, hstep, h⟩

theorem trace_cons {n : Nat} {t t₁ : τ} {a : α} {pending next : List α}
    (h : step t a = .ok (t₁, next)) :
    trace step (n + 1) t (a :: pending) =
      ⟨t, a, pending⟩ :: trace step n t₁ (next ++ pending) := by
  rw [trace, h]

/-- A step that returns an error is the end of the run. -/
theorem run_of_error {fuel : Nat} {t : τ} {agenda : List α} {m : Made τ α} {e : ε}
    (hm : m ∈ trace step fuel t agenda) (he : step m.before m.item = .error e) :
    run step stuck fuel t agenda = .error e := by
  induction fuel generalizing t agenda with
  | zero =>
    cases agenda with
    | nil => simp [trace] at hm
    | cons a pending => simp [trace] at hm
  | succ n ih =>
    cases agenda with
    | nil => simp [trace] at hm
    | cons a pending =>
      rw [trace] at hm
      rw [run]
      rcases List.mem_cons.mp hm with rfl | hm
      · rw [he]
      · cases hs : step t a with
        | error e' => simp [hs] at hm
        | ok r =>
          rw [hs] at hm
          exact ih hm

/-- The invariant rule.  `J` speaks of the state and the pending items, and
    each step made may be assumed to meet `G`. -/
theorem run_invariant {J : τ → List α → Prop} {G : Made τ α → Prop}
    (hstep : ∀ t a pending t' next, J t (a :: pending) → G ⟨t, a, pending⟩ →
      step t a = .ok (t', next) → J t' (next ++ pending)) :
    ∀ {fuel : Nat} {t t' : τ} {agenda : List α}, J t agenda →
      (∀ m ∈ trace step fuel t agenda, G m) →
      run step stuck fuel t agenda = .ok t' → J t' [] := by
  intro fuel
  induction fuel with
  | zero =>
    intro t t' agenda hJ _ h
    cases agenda with
    | nil =>
      rw [run] at h
      cases h
      exact hJ
    | cons a pending => simp [run] at h
  | succ n ih =>
    intro t t' agenda hJ hG h
    cases agenda with
    | nil =>
      rw [run] at h
      cases h
      exact hJ
    | cons a pending =>
      obtain ⟨m, t₁, next, hm, hs, hrun⟩ := run_cons h
      obtain rfl : n = m := by omega
      rw [trace_cons hs] at hG
      have hG₁ := hG _ (List.mem_cons_self ..)
      have hJ₁ := hstep t a pending t₁ next hJ hG₁ hs
      exact ih hJ₁ (fun m hm => hG m (List.mem_cons_of_mem _ hm)) hrun

/-- Under the same rule, `J` holds wherever a step is made. -/
theorem trace_invariant {J : τ → List α → Prop} {G : Made τ α → Prop}
    (hstep : ∀ t a pending t' next, J t (a :: pending) → G ⟨t, a, pending⟩ →
      step t a = .ok (t', next) → J t' (next ++ pending)) :
    ∀ {fuel : Nat} {t : τ} {agenda : List α}, J t agenda →
      (∀ m ∈ trace step fuel t agenda, G m) →
      ∀ m ∈ trace step fuel t agenda, J m.before (m.item :: m.pending) := by
  intro fuel
  induction fuel with
  | zero =>
    intro t agenda _ _ m hm
    cases agenda with
    | nil => simp [trace] at hm
    | cons a pending => simp [trace] at hm
  | succ n ih =>
    intro t agenda hJ hG m hm
    cases agenda with
    | nil => simp [trace] at hm
    | cons a pending =>
      rw [trace] at hm hG
      rcases List.mem_cons.mp hm with rfl | hm'
      · exact hJ
      · have hG₁ := hG _ (List.mem_cons_self ..)
        cases hs : step t a with
        | error e => simp [hs] at hm'
        | ok r =>
          obtain ⟨t₁, next⟩ := r
          simp only [hs] at hm' hG
          exact ih (hstep t a pending t₁ next hJ hG₁ hs)
            (fun m hm => hG m (List.mem_cons_of_mem _ hm)) m hm'

/-- The invariant rule with a history: `J` relates the state and the pending
    items to the steps made so far. -/
theorem run_history {J : τ → List α → List (Made τ α) → Prop}
    (hstep : ∀ t a pending t' next made, J t (a :: pending) made → step t a = .ok (t', next) →
      J t' (next ++ pending) (made ++ [⟨t, a, pending⟩])) :
    ∀ {fuel : Nat} {t t' : τ} {agenda : List α} {made : List (Made τ α)}, J t agenda made →
      run step stuck fuel t agenda = .ok t' → J t' [] (made ++ trace step fuel t agenda) := by
  intro fuel
  induction fuel with
  | zero =>
    intro t t' agenda made hJ h
    cases agenda with
    | nil =>
      rw [run] at h
      cases h
      simpa [trace] using hJ
    | cons a pending => simp [run] at h
  | succ n ih =>
    intro t t' agenda made hJ h
    cases agenda with
    | nil =>
      rw [run] at h
      cases h
      simpa [trace] using hJ
    | cons a pending =>
      obtain ⟨m, t₁, next, hm, hs, hrun⟩ := run_cons h
      obtain rfl : n = m := by omega
      have hJ₁ := ih (hstep t a pending t₁ next made hJ hs) hrun
      rw [trace_cons hs]
      rwa [List.append_assoc, List.singleton_append] at hJ₁

variable {τ' : Type u'} {step' : τ' → α → Except ε (τ' × List α)} {φ : τ → τ'} {Q : τ → Prop}

/-- Simulation by a function: if the steps agree along `φ` wherever the
    invariant `Q` holds, so do the runs. -/
theorem run_map
    (hstep : ∀ t a, Q t → step' (φ t) a = (step t a).map fun r => (φ r.1, r.2))
    (hQ : ∀ t a t' next, Q t → step t a = .ok (t', next) → Q t') :
    ∀ {fuel : Nat} {t : τ} {agenda : List α}, Q t →
      run step' stuck fuel (φ t) agenda = (run step stuck fuel t agenda).map φ := by
  intro fuel
  induction fuel with
  | zero =>
    intro t agenda _
    cases agenda with
    | nil => rfl
    | cons a pending => rfl
  | succ n ih =>
    intro t agenda h
    cases agenda with
    | nil => rfl
    | cons a pending =>
      rw [run, run, hstep t a h]
      cases hs : step t a with
      | error e => rfl
      | ok r => exact ih (hQ t a r.1 r.2 h hs)

/-- And so do the steps they make. -/
theorem trace_map
    (hstep : ∀ t a, Q t → step' (φ t) a = (step t a).map fun r => (φ r.1, r.2))
    (hQ : ∀ t a t' next, Q t → step t a = .ok (t', next) → Q t') :
    ∀ {fuel : Nat} {t : τ} {agenda : List α}, Q t →
      trace step' fuel (φ t) agenda =
        (trace step fuel t agenda).map fun m => ⟨φ m.before, m.item, m.pending⟩ := by
  intro fuel
  induction fuel with
  | zero =>
    intro t agenda _
    cases agenda with
    | nil => rfl
    | cons a pending => rfl
  | succ n ih =>
    intro t agenda h
    cases agenda with
    | nil => rfl
    | cons a pending =>
      rw [trace, trace, hstep t a h, List.map_cons]
      cases hs : step t a with
      | error e => rfl
      | ok r => exact congrArg _ (ih (hQ t a r.1 r.2 h hs))

end Rules

end Agenda
