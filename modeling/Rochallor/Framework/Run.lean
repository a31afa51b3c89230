import Mathlib.Data.List.Basic

/-! # Runs

    A run applies a list of inputs to a state, one after another.  The rules
    here carry an invariant, or an invariant of the state and of the outputs
    so far, along a run whose inputs all meet a guard in the state that
    receives them; and compare the outputs of two runs.
-/

namespace Run

variable {σ : Type u} {τ : Type u'} {ι : Type v} {ω : Type w}

/-- The state after the inputs. -/
def after (step : σ → ι → σ) (s : σ) (inputs : List ι) : σ :=
  inputs.foldl step s

/-- Every input meets `G` in the state that receives it. -/
def Guarded (step : σ → ι → σ) (G : σ → ι → Prop) : σ → List ι → Prop
  | _, [] => True
  | s, i :: rest => G s i ∧ Guarded step G (step s i) rest

instance decidableGuarded {step : σ → ι → σ} {G : σ → ι → Prop} [∀ s i, Decidable (G s i)] :
    ∀ s inputs, Decidable (Guarded step G s inputs)
  | _, [] => isTrue trivial
  | s, i :: rest =>
    @instDecidableAnd (G s i) _ _ (decidableGuarded (step s i) rest)

/-- What the inputs bring about, in order. -/
def outputs (step : σ → ι → σ) (out : σ → ι → List ω) : σ → List ι → List ω
  | _, [] => []
  | s, i :: rest => out s i ++ outputs step out (step s i) rest

variable {step : σ → ι → σ} {out : σ → ι → List ω} {G : σ → ι → Prop}

@[simp] theorem after_nil (s : σ) : after step s [] = s := rfl

@[simp] theorem after_cons (s : σ) (i : ι) (rest : List ι) :
    after step s (i :: rest) = after step (step s i) rest := rfl

theorem after_append (s : σ) (xs ys : List ι) :
    after step s (xs ++ ys) = after step (after step s xs) ys := by
  simp [after]

theorem outputs_append (s : σ) (xs ys : List ι) :
    outputs step out s (xs ++ ys) = outputs step out s xs ++ outputs step out (after step s xs) ys := by
  induction xs generalizing s with
  | nil => rfl
  | cons i rest ih => simp [outputs, ih]

theorem map_outputs {ω' : Type w'} (f : ω → ω') (s : σ) (inputs : List ι) :
    (outputs step out s inputs).map f = outputs step (fun s i => (out s i).map f) s inputs := by
  induction inputs generalizing s with
  | nil => rfl
  | cons i rest ih => simp [outputs, ih]

theorem Guarded.mono {G' : σ → ι → Prop} (h : ∀ s i, G s i → G' s i) {s : σ} {inputs : List ι}
    (hg : Guarded step G s inputs) : Guarded step G' s inputs := by
  induction inputs generalizing s with
  | nil => trivial
  | cons i rest ih => exact ⟨h _ _ hg.1, ih hg.2⟩

theorem guarded_true (s : σ) (inputs : List ι) : Guarded step (fun _ _ => True) s inputs := by
  induction inputs generalizing s with
  | nil => trivial
  | cons i rest ih => exact ⟨trivial, ih _⟩

/-- The invariant rule. -/
theorem invariant {I : σ → Prop} (hstep : ∀ s i, I s → G s i → I (step s i)) {s : σ}
    {inputs : List ι} (hI : I s) (hg : Guarded step G s inputs) : I (after step s inputs) := by
  induction inputs generalizing s with
  | nil => exact hI
  | cons i rest ih => exact ih (hstep s i hI hg.1) hg.2

/-- The invariant rule with a history: `I` relates the state to the outputs so
    far. -/
theorem history {I : σ → List ω → Prop}
    (hstep : ∀ s h i, I s h → G s i → I (step s i) (h ++ out s i)) {s : σ} {h : List ω}
    {inputs : List ι} (hI : I s h) (hg : Guarded step G s inputs) :
    I (after step s inputs) (h ++ outputs step out s inputs) := by
  induction inputs generalizing s h with
  | nil => simpa [outputs] using hI
  | cons i rest ih =>
    have := ih (hstep s h i hI hg.1) hg.2
    simpa [outputs, List.append_assoc] using this

/-- Simulation by silent inputs.  The inputs `silent` picks bring nothing
    about and keep the two runs related; the other inputs, given to both, do
    the same in both.  Then leaving the silent inputs out changes no output. -/
theorem outputs_filter {step' : τ → ι → τ} {out' : τ → ι → List ω} {silent : ι → Bool}
    {R : σ → τ → Prop}
    (hsilent : ∀ s t i, R s t → silent i = true → R (step s i) t ∧ out s i = [])
    (hboth : ∀ s t i, R s t → silent i = false →
      R (step s i) (step' t i) ∧ out s i = out' t i)
    {s : σ} {t : τ} (inputs : List ι) (hR : R s t) :
    outputs step out s inputs =
      outputs step' out' t (inputs.filter fun i => !silent i) := by
  induction inputs generalizing s t with
  | nil => rfl
  | cons i rest ih =>
    cases hs : silent i with
    | true =>
      obtain ⟨hR', ho⟩ := hsilent s t i hR hs
      simp [outputs, hs, ho, ih hR']
    | false =>
      obtain ⟨hR', ho⟩ := hboth s t i hR hs
      simp [outputs, hs, ho, ih hR']

end Run
