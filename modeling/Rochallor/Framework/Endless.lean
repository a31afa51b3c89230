import Mathlib.Order.OrderIsoNat
import Rochallor.Framework.Run

/-! # Endless runs

    A run that never stops has a state for every number of inputs.  A count
    that only grows and is bounded comes to rest; and when each of finitely many
    things happens sooner or later and stays so, there is a time at which all of
    them have happened.
-/

namespace Run

variable {σ : Type u} {ι : Type v} {step : σ → ι → σ} {s : σ} {inputs : Nat → ι}

/-- The state after the first `n` inputs. -/
def stateAt (step : σ → ι → σ) (s : σ) (inputs : Nat → ι) (n : Nat) : σ :=
  after step s ((List.range n).map inputs)

theorem stateAt_succ (n : Nat) :
    stateAt step s inputs (n + 1) = step (stateAt step s inputs n) (inputs n) := by
  unfold stateAt
  rw [List.range_succ, List.map_append, after_append]
  rfl

/-- A relation that holds across every step holds across any number of them. -/
theorem stateAt_rel {R : σ → σ → Prop} (hrefl : ∀ s, R s s)
    (htrans : ∀ {a b c}, R a b → R b c → R a c)
    (hstep : ∀ n, R (stateAt step s inputs n) (stateAt step s inputs (n + 1))) {m n : Nat}
    (h : m ≤ n) : R (stateAt step s inputs m) (stateAt step s inputs n) := by
  induction n, h using Nat.le_induction with
  | base => exact hrefl _
  | succ n _ ih => exact htrans ih (hstep n)

/-- A bounded count that never falls comes to rest. -/
theorem exists_rest {f : Nat → Nat} (hmono : ∀ n, f n ≤ f (n + 1)) {bound : Nat}
    (hle : ∀ n, f n ≤ bound) : ∃ n, ∀ m, n ≤ m → f m = f n := by
  let g : ℕ →o Fin (bound + 1) :=
    ⟨fun n => ⟨f n, Nat.lt_succ_of_le (hle n)⟩, fun _ _ h => monotone_nat_of_le_succ hmono h⟩
  obtain ⟨n, hn⟩ := WellFoundedGT.monotone_chain_condition g
  exact ⟨n, fun m hm => (congrArg Fin.val (hn m hm)).symm⟩

/-- Finitely many things that each happen, and stay so, have all happened at some time. -/
theorem all_happen {α : Type w} {P : α → Nat → Prop}
    (hstay : ∀ a k m, k ≤ m → P a k → P a m) (n : Nat) {l : List α}
    (h : ∀ a ∈ l, ∃ m, n ≤ m ∧ P a m) : ∃ m, n ≤ m ∧ ∀ a ∈ l, P a m := by
  induction l with
  | nil => exact ⟨n, Nat.le_refl n, fun a ha => (List.not_mem_nil ha).elim⟩
  | cons a rest ih =>
    obtain ⟨k, hk, ha⟩ := h a (List.mem_cons_self ..)
    obtain ⟨m, hm, hrest⟩ := ih fun b hb => h b (List.mem_cons_of_mem _ hb)
    refine ⟨max k m, by omega, fun b hb => ?_⟩
    rcases List.mem_cons.mp hb with rfl | hb
    · exact hstay b k _ (Nat.le_max_left ..) ha
    · exact hstay b m _ (Nat.le_max_right ..) (hrest b hb)

end Run
