import Mathlib.Data.List.Chain

/-! # Keyed logs

    A log of writes to many registers, oldest first, each under the key of the
    register it writes.  `Log.of k` is the history of one register; an entry
    appended to the log extends that history only.
-/

namespace Log

variable {α : Type u} {κ : Type v} [DecidableEq κ]

/-- The entries under one key. -/
def of (key : α → κ) (k : κ) (log : List α) : List α :=
  log.filter fun e => decide (key e = k)

/-- The last entry under a key. -/
def last (key : α → κ) (k : κ) (log : List α) : Option α :=
  (of key k log).getLast?

variable {key : α → κ} {k : κ} {log : List α} {e : α}

theorem of_append_same (h : key e = k) : of key k (log ++ [e]) = of key k log ++ [e] := by
  simp [of, h]

theorem of_append_other (h : key e ≠ k) : of key k (log ++ [e]) = of key k log := by
  simp [of, h]

theorem last_append_same (h : key e = k) : last key k (log ++ [e]) = some e := by
  simp [last, of_append_same h]

theorem last_append_other (h : key e ≠ k) : last key k (log ++ [e]) = last key k log := by
  simp [last, of_append_other h]

theorem last_mem (h : last key k log = some e) : e ∈ log ∧ key e = k := by
  have hmem := List.mem_of_getLast? h
  simpa [of] using hmem

/-- An entry that follows the last one extends the chain of its register and
    leaves the others alone. -/
theorem isChain_append {R : α → α → Prop} (h : ∀ k, (of key k log).IsChain R)
    (hR : ∀ e₀ ∈ last key (key e) log, R e₀ e) (k : κ) :
    (of key k (log ++ [e])).IsChain R := by
  by_cases hk : key e = k
  · subst hk
    rw [of_append_same rfl, List.isChain_append]
    refine ⟨h _, by simp, ?_⟩
    intro x hx y hy
    obtain rfl : e = y := by simpa using hy
    exact hR x hx
  · rw [of_append_other hk]
    exact h k

end Log
