import Mathlib.Data.List.Basic
import Mathlib.Data.List.Range

/-! # Numbering

    Entries that are numbered under their keys: 1, 2, … in the order in which
    they were entered.  The next number may be computed from an old view of the
    entries, as long as a number that is taken is refused: what is left is the
    number after the last.
-/

namespace Numbering

variable {κ : Type u} [DecidableEq κ]

/-- The numbers under a key, in the order of the entries. -/
def under (k : κ) (t : List (κ × Int)) : List Int :=
  (t.filter fun e => decide (e.1 = k)).map (·.2)

/-- Under every key the numbers are 1, 2, … in order. -/
def Numbered (t : List (κ × Int)) : Prop :=
  ∀ k, under k t = (List.range (under k t).length).map fun i : Nat => (i : Int) + 1

variable {t : List (κ × Int)} {k : κ} {v : Int}

@[simp] theorem under_nil : under k [] = [] := rfl

theorem under_append_same : under k (t ++ [(k, v)]) = under k t ++ [v] := by
  simp [under]

theorem under_append_other {k' : κ} (h : k ≠ k') : under k' (t ++ [(k, v)]) = under k' t := by
  simp [under, h]

theorem mem_under : v ∈ under k t ↔ (k, v) ∈ t := by
  simp [under]

theorem Numbered.nil : Numbered ([] : List (κ × Int)) := fun _ => rfl

theorem Numbered.mem_iff (h : Numbered t) : (k, v) ∈ t ↔ 1 ≤ v ∧ v ≤ (under k t).length := by
  rw [← mem_under, h k, List.mem_map, List.length_map, List.length_range]
  constructor
  · rintro ⟨i, hi, rfl⟩
    have := List.mem_range.mp hi
    omega
  · rintro ⟨hpos, hle⟩
    exact ⟨(v - 1).toNat, List.mem_range.mpr (by omega), by omega⟩

/-- A number at most one above the last, and not taken, is the next one. -/
theorem Numbered.next (h : Numbered t) (hpos : 1 ≤ v) (hle : v ≤ (under k t).length + 1)
    (hfree : (k, v) ∉ t) : v = (under k t).length + 1 := by
  rw [h.mem_iff] at hfree
  omega

theorem Numbered.insert (h : Numbered t) (hpos : 1 ≤ v) (hle : v ≤ (under k t).length + 1)
    (hfree : (k, v) ∉ t) : Numbered (t ++ [(k, v)]) := by
  intro k'
  by_cases hk : k = k'
  · subst hk
    have hv := h.next hpos hle hfree
    rw [under_append_same, List.length_append, List.length_singleton, List.range_succ,
      List.map_append, ← h k, List.map_singleton, ← hv]
  · rw [under_append_other hk]
    exact h k'

/-- An entry only adds to the numbers. -/
theorem length_under_append (e : κ × Int) : (under k t).length ≤ (under k (t ++ [e])).length := by
  simp [under]

end Numbering
