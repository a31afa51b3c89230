import Mathlib.Algebra.Order.BigOperators.Group.List
import Rochallor.Framework.Halting

/-! # What an item is worth

    Where no item leads back to itself, every item can be given a worth that
    exceeds what it leads to.  Whoever handles an item and pays with its worth
    for the items it leads to, now or later, has one unit left.
-/

/-! ## Sums over lists -/

namespace List

variable {α : Type u}

/-- A sum whose terms do not grow, and one of which falls by `n`. -/
theorem sum_map_add_le {f g : α → Nat} {n : Nat} {l : List α} (hle : ∀ a ∈ l, f a ≤ g a) {a : α}
    (ha : a ∈ l) (hfall : f a + n ≤ g a) : (l.map f).sum + n ≤ (l.map g).sum := by
  induction l with
  | nil => cases ha
  | cons b rest ih =>
    simp only [List.map_cons, List.sum_cons]
    have hb := hle b (List.mem_cons_self ..)
    rcases List.mem_cons.mp ha with rfl | ha
    · have hrest : (rest.map f).sum ≤ (rest.map g).sum :=
        List.sum_le_sum fun c hc => hle c (List.mem_cons_of_mem _ hc)
      omega
    · have hrest := ih (fun c hc => hle c (List.mem_cons_of_mem _ hc)) ha
      omega

/-- Some items of a list, each at most as often as there, have a smaller sum. -/
theorem Subperm.sum_map_le {f : α → Nat} {l l' : List α} (h : l.Subperm l') :
    (l.map f).sum ≤ (l'.map f).sum := by
  obtain ⟨m, hperm, hsub⟩ := h
  rw [← (hperm.map f).sum_eq]
  exact (hsub.map f).sum_le_sum fun _ _ => Nat.zero_le _

end List

/-! ## Worth -/

namespace Agenda

variable {α : Type u}

/-- Every item is worth more than all it leads to. -/
def Worth (succ : α → List α) (w : α → Nat) : Prop :=
  ∀ a, ((succ a).map w).sum < w a

/-- Where no item leads back to itself, there is such a worth. -/
theorem exists_worth {succ : α → List α} {items : List α} (hitems : ∀ {a}, succ a ≠ [] → a ∈ items)
    (hacyclic : ∀ a, ¬ Relation.TransGen (fun a b => b ∈ succ a) a a) : ∃ w, Worth succ w := by
  have hwf : WellFounded fun b a => b ∈ succ a := by
    have hsource : ∀ {a b}, b ∈ succ a → a ∈ items := fun h => hitems (List.ne_nil_of_mem h)
    exact ⟨fun a => acc_of_acyclic hsource fun b _ => hacyclic b⟩
  -- one more than the worth of all successors
  let w : α → Nat := hwf.fix fun a ih => ((succ a).attach.map fun b => ih b.1 b.2).sum + 1
  refine ⟨w, fun a => ?_⟩
  have hw : w a = ((succ a).attach.map fun b => w b.1).sum + 1 := hwf.fix_eq ..
  have hmap : (succ a).attach.map (fun b => w b.1) = (succ a).map w := List.attach_map_val ..
  rw [hw, hmap]
  exact Nat.lt_succ_self _

end Agenda
