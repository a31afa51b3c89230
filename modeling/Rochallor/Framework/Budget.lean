import Mathlib.Algebra.BigOperators.Group.List.Basic
import Mathlib.Algebra.Ring.Nat

/-! # Traversals with a budget

    Trees are visited with a stack.  The visit gives up at the first node that
    is one too many or too deep, and already when those on the stack are too
    many to be visited.  So it goes through exactly when all the nodes of the
    trees are within the limit, and none of them is too deep.
-/

namespace Budget

variable {α : Type u}

/-- Works off a stack of nodes with their depths.  `expand` gives the children
    of an inner node and nothing for a leaf. -/
def visit (expand : α → Option (List α)) (maxNodes maxDepth : Nat) :
    Nat → List (α × Nat) → Nat → Bool
  | 0, _, _ => false
  | _ + 1, [], _ => true
  | fuel + 1, (a, depth) :: pending, visited =>
    if maxNodes < visited + 1 ∨ maxDepth < depth then false
    else
      match expand a with
      | none => visit expand maxNodes maxDepth fuel pending (visited + 1)
      | some children =>
        if maxNodes < children.length + pending.length + (visited + 1) then false
        else
          visit expand maxNodes maxDepth fuel
            ((children.map fun child => (child, depth + 1)).reverse ++ pending) (visited + 1)

/-- The number of nodes of a tree, and the depth of its deepest node. -/
structure Measures (expand : α → Option (List α)) (size height : α → Nat) : Prop where
  size_leaf : ∀ a, expand a = none → size a = 1
  size_node : ∀ a children, expand a = some children → size a = (children.map size).sum + 1
  height_leaf : ∀ a, expand a = none → height a = 0
  height_node : ∀ a children, expand a = some children →
    ∀ n, height a ≤ n ↔ ∀ child ∈ children, height child < n

section

variable {expand : α → Option (List α)} {size height : α → Nat}

theorem Measures.size_pos (h : Measures expand size height) (a : α) : 0 < size a := by
  cases hexpand : expand a with
  | none =>
    have := h.size_leaf a hexpand
    omega
  | some children =>
    have := h.size_node a children hexpand
    omega

/-- The nodes of the trees on the stack. -/
def total (size : α → Nat) (pending : List (α × Nat)) : Nat :=
  (pending.map fun p => size p.1).sum

/-- Every tree on the stack counts for one node at least. -/
theorem Measures.length_le (h : Measures expand size height) (pending : List (α × Nat)) :
    pending.length ≤ total size pending := by
  induction pending with
  | nil => exact Nat.le_refl 0
  | cons p rest ih =>
    have hpos := h.size_pos p.1
    simp only [total, List.map_cons, List.sum_cons, List.length_cons] at ih ⊢
    omega

theorem total_cons (p : α × Nat) (pending : List (α × Nat)) :
    total size (p :: pending) = size p.1 + total size pending := by
  simp [total]

/-- Pushing the children of a node counts the nodes below it. -/
theorem total_children (children : List α) (depth : Nat) (pending : List (α × Nat)) :
    total size ((children.map fun child => (child, depth)).reverse ++ pending) =
      (children.map size).sum + total size pending := by
  unfold total
  rw [List.map_append, List.sum_append, List.map_reverse, List.sum_reverse, List.map_map]
  rfl

/-- With fuel for one node more than allowed, the visit goes through exactly
    when what is left on the stack is within the limits. -/
theorem visit_iff (h : Measures expand size height) {maxNodes maxDepth fuel : Nat}
    {pending : List (α × Nat)} {visited : Nat} (hvisited : visited ≤ maxNodes)
    (hfuel : maxNodes < visited + fuel) :
    visit expand maxNodes maxDepth fuel pending visited = true ↔
      visited + total size pending ≤ maxNodes ∧ ∀ p ∈ pending, p.2 + height p.1 ≤ maxDepth := by
  induction fuel generalizing pending visited with
  | zero => omega
  | succ fuel ih =>
    cases pending with
    | nil =>
      simp only [visit, true_iff]
      exact ⟨by simpa [total] using hvisited, by simp⟩
    | cons p pending =>
      obtain ⟨a, depth⟩ := p
      have hpos : 0 < size a := h.size_pos a
      rw [total_cons, List.forall_mem_cons]
      show _ ↔ visited + (size a + total size pending) ≤ maxNodes ∧ depth + height a ≤ maxDepth ∧ _
      rw [visit]
      by_cases hover : maxNodes < visited + 1 ∨ maxDepth < depth
      · rw [if_pos hover]
        refine iff_of_false Bool.false_ne_true fun hin => ?_
        omega
      · rw [if_neg hover]
        cases hexpand : expand a with
        | none =>
          have hsize := h.size_leaf a hexpand
          have hheight := h.height_leaf a hexpand
          show visit expand maxNodes maxDepth fuel pending (visited + 1) = true ↔ _
          rw [ih (by omega) (by omega)]
          constructor
          · rintro ⟨hcount, hdepth⟩
            exact ⟨by omega, by omega, hdepth⟩
          · rintro ⟨hcount, -, hdepth⟩
            exact ⟨by omega, hdepth⟩
        | some children =>
          have hsize := h.size_node a children hexpand
          have hheight := h.height_node a children hexpand (maxDepth - depth)
          have hlength := h.length_le ((children.map fun child => (child, depth + 1)).reverse ++ pending)
          rw [total_children] at hlength
          simp only [List.length_append, List.length_reverse, List.length_map] at hlength
          show (if _ then false else visit expand maxNodes maxDepth fuel _ (visited + 1)) = true ↔ _
          by_cases hmany : maxNodes < children.length + pending.length + (visited + 1)
          · rw [if_pos hmany]
            refine iff_of_false Bool.false_ne_true fun hin => ?_
            omega
          · rw [if_neg hmany, ih (by omega) (by omega), total_children]
            -- a child is within the depth exactly if its parent is
            have hbelow : depth + height a ≤ maxDepth ↔
                ∀ child ∈ children, depth + 1 + height child ≤ maxDepth := by
              rw [show depth + height a ≤ maxDepth ↔ height a ≤ maxDepth - depth by omega, hheight]
              refine forall₂_congr fun child _ => ?_
              omega
            rw [hbelow]
            constructor
            · rintro ⟨hcount, hdepth⟩
              refine ⟨by omega, fun child hchild => ?_, fun p hp => ?_⟩
              · exact hdepth (child, depth + 1)
                  (List.mem_append_left _ (List.mem_reverse.mpr (List.mem_map_of_mem hchild)))
              · exact hdepth p (List.mem_append_right _ hp)
            · rintro ⟨hcount, hchildren, hdepth⟩
              refine ⟨by omega, fun p hp => ?_⟩
              rcases List.mem_append.mp hp with hp | hp
              · obtain ⟨child, hchild, rfl⟩ := List.mem_map.mp (List.mem_reverse.mp hp)
                exact hchildren child hchild
              · exact hdepth p hp

end

end Budget
