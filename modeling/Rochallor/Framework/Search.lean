import Mathlib.Data.List.Basic
import Mathlib.Algebra.BigOperators.Group.List.Basic
import Mathlib.Algebra.GroupWithZero.Nat
import Mathlib.Logic.Relation

/-! # Graph searches

    Two ways to mark what can be reached in a graph given by its successor
    lists: a recursive depth-first walk, and a loop over a stack.  Both carry a
    bound, and with a large enough one each marks exactly what a path leads to.
-/

namespace Search

variable {α : Type u}

open Relation (ReflTransGen)

/-- An edge of the graph. -/
def Edge (succ : α → List α) (a b : α) : Prop :=
  b ∈ succ a

/-- What has been marked since `visited` has its successors marked too. -/
def Closed (succ : α → List α) (visited marked : List α) : Prop :=
  ∀ a ∈ marked, a ∉ visited → ∀ b ∈ succ a, b ∈ marked

/-- Everything reachable from a marked start is marked. -/
theorem Closed.reachable {succ : α → List α} {marked : List α} (h : Closed succ [] marked) {a b : α}
    (ha : a ∈ marked) (hab : ReflTransGen (Edge succ) a b) : b ∈ marked := by
  induction hab with
  | refl => exact ha
  | tail _ hedge ih => exact h _ ih (by simp) _ hedge

/-! ## The recursive walk -/

variable [DecidableEq α]

/-- Marks everything in reach of `a`, going down at most `depth` edges. -/
def walk (succ : α → List α) : Nat → α → List α → List α
  | 0, _, visited => visited
  | depth + 1, a, visited =>
    if visited.contains a then visited
    else (succ a).foldl (fun acc b => walk succ depth b acc) (a :: visited)

section Walk

variable {succ : α → List α}

theorem subset_foldl_walk {depth : Nat} (h : ∀ a visited, visited ⊆ walk succ depth a visited)
    (bs visited : List α) : visited ⊆ bs.foldl (fun acc b => walk succ depth b acc) visited := by
  induction bs generalizing visited with
  | nil => exact List.Subset.refl _
  | cons b rest ih =>
    intro x hx
    exact ih _ (h b visited hx)

variable (succ) in
theorem subset_walk (depth : Nat) : ∀ a visited, visited ⊆ walk succ depth a visited := by
  induction depth with
  | zero => exact fun _ _ => List.Subset.refl _
  | succ depth ih =>
    intro a visited
    rw [walk]
    split
    · exact List.Subset.refl _
    · intro x hx
      exact subset_foldl_walk ih _ _ (List.mem_cons_of_mem a hx)

/-- Only what a path leads to is marked. -/
theorem walk_sound (depth : Nat) : ∀ a visited, ∀ b ∈ walk succ depth a visited,
    b ∈ visited ∨ ReflTransGen (Edge succ) a b := by
  induction depth with
  | zero => exact fun _ _ b hb => .inl hb
  | succ depth ih =>
    intro a visited b hb
    rw [walk] at hb
    split at hb
    · exact .inl hb
    · have hfold : ∀ bs acc : List α, (∀ c ∈ bs, Edge succ a c) →
          ∀ b ∈ bs.foldl (fun acc c => walk succ depth c acc) acc,
            b ∈ acc ∨ ReflTransGen (Edge succ) a b := by
        intro bs
        induction bs with
        | nil => exact fun acc _ b hb => .inl hb
        | cons c rest ihrest =>
          intro acc hbs b hb
          rcases ihrest _ (fun d hd => hbs d (List.mem_cons_of_mem c hd)) b hb with hb | hb
          · rcases ih c acc b hb with hb | hb
            · exact .inl hb
            · exact .inr (.head (hbs c (List.mem_cons_self ..)) hb)
          · exact .inr hb
      rcases hfold (succ a) (a :: visited) (fun c hc => hc) b hb with hb | hb
      · rcases List.mem_cons.mp hb with rfl | hb
        · exact .inr .refl
        · exact .inl hb
      · exact .inr hb

/-- How many of the nodes are not marked yet. -/
def unmarked (nodes visited : List α) : Nat :=
  (nodes.filter fun a => !visited.contains a).length

theorem unmarked_le {nodes visited visited' : List α} (h : visited ⊆ visited') :
    unmarked nodes visited' ≤ unmarked nodes visited := by
  refine List.Sublist.length_le (List.monotone_filter_right nodes fun a ha => ?_)
  have hnot : a ∉ visited' := by simpa using ha
  simpa using fun hmem => hnot (h hmem)

theorem unmarked_cons {nodes visited : List α} {a : α} (ha : a ∈ nodes) (hnew : a ∉ visited) :
    unmarked nodes (a :: visited) < unmarked nodes visited := by
  have hsub : (nodes.filter fun b => !(a :: visited).contains b).Sublist
      (nodes.filter fun b => !visited.contains b) := by
    refine List.monotone_filter_right nodes fun b hb => ?_
    have hnot : b ∉ a :: visited := by simpa using hb
    simpa using fun hmem => hnot (List.mem_cons_of_mem a hmem)
  refine Nat.lt_of_le_of_ne hsub.length_le fun heq => ?_
  have hmem : a ∈ nodes.filter fun b => !visited.contains b :=
    List.mem_filter.mpr ⟨ha, by simpa using hnew⟩
  rw [← hsub.eq_of_length heq] at hmem
  simpa using (List.mem_filter.mp hmem).2

/-- With a level for each node that is not marked yet, the walk marks its start
    and leaves no successor of what it has marked out.  The nodes are those
    that have successors. -/
theorem walk_closed {nodes : List α} (hnodes : ∀ a, succ a ≠ [] → a ∈ nodes) (depth : Nat) :
    ∀ a visited, unmarked nodes visited < depth →
      a ∈ walk succ depth a visited ∧ Closed succ visited (walk succ depth a visited) := by
  induction depth with
  | zero => exact fun _ _ h => absurd h (Nat.not_lt_zero _)
  | succ depth ih =>
    intro a visited hdepth
    rw [walk]
    split
    · rename_i hmem
      exact ⟨by simpa using hmem, fun b hb hnot => absurd hb hnot⟩
    · rename_i hnew
      have hnew' : a ∉ visited := by simpa using hnew
      -- the successors one after another, each from what the others have marked
      have hfold : ∀ bs acc : List α, unmarked nodes acc < depth ∨ bs = [] →
          (∀ b ∈ bs, b ∈ bs.foldl (fun acc c => walk succ depth c acc) acc) ∧
            Closed succ acc (bs.foldl (fun acc c => walk succ depth c acc) acc) := by
        intro bs
        induction bs with
        | nil => exact fun acc _ => ⟨by simp, fun b hb hnot => absurd hb hnot⟩
        | cons b rest ihrest =>
          intro acc hacc
          have hlt : unmarked nodes acc < depth := hacc.resolve_right (by simp)
          have hsub := subset_walk succ depth b acc
          obtain ⟨hmark, hclosed⟩ := ih b acc hlt
          obtain ⟨hrest, hclosed'⟩ := ihrest (walk succ depth b acc)
            (.inl (Nat.lt_of_le_of_lt (unmarked_le hsub) hlt))
          have hkeep := subset_foldl_walk (subset_walk succ depth) rest
            (walk succ depth b acc)
          refine ⟨?_, ?_⟩
          · intro c hc
            rcases List.mem_cons.mp hc with rfl | hc
            · exact hkeep hmark
            · exact hrest c hc
          · intro c hc hnot d hd
            by_cases hold : c ∈ walk succ depth b acc
            · exact hkeep (hclosed c hold hnot d hd)
            · exact hclosed' c hc hold d hd
      have hbound : unmarked nodes (a :: visited) < depth ∨ succ a = [] := by
        by_cases hnil : succ a = []
        · exact .inr hnil
        · have := unmarked_cons (hnodes a hnil) hnew'
          exact .inl (by omega)
      obtain ⟨hsucc, hclosed⟩ := hfold (succ a) (a :: visited) hbound
      have hkeep := subset_foldl_walk (subset_walk succ depth) (succ a) (a :: visited)
      refine ⟨hkeep (List.mem_cons_self ..), ?_⟩
      intro b hb hnot c hc
      by_cases hba : b = a
      · subst hba
        exact hsucc c hc
      · exact hclosed b hb (by simp [hba, hnot]) c hc

/-- Above a level for each node that is not marked yet, the depth does not
    matter. -/
theorem walk_depth {nodes : List α} (hnodes : ∀ a, succ a ≠ [] → a ∈ nodes) {depth depth' : Nat}
    {a : α} {visited : List α} (h : unmarked nodes visited < depth)
    (h' : unmarked nodes visited < depth') :
    walk succ depth a visited = walk succ depth' a visited := by
  induction depth generalizing depth' a visited with
  | zero => exact absurd h (Nat.not_lt_zero _)
  | succ depth ih =>
    cases depth' with
    | zero => exact absurd h' (Nat.not_lt_zero _)
    | succ depth' =>
      rw [walk, walk]
      split
      · rfl
      · rename_i hnew
        have hfold : ∀ bs acc : List α,
            bs = [] ∨ unmarked nodes acc < depth ∧ unmarked nodes acc < depth' →
            bs.foldl (fun acc b => walk succ depth b acc) acc =
              bs.foldl (fun acc b => walk succ depth' b acc) acc := by
          intro bs
          induction bs with
          | nil => exact fun acc _ => rfl
          | cons b rest ihrest =>
            intro acc hacc
            obtain ⟨hlt, hlt'⟩ := hacc.resolve_left (by simp)
            have hle : unmarked nodes (walk succ depth' b acc) ≤ unmarked nodes acc :=
              unmarked_le (subset_walk succ depth' b acc)
            rw [List.foldl_cons, List.foldl_cons, ih hlt hlt']
            exact ihrest _ (.inr ⟨by omega, by omega⟩)
        refine hfold (succ a) (a :: visited) ?_
        by_cases hnil : succ a = []
        · exact .inl hnil
        · have hlt := unmarked_cons (hnodes a hnil) (by simpa using hnew : a ∉ visited)
          exact .inr ⟨by omega, by omega⟩

/-- With a level for every node and one more, a walk from nothing marks exactly
    what can be reached. -/
theorem mem_walk_iff {nodes : List α} (hnodes : ∀ a, succ a ≠ [] → a ∈ nodes) {a b : α} :
    b ∈ walk succ (nodes.length + 1) a [] ↔ ReflTransGen (Edge succ) a b := by
  constructor
  · intro hb
    exact (walk_sound _ a [] b hb).resolve_left (by simp)
  · intro hab
    have hle : unmarked nodes [] ≤ nodes.length := List.length_filter_le ..
    obtain ⟨hstart, hclosed⟩ := walk_closed hnodes (nodes.length + 1) a [] (by omega)
    exact hclosed.reachable hstart hab

end Walk

/-! ## The loop -/

/-- Works off a stack: what is popped is passed over if it is to be skipped or
    is marked, else it is marked and its unmarked successors are pushed. -/
def loop (succ : α → List α) (skip : α → Bool) : Nat → List α → List α → List α
  | 0, _, visited => visited
  | _ + 1, [], visited => visited
  | fuel + 1, a :: stack, visited =>
    if skip a || visited.contains a then loop succ skip fuel stack visited
    else
      loop succ skip fuel
        (((succ a).filter fun b => !(visited ++ [a]).contains b).reverse ++ stack) (visited ++ [a])

section Loop

variable {succ : α → List α} {skip : α → Bool}

/-- The edges the loop follows: between nodes it does not skip. -/
def LoopEdge (succ : α → List α) (skip : α → Bool) (a b : α) : Prop :=
  Edge succ a b ∧ skip b = false

/-- Only what a path from the stack leads to is marked. -/
theorem loop_sound {fuel : Nat} {stack visited : List α} {b : α}
    (h : b ∈ loop succ skip fuel stack visited) :
    b ∈ visited ∨ ∃ a ∈ stack, skip a = false ∧ ReflTransGen (LoopEdge succ skip) a b := by
  induction fuel generalizing stack visited with
  | zero => exact .inl h
  | succ fuel ih =>
    cases stack with
    | nil => exact .inl h
    | cons a stack =>
      rw [loop] at h
      split at h
      · rcases ih h with h | ⟨c, hc, hpath⟩
        · exact .inl h
        · exact .inr ⟨c, List.mem_cons_of_mem a hc, hpath⟩
      · rename_i hnew
        have hskip : skip a = false := by
          cases hs : skip a with
          | false => rfl
          | true => simp [hs] at hnew
        rcases ih h with h | ⟨c, hc, hcskip, hpath⟩
        · rcases List.mem_append.mp h with h | h
          · exact .inl h
          · obtain rfl := List.mem_singleton.mp h
            exact .inr ⟨b, List.mem_cons_self .., hskip, .refl⟩
        · rcases List.mem_append.mp hc with hc | hc
          · have hedge : c ∈ succ a := List.mem_of_mem_filter (List.mem_reverse.mp hc)
            exact .inr ⟨a, List.mem_cons_self .., hskip, .head ⟨hedge, hcskip⟩ hpath⟩
          · exact .inr ⟨c, List.mem_cons_of_mem a hc, hcskip, hpath⟩

/-- The edges that leave the nodes that are not marked yet. -/
def pushable (succ : α → List α) (nodes visited : List α) : Nat :=
  ((nodes.filter fun a => !visited.contains a).map fun a => (succ a).length).sum

theorem pushable_cons (nodes : List α) {visited : List α} {a : α}
    (hnodes : succ a ≠ [] → a ∈ nodes) (hnew : a ∉ visited) :
    (succ a).length + pushable succ nodes (visited ++ [a]) ≤ pushable succ nodes visited := by
  unfold pushable
  have hsplit : ∀ ns : List α,
      (if a ∈ ns then (succ a).length else 0) +
        ((ns.filter fun b => !(visited ++ [a]).contains b).map fun b => (succ b).length).sum ≤
        ((ns.filter fun b => !visited.contains b).map fun b => (succ b).length).sum := by
    intro ns
    induction ns with
    | nil => simp
    | cons b rest ih =>
      by_cases hb : b = a
      · subst hb
        have hrest : ((rest.filter fun c => !(visited ++ [b]).contains c).map
            fun c => (succ c).length).sum ≤
            ((rest.filter fun c => !visited.contains c).map fun c => (succ c).length).sum := by
          omega
        simpa [hnew] using hrest
      · have hmem : (a ∈ b :: rest) ↔ a ∈ rest := by simp [Ne.symm hb]
        by_cases hvis : b ∈ visited
        · simp only [hmem, List.filter_cons]
          simpa [hvis, hb] using ih
        · simp only [hmem, List.filter_cons]
          simp only [List.contains_eq_mem, List.mem_append, hvis, List.mem_singleton, hb, or_self,
            decide_false, Bool.not_false, if_true, List.map_cons, List.sum_cons] at ih ⊢
          omega
  by_cases hnil : succ a = []
  · have := hsplit nodes
    simp only [hnil, List.length_nil] at this ⊢
    split at this <;> omega
  · have := hsplit nodes
    rwa [if_pos (hnodes hnil)] at this

/-- With fuel for the stack and for every edge that can still be pushed, the
    loop marks the whole stack, up to what it skips, and leaves no successor of
    what it has marked out. -/
theorem loop_closed {nodes : List α} (hnodes : ∀ a, succ a ≠ [] → a ∈ nodes) {fuel : Nat} :
    ∀ {stack visited : List α}, stack.length + pushable succ nodes visited ≤ fuel →
      visited ⊆ loop succ skip fuel stack visited ∧
      (∀ a ∈ stack, skip a = false → a ∈ loop succ skip fuel stack visited) ∧
      ∀ a ∈ loop succ skip fuel stack visited, a ∉ visited →
        ∀ b ∈ succ a, skip b = false → b ∈ loop succ skip fuel stack visited := by
  induction fuel with
  | zero =>
    intro stack visited hfuel
    have hnil : stack = [] := List.length_eq_zero_iff.mp (by omega)
    subst hnil
    exact ⟨List.Subset.refl _, by simp, fun a ha hnot => absurd ha hnot⟩
  | succ fuel ih =>
    intro stack visited hfuel
    cases stack with
    | nil => exact ⟨List.Subset.refl _, by simp, fun a ha hnot => absurd ha hnot⟩
    | cons a stack =>
      rw [List.length_cons] at hfuel
      rw [loop]
      split
      · rename_i hpass
        obtain ⟨hkeep, hstack, hsucc⟩ := @ih stack visited (by omega)
        refine ⟨hkeep, ?_, hsucc⟩
        intro b hb hskip
        rcases List.mem_cons.mp hb with rfl | hb
        · have hvis : b ∈ visited := by simpa [hskip] using hpass
          exact hkeep hvis
        · exact hstack b hb hskip
      · rename_i hnew
        have hnot : a ∉ visited := by
          intro hmem
          exact hnew (by simp [hmem])
        have hpush := pushable_cons nodes (hnodes a) hnot
        have hfilter := List.length_filter_le (fun b => !(visited ++ [a]).contains b) (succ a)
        obtain ⟨hkeep, hstack, hsucc⟩ := @ih
          (((succ a).filter fun b => !(visited ++ [a]).contains b).reverse ++ stack)
          (visited ++ [a]) (by rw [List.length_append, List.length_reverse]; omega)
        refine ⟨fun b hb => hkeep (List.mem_append_left _ hb), ?_, ?_⟩
        · intro b hb hskip
          rcases List.mem_cons.mp hb with rfl | hb
          · exact hkeep (by simp)
          · exact hstack b (List.mem_append_right _ hb) hskip
        · intro b hb hbnot c hc hskip
          by_cases hba : b = a
          · subst hba
            by_cases hmarked : c ∈ visited ++ [b]
            · exact hkeep hmarked
            · refine hstack c (List.mem_append_left _ (List.mem_reverse.mpr ?_)) hskip
              exact List.mem_filter.mpr ⟨hc, by simpa using hmarked⟩
          · exact hsucc b hb (by simp [hba, hbnot]) c hc hskip

/-- With enough fuel, the loop from a stack with nothing marked marks exactly
    what can be reached. -/
theorem mem_loop_iff {nodes : List α} (hnodes : ∀ a, succ a ≠ [] → a ∈ nodes) {fuel : Nat}
    {stack : List α} (hfuel : stack.length + (nodes.map fun a => (succ a).length).sum ≤ fuel) {b : α} :
    b ∈ loop succ skip fuel stack [] ↔
      ∃ a ∈ stack, skip a = false ∧ ReflTransGen (LoopEdge succ skip) a b := by
  constructor
  · intro hb
    exact (loop_sound hb).resolve_left (by simp)
  · rintro ⟨a, ha, hskip, hab⟩
    obtain ⟨-, hstack, hsucc⟩ := @loop_closed α _ succ skip nodes hnodes fuel stack []
      (by simpa [pushable] using hfuel)
    induction hab with
    | refl => exact hstack a ha hskip
    | tail _ hedge ih => exact hsucc _ ih (by simp) _ hedge.1 hedge.2

/-- A loop over renamed nodes marks the renamed nodes. -/
theorem loop_map {β : Type v} [DecidableEq β] {f : α → β} (hf : Function.Injective f)
    {succ' : β → List β} {skip' : β → Bool} (hsucc : ∀ a, succ' (f a) = (succ a).map f)
    (hskip : ∀ a, skip' (f a) = skip a) (fuel : Nat) (stack visited : List α) :
    loop succ' skip' fuel (stack.map f) (visited.map f) =
      (loop succ skip fuel stack visited).map f := by
  have hcontains : ∀ (xs : List α) (a : α), (xs.map f).contains (f a) = xs.contains a := by
    intro xs a
    simp only [List.contains_eq_mem, List.mem_map_of_injective hf]
  induction fuel generalizing stack visited with
  | zero => rfl
  | succ fuel ih =>
    cases stack with
    | nil => rfl
    | cons a stack =>
      rw [List.map_cons, loop, loop, hskip, hcontains]
      by_cases hpass : (skip a || visited.contains a) = true
      · rw [if_pos hpass, if_pos hpass]
        exact ih stack visited
      · rw [if_neg hpass, if_neg hpass]
        have hmarked : visited.map f ++ [f a] = (visited ++ [a]).map f := by
          rw [List.map_append, List.map_singleton]
        have hfilter : (fun b => !((visited ++ [a]).map f).contains b) ∘ f =
            fun b => !(visited ++ [a]).contains b :=
          funext fun b => congrArg (!·) (hcontains (visited ++ [a]) b)
        rw [hsucc, hmarked, List.filter_map, hfilter, ← List.map_reverse, ← List.map_append, ih]

end Loop

end Search
