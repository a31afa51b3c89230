import Mathlib.Logic.Equiv.Basic
import Rochallor.Framework.Search

/-! # Searching a graph for a cycle

    A depth-first search with three colours.  A node is white until the search
    enters it, gray while the search is below it, and black once all it leads to
    has been searched.  A gray target closes a cycle: it is pushed on a list the
    whole search shares, the node that led to it keeps its colour, and as soon
    as the list has an entry no further node is entered.

    The search carries a bound on its depth and runs out of it as `none`.  With
    a level for each node and one more it never does, and it finds an entry
    exactly when the graph has a cycle; the first entry then lies on one.
-/

namespace Search

open Relation (ReflTransGen TransGen)

variable {α : Type u}

/-- The edges between nodes: targets that are no nodes are ignored. -/
def NodeEdge (succ : α → List α) (nodes : List α) (a b : α) : Prop :=
  Edge succ a b ∧ b ∈ nodes

/-! ## The search -/

inductive Color where
  | white
  | gray
  | black
  deriving DecidableEq, Repr

/-- What the search carries: the colours of the nodes, and the targets it has
    found to close a cycle. -/
structure Marking (α : Type u) where
  color : α → Option Color
  onCycle : List α

variable [DecidableEq α]

def Marking.paint (m : Marking α) (a : α) (c : Color) : Marking α :=
  { m with color := Function.update m.color a (some c) }

/-- The loop over the targets of the node `a`, which is black after it. -/
def visitTargets (search : α → Marking α → Option (Marking α)) (a : α) :
    List α → Marking α → Option (Marking α)
  | [], m => some (m.paint a .black)
  | target :: rest, m =>
    match m.color target with
    | some .gray => some { m with onCycle := m.onCycle ++ [target] }
    | some .white => (search target m).bind (visitTargets search a rest)
    | _ => visitTargets search a rest m

/-- The search from a node, going down at most `depth` edges. -/
def dfs (succ : α → List α) : Nat → α → Marking α → Option (Marking α)
  | 0, _, _ => none
  | depth + 1, a, m =>
    if m.onCycle.isEmpty then visitTargets (dfs succ depth) a (succ a) (m.paint a .gray)
    else some m

/-- The searches from those of the nodes that are still white, until one finds
    a cycle. -/
def dfsAll (succ : α → List α) (depth : Nat) : List α → Marking α → Option (Marking α)
  | [], m => some m
  | a :: rest, m =>
    (if m.color a = some .white then dfs succ depth a m else some m).bind fun m' =>
      if m'.onCycle.isEmpty then dfsAll succ depth rest m' else some m'

/-- Every node is white. -/
def start (nodes : List α) : Marking α :=
  nodes.foldl (fun m a => m.paint a .white) { color := fun _ => none, onCycle := [] }

section Paint

variable (m : Marking α) (a : α) (c : Color)

@[simp] theorem paint_onCycle : (m.paint a c).onCycle = m.onCycle := rfl

@[simp] theorem paint_color_self : (m.paint a c).color a = some c := by
  simp [Marking.paint]

theorem paint_color {b : α} (h : b ≠ a) : (m.paint a c).color b = m.color b := by
  simp [Marking.paint, h]

end Paint

theorem start_color (nodes : List α) (a : α) :
    (start nodes).color a = if a ∈ nodes then some .white else none := by
  have hfold : ∀ (ns : List α) (m : Marking α),
      (ns.foldl (fun m a => m.paint a .white) m).color a =
        if a ∈ ns then some .white else m.color a := by
    intro ns
    induction ns with
    | nil => simp
    | cons b rest ih =>
      intro m
      rw [List.foldl_cons, ih]
      by_cases hab : a = b
      · subst hab
        simp
      · rw [paint_color m b .white hab]
        simp [hab]
  exact hfold nodes _

theorem start_onCycle (nodes : List α) : (start nodes).onCycle = [] := by
  have hfold : ∀ (ns : List α) (m : Marking α),
      (ns.foldl (fun m a => m.paint a .white) m).onCycle = m.onCycle := by
    intro ns
    induction ns with
    | nil => exact fun _ => rfl
    | cons b rest ih => exact fun m => ih (m.paint b .white)
  exact hfold nodes _

/-! ## The depth -/

section Depth

variable {succ : α → List α}

theorem visitTargets_mono {search search' : α → Marking α → Option (Marking α)}
    (hsearch : ∀ a m m', search a m = some m' → search' a m = some m') {a : α}
    {targets : List α} {m m' : Marking α} (h : visitTargets search a targets m = some m') :
    visitTargets search' a targets m = some m' := by
  induction targets generalizing m with
  | nil => exact h
  | cons target rest ih =>
    unfold visitTargets at h ⊢
    split at h
    · exact h
    · obtain ⟨m₁, hm₁, hrest⟩ := Option.bind_eq_some_iff.mp h
      exact Option.bind_eq_some_iff.mpr ⟨m₁, hsearch target m m₁ hm₁, ih hrest⟩
    · exact ih h

/-- A search that has ended ends the same way with more depth. -/
theorem dfs_mono {depth depth' : Nat} (hle : depth ≤ depth') {a : α} {m m' : Marking α}
    (h : dfs succ depth a m = some m') : dfs succ depth' a m = some m' := by
  induction depth generalizing depth' a m m' with
  | zero => cases h
  | succ depth ih =>
    obtain ⟨n, rfl⟩ : ∃ n, depth' = n + 1 := ⟨depth' - 1, by omega⟩
    unfold dfs at h ⊢
    by_cases hempty : m.onCycle.isEmpty = true
    · rw [if_pos hempty] at h ⊢
      exact visitTargets_mono (fun b m₁ m₂ => ih (by omega)) h
    · rw [if_neg hempty] at h ⊢
      exact h

theorem dfsAll_mono {depth depth' : Nat} (hle : depth ≤ depth') {starts : List α}
    {m m' : Marking α} (h : dfsAll succ depth starts m = some m') :
    dfsAll succ depth' starts m = some m' := by
  induction starts generalizing m with
  | nil => exact h
  | cons a rest ih =>
    unfold dfsAll at h ⊢
    obtain ⟨m₁, hm₁, hrest⟩ := Option.bind_eq_some_iff.mp h
    refine Option.bind_eq_some_iff.mpr ⟨m₁, ?_, ?_⟩
    · by_cases hwhite : m.color a = some .white
      · rw [if_pos hwhite] at hm₁ ⊢
        exact dfs_mono hle hm₁
      · rw [if_neg hwhite] at hm₁ ⊢
        exact hm₁
    · by_cases hempty : m₁.onCycle.isEmpty = true
      · rw [if_pos hempty] at hrest ⊢
        exact ih hrest
      · rw [if_neg hempty] at hrest ⊢
        exact hrest

/-- How many of the nodes are white. -/
def whites (nodes : List α) (m : Marking α) : Nat :=
  (nodes.filter fun a => m.color a = some .white).length

/-- No node has turned white. -/
def Marking.Later (m m' : Marking α) : Prop :=
  ∀ a, m'.color a = some .white → m.color a = some .white

omit [DecidableEq α] in
theorem Marking.Later.trans {m m₁ m₂ : Marking α} (h : m.Later m₁) (h' : m₁.Later m₂) :
    m.Later m₂ :=
  fun a ha => h a (h' a ha)

theorem later_paint (m : Marking α) (a : α) {c : Color} (hc : c ≠ .white) :
    m.Later (m.paint a c) := by
  intro b hb
  by_cases hba : b = a
  · subst hba
    rw [paint_color_self] at hb
    exact absurd (Option.some.inj hb) hc
  · rwa [paint_color m a c hba] at hb

omit [DecidableEq α] in
theorem whites_le (nodes : List α) {m m' : Marking α} (h : m.Later m') :
    whites nodes m' ≤ whites nodes m := by
  refine List.Sublist.length_le (List.monotone_filter_right nodes fun a ha => ?_)
  exact decide_eq_true (h a (of_decide_eq_true ha))

theorem whites_paint {nodes : List α} {m : Marking α} {a : α} (ha : a ∈ nodes)
    (hwhite : m.color a = some .white) : whites nodes (m.paint a .gray) < whites nodes m := by
  have hsub : (nodes.filter fun b => (m.paint a .gray).color b = some .white).Sublist
      (nodes.filter fun b => m.color b = some .white) :=
    List.monotone_filter_right nodes fun b hb =>
      decide_eq_true (later_paint m a (by decide) b (of_decide_eq_true hb))
  refine Nat.lt_of_le_of_ne hsub.length_le fun heq => ?_
  have hmem : a ∈ nodes.filter fun b => m.color b = some .white :=
    List.mem_filter.mpr ⟨ha, decide_eq_true hwhite⟩
  rw [← hsub.eq_of_length heq] at hmem
  simp at hmem

/-- Searches that end leave the loop over the targets with an end. -/
theorem visitTargets_ends {search : α → Marking α → Option (Marking α)} {P : Marking α → Prop}
    (hlater : ∀ m m', P m → m.Later m' → P m')
    (hsearch : ∀ b m, P m → m.color b = some .white →
      ∃ m', search b m = some m' ∧ m.Later m') (a : α) (targets : List α) {m : Marking α}
    (hm : P m) : ∃ m', visitTargets search a targets m = some m' ∧ m.Later m' := by
  induction targets generalizing m with
  | nil => exact ⟨_, rfl, later_paint m a (by decide)⟩
  | cons target rest ih =>
    unfold visitTargets
    split
    · exact ⟨_, rfl, fun _ h => h⟩
    · rename_i hwhite
      obtain ⟨m₁, hm₁, hlater₁⟩ := hsearch target m hm hwhite
      obtain ⟨m₂, hm₂, hlater₂⟩ := ih (hlater m m₁ hm hlater₁)
      exact ⟨m₂, by rw [hm₁, Option.bind_some, hm₂], hlater₁.trans hlater₂⟩
    · exact ih hm

/-- With a level for every white node and one more, a search ends. -/
theorem dfs_ends {nodes : List α} (depth : Nat) : ∀ (a : α) (m : Marking α),
    whites nodes m < depth → (∀ b, m.color b = some .white → b ∈ nodes) →
    m.color a = some .white → ∃ m', dfs succ depth a m = some m' ∧ m.Later m' := by
  induction depth with
  | zero => exact fun _ _ h => absurd h (Nat.not_lt_zero _)
  | succ depth ih =>
    intro a m hdepth hnodes ha
    unfold dfs
    by_cases hempty : m.onCycle.isEmpty = true
    · rw [if_pos hempty]
      have hgray := later_paint m a (c := .gray) (by decide)
      have hless := whites_paint (hnodes a ha) ha
      obtain ⟨m', hm', hlater⟩ := visitTargets_ends
        (P := fun m => whites nodes m < depth ∧ ∀ b, m.color b = some .white → b ∈ nodes)
        (fun m₁ m₂ h hl => ⟨by have := whites_le nodes hl; omega,
          fun b hb => h.2 b (hl b hb)⟩)
        (fun b m₁ h hb => ih b m₁ h.1 h.2 hb) a (succ a) (m := m.paint a .gray)
        ⟨by omega, fun b hb => hnodes b (hgray b hb)⟩
      exact ⟨m', hm', hgray.trans hlater⟩
    · rw [if_neg hempty]
      exact ⟨m, rfl, fun _ h => h⟩

theorem dfsAll_ends {nodes : List α} {depth : Nat} (starts : List α) (m : Marking α)
    (hdepth : whites nodes m < depth) (hnodes : ∀ b, m.color b = some .white → b ∈ nodes) :
    ∃ m', dfsAll succ depth starts m = some m' := by
  induction starts generalizing m with
  | nil => exact ⟨m, rfl⟩
  | cons a rest ih =>
    unfold dfsAll
    have hnext : ∃ m', (if m.color a = some .white then dfs succ depth a m else some m) = some m' ∧
        m.Later m' := by
      by_cases hwhite : m.color a = some .white
      · rw [if_pos hwhite]
        exact dfs_ends depth a m hdepth hnodes hwhite
      · rw [if_neg hwhite]
        exact ⟨m, rfl, fun _ h => h⟩
    obtain ⟨m₁, hm₁, hlater⟩ := hnext
    rw [hm₁, Option.bind_some]
    by_cases hempty : m₁.onCycle.isEmpty = true
    · rw [if_pos hempty]
      have hle := whites_le nodes hlater
      exact ih m₁ (by omega) fun b hb => hnodes b (hlater b hb)
    · rw [if_neg hempty]
      exact ⟨m₁, rfl⟩

end Depth

/-! ## What the search finds -/

section Finds

variable {succ : α → List α} {nodes : List α}

/-- The nodes are those with a colour, and nothing but black nodes follows a
    black one, on no cycle. -/
structure Marking.Sound (succ : α → List α) (nodes : List α) (m : Marking α) : Prop where
  colored : ∀ a, (m.color a).isSome ↔ a ∈ nodes
  closed : ∀ a b, m.color a = some .black → NodeEdge succ nodes a b → m.color b = some .black
  acyclic : ∀ a, m.color a = some .black → ¬ TransGen (NodeEdge succ nodes) a a

/-- The first entry lies on a cycle. -/
def Marking.Found (succ : α → List α) (nodes : List α) (m : Marking α) : Prop :=
  ∃ c, m.onCycle.head? = some c ∧ TransGen (NodeEdge succ nodes) c c

/-- A search that has found nothing has made its start black and has left what
    was gray and what was black as it was. -/
structure Finished (succ : α → List α) (nodes : List α) (m : Marking α) (a : α)
    (m' : Marking α) : Prop where
  onCycle : m'.onCycle = []
  sound : m'.Sound succ nodes
  start : m'.color a = some .black
  black : ∀ b, m.color b = some .black → m'.color b = some .black
  gray : ∀ b, b ≠ a → (m'.color b = some .gray ↔ m.color b = some .gray)

omit [DecidableEq α] in
/-- From a black node only black ones are reached. -/
theorem Marking.Sound.reaches {m : Marking α} (h : m.Sound succ nodes) {a b : α}
    (ha : m.color a = some .black) (hab : TransGen (NodeEdge succ nodes) a b) :
    m.color b = some .black := by
  induction hab with
  | single hedge => exact h.closed _ _ ha hedge
  | tail _ hedge ih => exact h.closed _ _ ih hedge

omit [DecidableEq α] in
/-- A node that is neither white nor gray is black. -/
theorem Marking.Sound.black_of {m : Marking α} (h : m.Sound succ nodes) {a : α} (ha : a ∈ nodes)
    (hwhite : m.color a ≠ some .white) (hgray : m.color a ≠ some .gray) :
    m.color a = some .black := by
  obtain ⟨c, hc⟩ := Option.isSome_iff_exists.mp ((h.colored a).mpr ha)
  cases c with
  | white => exact absurd hc hwhite
  | gray => exact absurd hc hgray
  | black => exact hc

theorem Marking.Sound.paint_gray {m : Marking α} (h : m.Sound succ nodes) {a : α}
    (ha : m.color a = some .white) : (m.paint a .gray).Sound succ nodes := by
  have hkeep : ∀ b, (m.paint a .gray).color b = some .black ↔ m.color b = some .black := by
    intro b
    by_cases hba : b = a
    · subst hba
      simp [ha]
    · rw [paint_color m a _ hba]
  constructor
  · intro b
    by_cases hba : b = a
    · subst hba
      rw [← h.colored, paint_color_self, ha]
      simp
    · rw [paint_color m a _ hba]
      exact h.colored b
  · intro b c hb hedge
    exact (hkeep c).mpr (h.closed b c ((hkeep b).mp hb) hedge)
  · exact fun b hb => h.acyclic b ((hkeep b).mp hb)

/-- A gray node all of whose targets are black can be made black: a cycle
    through it would lead through black nodes back to a gray one. -/
theorem Marking.Sound.paint_black {m : Marking α} (h : m.Sound succ nodes) {a : α}
    (ha : m.color a = some .gray)
    (htargets : ∀ b, NodeEdge succ nodes a b → m.color b = some .black) :
    (m.paint a .black).Sound succ nodes := by
  have hkeep : ∀ b, m.color b = some .black → (m.paint a .black).color b = some .black := by
    intro b hb
    by_cases hba : b = a
    · subst hba
      exact paint_color_self m b .black
    · rwa [paint_color m a _ hba]
  have hcases : ∀ b, (m.paint a .black).color b = some .black →
      b = a ∨ m.color b = some .black := by
    intro b hb
    by_cases hba : b = a
    · exact .inl hba
    · rw [paint_color m a _ hba] at hb
      exact .inr hb
  constructor
  · intro b
    by_cases hba : b = a
    · subst hba
      rw [← h.colored, paint_color_self, ha]
      simp
    · rw [paint_color m a _ hba]
      exact h.colored b
  · intro b c hb hedge
    rcases hcases b hb with rfl | hb
    · exact hkeep c (htargets c hedge)
    · exact hkeep c (h.closed b c hb hedge)
  · intro b hb hcycle
    rcases hcases b hb with rfl | hb
    · obtain ⟨c, hedge, hback⟩ := TransGen.head'_iff.mp hcycle
      have hc := htargets c hedge
      have hblack : m.color b = some .black := by
        rcases Relation.reflTransGen_iff_eq_or_transGen.mp hback with rfl | hback
        · exact hc
        · exact h.reaches hc hback
      rw [ha] at hblack
      cases hblack
    · exact h.acyclic b hb hcycle

omit [DecidableEq α] in
theorem onCycle_nonempty {c : α} {m : Marking α} (hc : m.onCycle.head? = some c) :
    m.onCycle.isEmpty ≠ true := by
  intro hempty
  rw [List.isEmpty_iff.mp hempty] at hc
  cases hc

/-- Once there is an entry, a search changes nothing. -/
theorem dfs_of_found {depth : Nat} {a c : α} {m m' : Marking α}
    (hc : m.onCycle.head? = some c) (h : dfs succ depth a m = some m') : m' = m := by
  cases depth with
  | zero => cases h
  | succ depth =>
    rw [dfs, if_neg (onCycle_nonempty hc)] at h
    exact (Option.some.inj h).symm

/-- The loops that are still running may push more, behind the first entry. -/
theorem visitTargets_of_found {depth : Nat} {a c : α} {targets : List α} {m m' : Marking α}
    (hc : m.onCycle.head? = some c)
    (h : visitTargets (dfs succ depth) a targets m = some m') :
    m'.onCycle.head? = some c := by
  induction targets generalizing m with
  | nil =>
    obtain rfl := Option.some.inj h
    exact hc
  | cons target rest ih =>
    unfold visitTargets at h
    split at h
    · obtain rfl := Option.some.inj h
      show (m.onCycle ++ [target]).head? = some c
      rw [List.head?_append, hc]
      rfl
    · obtain ⟨m₁, hm₁, hrest⟩ := Option.bind_eq_some_iff.mp h
      obtain rfl := dfs_of_found hc hm₁
      exact ih hc hrest
    · exact ih hc h

/-- What a search from a white node comes to, if every gray node leads to it. -/
def Visits (succ : α → List α) (nodes : List α) (search : α → Marking α → Option (Marking α)) :
    Prop :=
  ∀ a m m', search a m = some m' → m.onCycle = [] → m.Sound succ nodes →
    m.color a = some .white →
    (∀ g, m.color g = some .gray → TransGen (NodeEdge succ nodes) g a) →
    m'.Found succ nodes ∨ Finished succ nodes m a m'

/-- The gray nodes are the path to `a`, so a gray target closes a cycle; the
    targets behind are black or still to come. -/
theorem visitTargets_visits {depth : Nat} (hsearch : Visits succ nodes (dfs succ depth)) {a : α}
    {targets : List α} {m m' : Marking α}
    (h : visitTargets (dfs succ depth) a targets m = some m') (hnone : m.onCycle = [])
    (hsound : m.Sound succ nodes) (ha : m.color a = some .gray)
    (hpath : ∀ g, m.color g = some .gray → ReflTransGen (NodeEdge succ nodes) g a)
    (htargets : ∀ b ∈ targets, Edge succ a b)
    (hdone : ∀ b, NodeEdge succ nodes a b → b ∈ targets ∨ m.color b = some .black) :
    m'.Found succ nodes ∨ Finished succ nodes m a m' := by
  induction targets generalizing m with
  | nil =>
    obtain rfl := Option.some.inj h
    have hblack : ∀ b, NodeEdge succ nodes a b → m.color b = some .black :=
      fun b hedge => (hdone b hedge).resolve_left List.not_mem_nil
    refine .inr ⟨hnone, hsound.paint_black ha hblack, paint_color_self m a .black, ?_, ?_⟩
    · intro b hb
      have hba : b ≠ a := by
        rintro rfl
        rw [ha] at hb
        cases hb
      rwa [paint_color m a _ hba]
    · intro b hba
      rw [paint_color m a _ hba]
  | cons target rest ih =>
    have hedge : Edge succ a target := htargets target (List.mem_cons_self ..)
    have htargets' : ∀ b ∈ rest, Edge succ a b := fun b hb => htargets b (List.mem_cons_of_mem _ hb)
    unfold visitTargets at h
    split at h
    · -- a gray target leads back to `a`
      rename_i hgray
      obtain rfl := Option.some.inj h
      have hnode : target ∈ nodes := (hsound.colored target).mp (by rw [hgray]; rfl)
      refine .inl ⟨target, ?_, TransGen.tail' (hpath target hgray) ⟨hedge, hnode⟩⟩
      show (m.onCycle ++ [target]).head? = some target
      rw [hnone]
      rfl
    · -- a white target is searched, and unless that finds a cycle it is black
      rename_i hwhite
      obtain ⟨m₁, hm₁, hrest⟩ := Option.bind_eq_some_iff.mp h
      have hnode : target ∈ nodes := (hsound.colored target).mp (by rw [hwhite]; rfl)
      have hnext : ∀ g, m.color g = some .gray → TransGen (NodeEdge succ nodes) g target :=
        fun g hg => TransGen.tail' (hpath g hg) ⟨hedge, hnode⟩
      rcases hsearch target m m₁ hm₁ hnone hsound hwhite hnext with ⟨c, hc, hcycle⟩ | hfin
      · exact .inl ⟨c, visitTargets_of_found hc hrest, hcycle⟩
      · have hne : a ≠ target := by
          rintro rfl
          rw [ha] at hwhite
          cases hwhite
        have hpath' : ∀ g, m₁.color g = some .gray → ReflTransGen (NodeEdge succ nodes) g a := by
          intro g hg
          have hgt : g ≠ target := by
            rintro rfl
            rw [hfin.start] at hg
            cases hg
          exact hpath g ((hfin.gray g hgt).mp hg)
        have hdone' : ∀ b, NodeEdge succ nodes a b → b ∈ rest ∨ m₁.color b = some .black := by
          intro b hb
          rcases hdone b hb with hmem | hblack
          · rcases List.mem_cons.mp hmem with rfl | hmem
            · exact .inr hfin.start
            · exact .inl hmem
          · exact .inr (hfin.black b hblack)
        rcases ih hrest hfin.onCycle hfin.sound ((hfin.gray a hne).mpr ha) hpath' htargets' hdone'
          with hfound | hfin'
        · exact .inl hfound
        · refine .inr ⟨hfin'.onCycle, hfin'.sound, hfin'.start,
            fun b hb => hfin'.black b (hfin.black b hb), fun b hba => ?_⟩
          rw [hfin'.gray b hba]
          by_cases hbt : b = target
          · subst hbt
            rw [hfin.start, hwhite]
            simp
          · exact hfin.gray b hbt
    · -- a target without a colour is no node, and a black one is done
      rename_i hngray hnwhite
      refine ih h hnone hsound ha hpath htargets' fun b hb => ?_
      rcases hdone b hb with hmem | hblack
      · rcases List.mem_cons.mp hmem with rfl | hmem
        · exact .inr (hsound.black_of hb.2 hnwhite hngray)
        · exact .inl hmem
      · exact .inr hblack

theorem dfs_visits (depth : Nat) : Visits succ nodes (dfs succ depth) := by
  induction depth with
  | zero => exact fun _ _ _ h => by cases h
  | succ depth ih =>
    intro a m m' h hnone hsound ha hpath
    have hempty : m.onCycle.isEmpty = true := by rw [hnone]; rfl
    rw [dfs, if_pos hempty] at h
    have hpath' : ∀ g, (m.paint a .gray).color g = some .gray →
        ReflTransGen (NodeEdge succ nodes) g a := by
      intro g hg
      by_cases hga : g = a
      · exact hga ▸ .refl
      · rw [paint_color m a _ hga] at hg
        exact (hpath g hg).to_reflTransGen
    rcases visitTargets_visits ih h hnone (hsound.paint_gray ha) (paint_color_self m a .gray) hpath'
      (fun b hb => hb) (fun b hb => .inl hb.1) with hfound | hfin
    · exact .inl hfound
    · refine .inr ⟨hfin.onCycle, hfin.sound, hfin.start, fun b hb => ?_, fun b hba => ?_⟩
      · have hba : b ≠ a := by
          rintro rfl
          rw [ha] at hb
          cases hb
        exact hfin.black b (by rwa [paint_color m a _ hba])
      · rw [hfin.gray b hba, paint_color m a _ hba]

/-- Between the searches no node is gray: all that has been searched is black. -/
theorem dfsAll_visits {depth : Nat} {starts : List α} {m m' : Marking α}
    (h : dfsAll succ depth starts m = some m') (hnone : m.onCycle = [])
    (hsound : m.Sound succ nodes) (hgray : ∀ a, m.color a ≠ some .gray)
    (hstarts : ∀ a ∈ starts, a ∈ nodes) :
    m'.Found succ nodes ∨ m'.onCycle = [] ∧ m'.Sound succ nodes ∧
      (∀ a, m.color a = some .black → m'.color a = some .black) ∧
      ∀ a ∈ starts, m'.color a = some .black := by
  induction starts generalizing m with
  | nil =>
    obtain rfl := Option.some.inj h
    exact .inr ⟨hnone, hsound, fun _ ha => ha, by simp⟩
  | cons a rest ih =>
    have hrest := fun b hb => hstarts b (List.mem_cons_of_mem a hb)
    unfold dfsAll at h
    obtain ⟨m₁, hm₁, hnext⟩ := Option.bind_eq_some_iff.mp h
    by_cases hwhite : m.color a = some .white
    · rw [if_pos hwhite] at hm₁
      rcases dfs_visits depth a m m₁ hm₁ hnone hsound hwhite
        (fun g hg => absurd hg (hgray g)) with ⟨c, hc, hcycle⟩ | hfin
      · rw [if_neg (onCycle_nonempty hc)] at hnext
        obtain rfl := Option.some.inj hnext
        exact .inl ⟨c, hc, hcycle⟩
      · have hempty : m₁.onCycle.isEmpty = true := by rw [hfin.onCycle]; rfl
        rw [if_pos hempty] at hnext
        have hgray' : ∀ b, m₁.color b ≠ some .gray := by
          intro b hb
          by_cases hba : b = a
          · subst hba
            rw [hfin.start] at hb
            cases hb
          · exact hgray b ((hfin.gray b hba).mp hb)
        rcases ih hnext hfin.onCycle hfin.sound hgray' hrest with hfound | ⟨hn, hs, hb, hall⟩
        · exact .inl hfound
        · refine .inr ⟨hn, hs, fun b hblack => hb b (hfin.black b hblack), fun b hmem => ?_⟩
          rcases List.mem_cons.mp hmem with rfl | hmem
          · exact hb b hfin.start
          · exact hall b hmem
    · rw [if_neg hwhite] at hm₁
      obtain rfl := Option.some.inj hm₁
      have hblack : m.color a = some .black :=
        hsound.black_of (hstarts a (List.mem_cons_self ..)) hwhite (hgray a)
      have hempty : m.onCycle.isEmpty = true := by rw [hnone]; rfl
      rw [if_pos hempty] at hnext
      rcases ih hnext hnone hsound hgray hrest with hfound | ⟨hn, hs, hb, hall⟩
      · exact .inl hfound
      · refine .inr ⟨hn, hs, hb, fun b hmem => ?_⟩
        rcases List.mem_cons.mp hmem with rfl | hmem
        · exact hb b hblack
        · exact hall b hmem

theorem start_not_gray (nodes : List α) (a : α) : (start nodes).color a ≠ some .gray := by
  rw [start_color]
  split <;> simp

theorem start_sound (succ : α → List α) (nodes : List α) : (start nodes).Sound succ nodes := by
  have hnot : ∀ a, (start nodes).color a ≠ some .black := by
    intro a
    rw [start_color]
    split <;> simp
  constructor
  · intro a
    rw [start_color]
    split <;> simp [*]
  · exact fun a _ ha => absurd ha (hnot a)
  · exact fun a ha => absurd ha (hnot a)

/-- With a level for every node and one more the searches end, always alike. -/
theorem dfsAll_total (succ : α → List α) (nodes : List α) :
    ∃ m, ∀ depth, nodes.length < depth → dfsAll succ depth nodes (start nodes) = some m := by
  have hwhites : whites nodes (start nodes) ≤ nodes.length := List.length_filter_le ..
  have hnodes : ∀ b, (start nodes).color b = some .white → b ∈ nodes := by
    intro b hb
    by_contra hnot
    rw [start_color, if_neg hnot] at hb
    cases hb
  have hends : ∃ m, dfsAll succ (nodes.length + 1) nodes (start nodes) = some m :=
    dfsAll_ends nodes (start nodes) (by omega) hnodes
  obtain ⟨m, hm⟩ := hends
  exact ⟨m, fun depth hdepth => dfsAll_mono hdepth hm⟩

/-- The first entry lies on a cycle. -/
theorem dfsAll_sound {depth : Nat} {m : Marking α}
    (h : dfsAll succ depth nodes (start nodes) = some m) {c : α} (hc : m.onCycle.head? = some c) :
    TransGen (NodeEdge succ nodes) c c := by
  rcases dfsAll_visits h (start_onCycle nodes) (start_sound succ nodes) (start_not_gray nodes)
      (fun _ ha => ha) with
    ⟨c', hc', hcycle⟩ | ⟨hnone, _⟩
  · rw [hc] at hc'
    exact Option.some.inj hc' ▸ hcycle
  · rw [hnone] at hc
    cases hc

/-- Where there is a cycle, there is an entry. -/
theorem dfsAll_complete {depth : Nat} {m : Marking α}
    (h : dfsAll succ depth nodes (start nodes) = some m) {a : α}
    (hcycle : TransGen (NodeEdge succ nodes) a a) : ∃ c, m.onCycle.head? = some c := by
  rcases dfsAll_visits h (start_onCycle nodes) (start_sound succ nodes) (start_not_gray nodes)
      (fun _ ha => ha) with
    ⟨c, hc, _⟩ | ⟨_, hsound, _, hall⟩
  · exact ⟨c, hc⟩
  · obtain ⟨_, _, hedge⟩ := TransGen.tail'_iff.mp hcycle
    exact absurd hcycle (hsound.acyclic a (hall a hedge.2))

end Finds

/-! ## Renaming the nodes -/

section Rename

variable {β : Type v} (e : α ≃ β)

def Marking.map (m : Marking α) : Marking β :=
  { color := m.color ∘ e.symm, onCycle := m.onCycle.map e }

omit [DecidableEq α] in
theorem map_color (m : Marking α) (a : α) : (m.map e).color (e a) = m.color a := by
  show m.color (e.symm (e a)) = m.color a
  rw [e.symm_apply_apply]

omit [DecidableEq α] in
theorem map_isEmpty (m : Marking α) : (m.map e).onCycle.isEmpty = m.onCycle.isEmpty := by
  show (m.onCycle.map e).isEmpty = m.onCycle.isEmpty
  exact List.isEmpty_map ..

variable [DecidableEq β]

theorem map_paint (m : Marking α) (a : α) (c : Color) :
    (m.map e).paint (e a) c = (m.paint a c).map e := by
  have hcolor : Function.update (m.color ∘ e.symm) (e a) (some c) =
      Function.update m.color a (some c) ∘ e.symm := by
    funext b
    by_cases hb : b = e a
    · subst hb
      simp
    · have hb' : e.symm b ≠ a := fun h => hb (e.symm_apply_eq.mp h)
      simp [hb, hb']
  show ({ color := _, onCycle := _ } : Marking β) = _
  rw [Marking.map, hcolor]
  rfl

variable {e} {succ : α → List α} {succ' : β → List β}

theorem visitTargets_map {search : α → Marking α → Option (Marking α)}
    {search' : β → Marking β → Option (Marking β)}
    (hsearch : ∀ a m, search' (e a) (m.map e) = (search a m).map (Marking.map e)) (a : α)
    (targets : List α) (m : Marking α) :
    visitTargets search' (e a) (targets.map e) (m.map e) =
      (visitTargets search a targets m).map (Marking.map e) := by
  induction targets generalizing m with
  | nil => exact congrArg some (map_paint e m a .black)
  | cons target rest ih =>
    rw [List.map_cons, visitTargets, visitTargets, map_color]
    cases m.color target with
    | none => exact ih m
    | some c =>
      cases c with
      | gray =>
        show some _ = some _
        rw [Marking.map, Marking.map, List.map_append]
        rfl
      | black => exact ih m
      | white =>
        show (search' (e target) (m.map e)).bind _ = ((search target m).bind _).map _
        rw [hsearch]
        cases search target m with
        | none => rfl
        | some m₁ => exact ih m₁

theorem dfs_map (hsucc : ∀ a, succ' (e a) = (succ a).map e) (depth : Nat) (a : α)
    (m : Marking α) : dfs succ' depth (e a) (m.map e) = (dfs succ depth a m).map (Marking.map e) := by
  induction depth generalizing a m with
  | zero => rfl
  | succ depth ih =>
    rw [dfs, dfs, map_isEmpty, hsucc, map_paint, visitTargets_map ih]
    by_cases hempty : m.onCycle.isEmpty = true
    · rw [if_pos hempty, if_pos hempty]
    · rw [if_neg hempty, if_neg hempty]
      rfl

/-- The search of the same graph under other names takes the same course. -/
theorem dfsAll_map (hsucc : ∀ a, succ' (e a) = (succ a).map e) (depth : Nat) (starts : List α)
    (m : Marking α) :
    dfsAll succ' depth (starts.map e) (m.map e) =
      (dfsAll succ depth starts m).map (Marking.map e) := by
  induction starts generalizing m with
  | nil => rfl
  | cons a rest ih =>
    have hnext : (if (m.map e).color (e a) = some .white then dfs succ' depth (e a) (m.map e)
        else some (m.map e)) =
        (if m.color a = some .white then dfs succ depth a m else some m).map (Marking.map e) := by
      rw [map_color, dfs_map hsucc]
      by_cases hwhite : m.color a = some .white
      · rw [if_pos hwhite, if_pos hwhite]
      · rw [if_neg hwhite, if_neg hwhite]
        rfl
    rw [List.map_cons, dfsAll, dfsAll, hnext]
    cases (if m.color a = some .white then dfs succ depth a m else some m) with
    | none => rfl
    | some m₁ =>
      show (if (m₁.map e).onCycle.isEmpty = true then _ else _) = Option.map _ (if _ then _ else _)
      rw [map_isEmpty]
      by_cases hempty : m₁.onCycle.isEmpty = true
      · rw [if_pos hempty, if_pos hempty]
        exact ih m₁
      · rw [if_neg hempty, if_neg hempty]
        rfl

theorem start_map (nodes : List α) : start (nodes.map e) = (start nodes).map e := by
  have hfold : ∀ (ns : List α) (m : Marking α),
      (ns.map e).foldl (fun m a => m.paint a .white) (m.map e) =
        (ns.foldl (fun m a => m.paint a .white) m).map e := by
    intro ns
    induction ns with
    | nil => exact fun _ => rfl
    | cons a rest ih =>
      intro m
      rw [List.map_cons, List.foldl_cons, List.foldl_cons, map_paint]
      exact ih (m.paint a .white)
  exact hfold nodes { color := fun _ => none, onCycle := [] }

end Rename

end Search
