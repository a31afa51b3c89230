import Mathlib.Algebra.BigOperators.Group.List.Basic
import Mathlib.Algebra.GroupWithZero.Nat
import Mathlib.Data.List.Basic

/-! # Replacing matches

    A pattern looks at the front of a text, and at the element before it, and
    says whether it matches there.  The matches of a text are found from left
    to right, and the next search starts behind the last match.  This is how
    regular expressions are replaced, once it is known what they match at a
    position.

    `pieces` cuts a text into its matches and the elements between them.  A
    text rewritten is read like the original if each piece is read like what
    stands for it: `Reader.run_replaceAll`.
-/

namespace Rewriting

variable {α : Type u} {β : Type v} {σ : Type w}

/-- How many elements behind the first one a pattern matches, and what the
    match is replaced by. -/
abbrev Pattern (α : Type u) := Option α → List α → Option (Nat × List α)

/-- A part of a text, and what stands for it in the rewritten text. -/
structure Piece (α : Type u) where
  before : List α
  after : List α

/-- An element that is not part of a match. -/
def Piece.keep (a : α) : Piece α := ⟨[a], [a]⟩

/-- The pieces of a text, from behind the next `skip` elements on. -/
def pieces (p : Pattern α) : Option α → Nat → List α → List (Piece α)
  | _, _, [] => []
  | _, skip + 1, a :: rest => pieces p (some a) skip rest
  | prev, 0, a :: rest =>
    match p prev (a :: rest) with
    | some (n, out) => ⟨a :: rest.take n, out⟩ :: pieces p (some a) n rest
    | none => .keep a :: pieces p (some a) 0 rest

def sources (ps : List (Piece α)) : List α := ps.flatMap Piece.before

def targets (ps : List (Piece α)) : List α := ps.flatMap Piece.after

/-- Replaces all matches of a text. -/
def replaceAll (p : Pattern α) (text : List α) : List α :=
  targets (pieces p none 0 text)

/-! ## Pieces -/

section Pieces

variable {p : Pattern α} {prev : Option α}

@[simp] theorem sources_nil : sources ([] : List (Piece α)) = [] := rfl

@[simp] theorem targets_nil : targets ([] : List (Piece α)) = [] := rfl

@[simp] theorem sources_cons (e : Piece α) (ps : List (Piece α)) :
    sources (e :: ps) = e.before ++ sources ps := rfl

@[simp] theorem targets_cons (e : Piece α) (ps : List (Piece α)) :
    targets (e :: ps) = e.after ++ targets ps := rfl

@[simp] theorem sources_append (ps qs : List (Piece α)) :
    sources (ps ++ qs) = sources ps ++ sources qs := List.flatMap_append

@[simp] theorem targets_append (ps qs : List (Piece α)) :
    targets (ps ++ qs) = targets ps ++ targets qs := List.flatMap_append

theorem pieces_none {a : α} {rest : List α} (h : p prev (a :: rest) = none) :
    pieces p prev 0 (a :: rest) = .keep a :: pieces p (some a) 0 rest := by
  rw [pieces, h]

theorem pieces_some {a : α} {rest out : List α} {n : Nat}
    (h : p prev (a :: rest) = some (n, out)) :
    pieces p prev 0 (a :: rest) = ⟨a :: rest.take n, out⟩ :: pieces p (some a) n rest := by
  rw [pieces, h]

variable (p prev) in
/-- The pieces are the text. -/
theorem sources_pieces (skip : Nat) (text : List α) :
    sources (pieces p prev skip text) = text.drop skip := by
  induction text generalizing prev skip with
  | nil => simp [pieces]
  | cons a rest ih =>
    cases skip with
    | succ skip => exact ih _ skip
    | zero =>
      cases h : p prev (a :: rest) with
      | none =>
        rw [pieces_none h, sources_cons, ih _ 0]
        rfl
      | some m =>
        obtain ⟨n, out⟩ := m
        rw [pieces_some h, sources_cons, ih _ n, List.cons_append, List.take_append_drop]
        rfl

/-- A piece is an element that is kept, or a match. -/
theorem of_pieces {skip : Nat} {text : List α} {ps qs : List (Piece α)} {e : Piece α}
    (h : pieces p prev skip text = ps ++ e :: qs) :
    (∃ a before, e = .keep a ∧ p before (a :: sources qs) = none) ∨
      ∃ before n, p before (e.before ++ sources qs) = some (n, e.after) ∧
        e.before = (e.before ++ sources qs).take (n + 1) := by
  induction text generalizing prev skip ps with
  | nil =>
    rw [pieces] at h
    exact absurd h.symm (by simp)
  | cons a rest ih =>
    cases skip with
    | succ skip => exact ih h
    | zero =>
      cases hp : p prev (a :: rest) with
      | none =>
        rw [pieces_none hp] at h
        cases ps with
        | nil =>
          obtain ⟨rfl, hqs⟩ := List.cons.inj h
          have hsrc := sources_pieces p (some a) 0 rest
          rw [hqs] at hsrc
          exact .inl ⟨a, prev, rfl, by rw [hsrc]; exact hp⟩
        | cons f ps => exact ih (List.cons.inj h).2
      | some m =>
        obtain ⟨n, out⟩ := m
        rw [pieces_some hp] at h
        cases ps with
        | nil =>
          obtain ⟨rfl, hqs⟩ := List.cons.inj h
          have hsrc := sources_pieces p (some a) n rest
          rw [hqs] at hsrc
          refine .inr ⟨prev, n, ?_, ?_⟩
          · rw [hsrc, List.cons_append, List.take_append_drop, hp]
          · rw [hsrc, List.cons_append, List.take_append_drop]
            rfl
        | cons f ps => exact ih (List.cons.inj h).2

/-- The pattern matches somewhere in the text. -/
def Matches (p : Pattern α) (prev : Option α) (text : List α) : Prop :=
  ∃ u a rest, text = u ++ a :: rest ∧ (p (u.getLast?.or prev) (a :: rest)).isSome

theorem getLast?_cons_or {a : α} (u : List α) :
    (a :: u).getLast?.or prev = u.getLast?.or (some a) := by
  rw [List.getLast?_cons]
  cases u.getLast? <;> rfl

theorem matches_nil : ¬ Matches p prev [] := by
  rintro ⟨u, a, rest, h, -⟩
  exact absurd h (by simp)

theorem matches_cons_iff {a : α} {rest : List α} :
    Matches p prev (a :: rest) ↔ (p prev (a :: rest)).isSome ∨ Matches p (some a) rest := by
  constructor
  · rintro ⟨u, b, rest', hu, hp⟩
    cases u with
    | nil =>
      obtain ⟨rfl, rfl⟩ := List.cons.inj hu
      exact .inl hp
    | cons c u =>
      obtain ⟨rfl, rfl⟩ := List.cons.inj hu
      rw [getLast?_cons_or] at hp
      exact .inr ⟨u, b, rest', rfl, hp⟩
  · rintro (hp | ⟨u, b, rest', rfl, hp⟩)
    · exact ⟨[], a, rest, rfl, hp⟩
    · exact ⟨a :: u, b, rest', rfl, by rw [getLast?_cons_or]; exact hp⟩

theorem not_matches_of_not_mem {c : α} {text : List α}
    (hhead : ∀ prev a rest, a ≠ c → p prev (a :: rest) = none) (h : c ∉ text) :
    ¬ Matches p prev text := by
  rintro ⟨u, a, rest, rfl, hp⟩
  have hne : a ≠ c := by
    rintro rfl
    exact h (by simp)
  rw [hhead _ a rest hne] at hp
  cases hp

/-- Without a match the elements are kept. -/
theorem pieces_of_not_matches {text : List α} (h : ¬ Matches p prev text) :
    pieces p prev 0 text = text.map .keep := by
  induction text generalizing prev with
  | nil => rfl
  | cons a rest ih =>
    rw [matches_cons_iff, not_or] at h
    rw [pieces_none (Option.not_isSome_iff_eq_none.mp h.1), ih h.2]
    rfl

theorem targets_keep (text : List α) : targets (text.map .keep) = text := by
  induction text with
  | nil => rfl
  | cons a rest ih =>
    rw [List.map_cons, targets_cons, ih]
    rfl

theorem replaceAll_of_not_matches {text : List α} (h : ¬ Matches p none text) :
    replaceAll p text = text := by
  rw [replaceAll, pieces_of_not_matches h, targets_keep]

/-- What stands before the first match is kept. -/
theorem pieces_append (u v : List α)
    (h : ∀ u' a rest, u = u' ++ a :: rest → p (u'.getLast?.or prev) (a :: (rest ++ v)) = none) :
    pieces p prev 0 (u ++ v) = u.map .keep ++ pieces p (u.getLast?.or prev) 0 v := by
  induction u generalizing prev with
  | nil => rfl
  | cons a rest ih =>
    have hrest : ∀ u' b rest', rest = u' ++ b :: rest' →
        p (u'.getLast?.or (some a)) (b :: (rest' ++ v)) = none := by
      rintro u' b rest' rfl
      rw [← getLast?_cons_or u']
      exact h (a :: u') b rest' rfl
    have ha : p prev (a :: (rest ++ v)) = none := h [] a rest rfl
    rw [List.cons_append, pieces_none ha, ih hrest, getLast?_cons_or]
    rfl

/-- The pieces with what stands before them, behind `u`. -/
def located : List α → List (Piece α) → List (List α × Piece α)
  | _, [] => []
  | u, e :: ps => (u, e) :: located (u ++ e.before) ps

theorem mem_located {u v : List α} {e : Piece α} {ps : List (Piece α)} :
    (v, e) ∈ located u ps ↔ ∃ qs rest, ps = qs ++ e :: rest ∧ v = u ++ sources qs := by
  induction ps generalizing u with
  | nil => simp [located]
  | cons f ps ih =>
    rw [located, List.mem_cons, ih]
    constructor
    · rintro (h | ⟨qs, rest, rfl, rfl⟩)
      · obtain ⟨rfl, rfl⟩ := Prod.mk.inj h
        exact ⟨[], ps, rfl, by simp⟩
      · exact ⟨f :: qs, rest, rfl, by simp⟩
    · rintro ⟨qs, rest, hps, rfl⟩
      cases qs with
      | nil =>
        obtain ⟨rfl, -⟩ := List.cons.inj hps
        exact .inl (by simp)
      | cons g qs =>
        obtain ⟨rfl, rfl⟩ := List.cons.inj hps
        exact .inr ⟨qs, rest, rfl, by simp⟩

/-- The matches of a text that are replaced by something else, with what stands
    before them. -/
def edits [DecidableEq α] (p : Pattern α) (text : List α) : List (List α × Piece α) :=
  (located [] (pieces p none 0 text)).filter fun x => x.2.before != x.2.after

theorem mem_edits [DecidableEq α] {text u : List α} {e : Piece α} :
    (u, e) ∈ edits p text ↔ e.before ≠ e.after ∧
      ∃ qs rest, pieces p none 0 text = qs ++ e :: rest ∧ u = sources qs := by
  simp [edits, mem_located, and_comm]

/-- An edit is a match. -/
theorem of_edits [DecidableEq α] {text u : List α} {e : Piece α} (h : (u, e) ∈ edits p text) :
    ∃ prev rest n, p prev (e.before ++ rest) = some (n, e.after) ∧
      e.before = (e.before ++ rest).take (n + 1) := by
  obtain ⟨hne, qs, rest, hps, -⟩ := mem_edits.mp h
  rcases of_pieces hps with ⟨a, -, rfl, -⟩ | ⟨prev, n, hp, hlen⟩
  · exact absurd rfl hne
  · exact ⟨prev, sources rest, n, hp, hlen⟩

end Pieces

/-! ## Shrinking patterns -/

/-- A match is replaced by something shorter. -/
def Shrinks (p : Pattern α) : Prop :=
  ∀ prev a rest n out, p prev (a :: rest) = some (n, out) → n ≤ rest.length ∧ out.length ≤ n

section Shrinking

variable {p : Pattern α} {prev : Option α}

variable (prev) in
theorem Shrinks.length_targets_le (h : Shrinks p) (skip : Nat) (text : List α) :
    (targets (pieces p prev skip text)).length ≤ (text.drop skip).length := by
  induction text generalizing prev skip with
  | nil => simp [pieces]
  | cons a rest ih =>
    cases skip with
    | succ skip => exact ih _ skip
    | zero =>
      cases hp : p prev (a :: rest) with
      | none =>
        rw [pieces_none hp, targets_cons, List.length_append]
        have := ih (some a) 0
        simp only [Piece.keep, List.drop_zero, List.length_cons, List.length_nil] at this ⊢
        omega
      | some m =>
        obtain ⟨n, out⟩ := m
        obtain ⟨hn, hout⟩ := h _ _ _ _ _ hp
        have hrest := ih (some a) n
        rw [pieces_some hp, targets_cons, List.length_append]
        simp only [List.length_drop, List.drop_zero, List.length_cons] at hrest ⊢
        omega

/-- A text with a match gets shorter. -/
theorem Shrinks.length_targets_lt (h : Shrinks p) {text : List α} (hm : Matches p prev text) :
    (targets (pieces p prev 0 text)).length < text.length := by
  induction text generalizing prev with
  | nil => exact absurd hm matches_nil
  | cons a rest ih =>
    cases hp : p prev (a :: rest) with
    | none =>
      have hrest : Matches p (some a) rest := by
        rw [matches_cons_iff, hp] at hm
        exact hm.resolve_left (by simp)
      have := ih hrest
      rw [pieces_none hp, targets_cons, List.length_append]
      simp only [Piece.keep, List.length_cons, List.length_nil]
      omega
    | some m =>
      obtain ⟨n, out⟩ := m
      obtain ⟨hn, hout⟩ := h _ _ _ _ _ hp
      have hrest := h.length_targets_le (some a) n rest
      rw [pieces_some hp, targets_cons, List.length_append]
      rw [List.length_drop] at hrest
      simp only [List.length_cons]
      omega

end Shrinking

/-! ## Confined patterns -/

/-- Where every match in `s` ends in `s`, what follows is kept. -/
theorem targets_confined {p : Pattern α} {q : List α} {P : α → Prop}
    (hq : ∀ prev, pieces p prev 0 q = q.map .keep) (prev : Option α) (s : List α)
    (h : ∀ prev a rest n out, a :: rest <:+ s → p prev (a :: (rest ++ q)) = some (n, out) →
      n ≤ rest.length ∧ ∀ c ∈ out, P c)
    (hs : ∀ c ∈ s, P c) {skip : Nat} (hskip : skip ≤ s.length) :
    ∃ s', targets (pieces p prev skip (s ++ q)) = s' ++ q ∧ ∀ c ∈ s', P c := by
  induction s generalizing prev skip with
  | nil =>
    obtain rfl : skip = 0 := Nat.le_zero.mp hskip
    refine ⟨[], ?_, by simp⟩
    rw [List.nil_append, hq, targets_keep]
  | cons a rest ih =>
    have hrest := fun prev b rest' n out hb =>
      h prev b rest' n out (List.IsSuffix.trans hb (List.suffix_cons a rest))
    have hP := fun c hc => hs c (List.mem_cons_of_mem a hc)
    cases skip with
    | succ skip => exact ih _ hrest hP (Nat.le_of_succ_le_succ hskip)
    | zero =>
      cases hp : p prev (a :: (rest ++ q)) with
      | none =>
        obtain ⟨s', hs', hP'⟩ := ih (some a) hrest hP (Nat.zero_le _)
        refine ⟨a :: s', ?_, List.forall_mem_cons.mpr ⟨hs a (List.mem_cons_self ..), hP'⟩⟩
        rw [List.cons_append, pieces_none hp, targets_cons, hs']
        rfl
      | some m =>
        obtain ⟨n, out⟩ := m
        obtain ⟨hn, hout⟩ := h prev a rest n out List.suffix_rfl hp
        obtain ⟨s', hs', hP'⟩ := ih (some a) hrest hP hn
        refine ⟨out ++ s', ?_, ?_⟩
        · rw [List.cons_append, pieces_some hp, targets_cons, hs', List.append_assoc]
        · intro c hc
          exact (List.mem_append.mp hc).elim (hout c) (hP' c)

/-! ## Readers -/

/-- A reader goes over a text from left to right and puts something out. -/
structure Reader (σ : Type w) (α : Type u) (β : Type v) where
  step : σ → α → σ × List β

namespace Reader

variable (r : Reader σ α β)

def run : σ → List α → σ × List β
  | s, [] => (s, [])
  | s, a :: rest => ((run (r.step s a).1 rest).1, (r.step s a).2 ++ (run (r.step s a).1 rest).2)

@[simp] theorem run_nil (s : σ) : r.run s [] = (s, []) := rfl

theorem run_cons (s : σ) (a : α) (rest : List α) :
    r.run s (a :: rest) =
      ((r.run (r.step s a).1 rest).1, (r.step s a).2 ++ (r.run (r.step s a).1 rest).2) := rfl

theorem run_append (s : σ) (u v : List α) :
    r.run s (u ++ v) = ((r.run (r.run s u).1 v).1, (r.run s u).2 ++ (r.run (r.run s u).1 v).2) := by
  induction u generalizing s with
  | nil => rfl
  | cons a rest ih => rw [List.cons_append, run_cons, ih, run_cons, List.append_assoc]

/-- If each piece is read like what stands for it, from the state it is read
    in, then so is the text. -/
theorem run_targets {s : σ} {ps : List (Piece α)}
    (h : ∀ qs e rest, ps = qs ++ e :: rest →
      r.run (r.run s (sources qs)).1 e.after = r.run (r.run s (sources qs)).1 e.before) :
    r.run s (targets ps) = r.run s (sources ps) := by
  induction ps generalizing s with
  | nil => rfl
  | cons e rest ih =>
    have hrest : ∀ qs f rest', rest = qs ++ f :: rest' →
        r.run (r.run (r.run s e.before).1 (sources qs)).1 f.after =
          r.run (r.run (r.run s e.before).1 (sources qs)).1 f.before := by
      rintro qs f rest' rfl
      have hf := h (e :: qs) f rest' rfl
      rw [sources_cons, run_append] at hf
      exact hf
    have he : r.run s e.after = r.run s e.before := h [] e rest rfl
    rw [targets_cons, sources_cons, run_append, run_append, he, ih hrest]

/-- If each edit is read like what it replaces, then so is the text. -/
theorem run_replaceAll [DecidableEq α] {p : Pattern α} {s : σ} {text : List α}
    (h : ∀ x ∈ edits p text,
      r.run (r.run s x.1).1 x.2.after = r.run (r.run s x.1).1 x.2.before) :
    r.run s (replaceAll p text) = r.run s text := by
  have hsources := sources_pieces p none 0 text
  rw [replaceAll, run_targets, hsources, List.drop_zero]
  intro qs e rest hps
  by_cases he : e.before = e.after
  · rw [he]
  · exact h (sources qs, e) (mem_edits.mpr ⟨he, qs, rest, hps, rfl⟩)

/-- If each edit leads to the state that what it replaces leads to, and puts
    out no more, then so does the text.  Where it puts out as much, so does
    each edit. -/
theorem sum_targets (size : β → Nat) (s : σ) {ps : List (Piece α)}
    (h : ∀ e ∈ ps, ∀ s, (r.run s e.after).1 = (r.run s e.before).1 ∧
      ((r.run s e.after).2.map size).sum ≤ ((r.run s e.before).2.map size).sum) :
    (r.run s (targets ps)).1 = (r.run s (sources ps)).1 ∧
      ((r.run s (targets ps)).2.map size).sum ≤ ((r.run s (sources ps)).2.map size).sum ∧
      (((r.run s (targets ps)).2.map size).sum = ((r.run s (sources ps)).2.map size).sum →
        ∀ qs e rest, ps = qs ++ e :: rest →
          ((r.run (r.run s (sources qs)).1 e.after).2.map size).sum =
            ((r.run (r.run s (sources qs)).1 e.before).2.map size).sum) := by
  induction ps generalizing s with
  | nil => exact ⟨rfl, Nat.le_refl _, fun _ qs e rest h => absurd h (by simp)⟩
  | cons f ps ih =>
    obtain ⟨hf, hps⟩ := List.forall_mem_cons.mp h
    obtain ⟨hstate, hle⟩ := hf s
    obtain ⟨hstate', hle', heq'⟩ := ih (r.run s f.before).1 hps
    simp only [targets_cons, sources_cons, run_append, hstate, List.map_append, List.sum_append]
    refine ⟨hstate', Nat.add_le_add hle hle', fun heq qs e rest hsplit => ?_⟩
    cases qs with
    | nil =>
      obtain ⟨rfl, -⟩ := List.cons.inj hsplit
      simp only [sources_nil, run_nil]
      omega
    | cons g qs =>
      obtain ⟨rfl, hrest⟩ := List.cons.inj hsplit
      rw [sources_cons, run_append]
      exact heq' (by omega) qs e rest hrest

theorem sum_replaceAll [DecidableEq α] {p : Pattern α} (size : β → Nat) (s : σ) (text : List α)
    (h : ∀ x ∈ edits p text, ∀ s, (r.run s x.2.after).1 = (r.run s x.2.before).1 ∧
      ((r.run s x.2.after).2.map size).sum ≤ ((r.run s x.2.before).2.map size).sum) :
    ((r.run s (replaceAll p text)).2.map size).sum ≤ ((r.run s text).2.map size).sum ∧
      (((r.run s (replaceAll p text)).2.map size).sum = ((r.run s text).2.map size).sum →
        ∀ x ∈ edits p text, ((r.run (r.run s x.1).1 x.2.after).2.map size).sum =
          ((r.run (r.run s x.1).1 x.2.before).2.map size).sum) := by
  have hsources := sources_pieces p none 0 text
  rw [List.drop_zero] at hsources
  have hpieces : ∀ e ∈ pieces p none 0 text, ∀ s, (r.run s e.after).1 = (r.run s e.before).1 ∧
      ((r.run s e.after).2.map size).sum ≤ ((r.run s e.before).2.map size).sum := by
    intro e he s
    by_cases hne : e.before = e.after
    · rw [hne]
      exact ⟨rfl, Nat.le_refl _⟩
    · obtain ⟨qs, rest, hps⟩ := List.append_of_mem he
      exact h (sources qs, e) (mem_edits.mpr ⟨hne, qs, rest, hps, rfl⟩) s
  obtain ⟨-, hle, heq⟩ := r.sum_targets size s hpieces
  rw [hsources] at hle heq
  refine ⟨hle, fun hsum x hx => ?_⟩
  obtain ⟨-, qs, rest, hps, hu⟩ := mem_edits.mp hx
  rw [hu]
  exact heq hsum qs x.2 rest hps

end Reader

end Rewriting
