import Rochallor.Expression.Evaluator

/-! # Comparing a text with itself

    `x == "s"` with coercion converts the variable, but not the literal:
    `wrapCoerce` leaves string literals as they are.  And before the text is
    parsed at all, `preprocess` has rewritten what is inside the quotes.

    The comparison is true exactly for the texts that `preprocess` keeps, that
    expr-lang reads as they are written and that are no number.  The rewriting
    stays inside the quotes and makes the literal shorter wherever it changes
    it, so a literal that was rewritten is never the text itself.
-/

namespace Rochallor

open Rewriting

/-! ## The expression -/

/-- `x == "s"`, and with `!=`. -/
def comparison (op s : String) : String :=
  "x " ++ op ++ " \"" ++ s ++ "\""

def equalityOps : List String := ["==", "!="]

def Unquoted (cs : List Char) : Prop :=
  ∀ c ∈ cs, c ≠ '"' ∧ c ≠ '\'' ∧ c ≠ '\\'

/-- Nothing in the text is in the notation that `preprocess` rewrites. -/
structure KeptAsWritten (s : String) : Prop where
  noBrace : ¬ ['$', '\x7b'] <:+: s.toList
  noHash : ¬ Matches reHashIdent none s.toList
  noContains : ¬ Matches reContainsFn none s.toList

/-! ## Inside the quotes -/

/-- A literal with what stands before it. -/
def framed (pre s : List Char) : List Char :=
  pre ++ (s ++ ['"'])

section Framed

variable {p : Pattern Char} {prev : Option Char} {pre s u v rest out : List Char} {z c : Char}
  {n : Nat}

theorem split_after (hz : z ∉ pre) (h : pre ++ v = u ++ z :: rest) :
    ∃ u', u = pre ++ u' ∧ v = u' ++ z :: rest := by
  rcases List.append_eq_append_iff.mp h with ⟨u', hu, hv⟩ | ⟨u', hpre, hv⟩
  · exact ⟨u', hu, hv⟩
  · cases u' with
    | nil => exact ⟨[], by simpa using hpre.symm, by simpa using hv.symm⟩
    | cons y u' =>
      obtain ⟨rfl, -⟩ := List.cons.inj hv
      exact absurd (hpre ▸ List.mem_append_right u (List.mem_cons_self ..)) hz

/-- A character that is no quote stands before the closing one. -/
theorem inside_quotes (hz : z ≠ '"') (h : s ++ ['"'] = u ++ z :: rest) :
    ∃ rest', rest = rest' ++ ['"'] ∧ s = u ++ z :: rest' := by
  rcases List.eq_nil_or_concat rest with rfl | ⟨rest', y, rfl⟩
  · exact absurd (List.append_inj' h rfl).2 (by simpa using hz.symm)
  · rw [List.concat_eq_append] at h ⊢
    have hsplit : s ++ ['"'] = (u ++ z :: rest') ++ [y] := by rw [h]; simp
    obtain ⟨hs, hy⟩ := List.append_inj' hsplit rfl
    exact ⟨rest', by rw [hy], hs⟩

theorem Unquoted.of_suffix {t : List Char} (h : Unquoted s) (hsuffix : t <:+ s) : Unquoted t :=
  fun c hc => h c (hsuffix.subset hc)

theorem Unquoted.append {t : List Char} (hs : Unquoted s) (ht : Unquoted t) : Unquoted (s ++ t) :=
  fun c hc => (List.mem_append.mp hc).elim (hs c) (ht c)

theorem unquoted_of_all (h : (s.all fun c => c != '"' && c != '\'' && c != '\\') = true) :
    Unquoted s := by
  simpa [Unquoted, and_assoc] using h

theorem unquoted_brackets : Unquoted ['('] ∧ Unquoted [')'] ∧ Unquoted ") in (".toList :=
  ⟨unquoted_of_all rfl, unquoted_of_all rfl, unquoted_of_all rfl⟩

theorem reDollarBrace_inside (hs : Unquoted s) (h : reDollarBrace prev (s ++ ['"']) = some (n, out)) :
    n + 1 ≤ s.length ∧ Unquoted out := by
  obtain ⟨inner, rest, htext, -, rfl, rfl⟩ := reDollarBrace_eq_some h
  obtain ⟨rest', -, rfl⟩ := inside_quotes (u := '$' :: '\x7b' :: inner) (z := '\x7d') (by decide) htext
  have hinner : Unquoted inner := fun c hc => hs c (by simp [hc])
  obtain ⟨hopen, hclose, -⟩ := unquoted_brackets
  exact ⟨by simp, (hopen.append hinner).append hclose⟩

theorem isIdentChar_ne_quote {c : Char} (h : isIdentChar c = true) : c ≠ '"' := by
  rintro rfl
  exact absurd h (by decide)

theorem reHashIdent_inside (hs : Unquoted s) (h : reHashIdent prev (s ++ ['"']) = some (n, out)) :
    n + 1 ≤ s.length ∧ Unquoted out ∧ ∀ prev', (reHashIdent prev' s).isSome := by
  obtain ⟨rest, htext, hne, hall, rfl⟩ := reHashIdent_eq_some h
  rcases List.eq_nil_or_concat out with rfl | ⟨front, y, rfl⟩
  · exact absurd rfl hne
  · rw [List.concat_eq_append] at *
    have hy : y ≠ '"' := isIdentChar_ne_quote (hall y (by simp))
    have hsplit : s ++ ['"'] = ('#' :: front) ++ y :: rest := by
      rw [htext]
      simp
    obtain ⟨rest', -, rfl⟩ := inside_quotes hy hsplit
    refine ⟨by simp, fun c hc => hs c ?_, fun prev' => ?_⟩
    · rcases List.mem_append.mp hc with hc | hc
      · simp [hc]
      · obtain rfl := List.mem_singleton.mp hc
        simp
    · have hrun : (front ++ y :: rest').takeWhile isIdentChar ≠ [] := by
        cases front with
        | nil => simp [hall y (by simp)]
        | cons b front => simp [hall b (by simp)]
      simp [reHashIdent, hrun]

theorem reContainsFn_inside (hs : Unquoted s)
    (h : reContainsFn prev (s ++ ['"']) = some (n, out)) :
    n + 1 ≤ s.length ∧ Unquoted out ∧ prev.any isWordChar = false ∧
      ∀ prev', prev'.any isWordChar = false → (reContainsFn prev' s).isSome := by
  obtain ⟨col, arg, rest, htext, hprev, hcol, hcolumn, harg, helement, rfl, rfl⟩ :=
    reContainsFn_eq_some h
  have hsplit : s ++ ['"'] = (containsOpen ++ (col ++ ',' :: arg)) ++ ')' :: rest := by
    rw [htext]
    simp
  obtain ⟨rest', -, hs'⟩ := inside_quotes (by decide) hsplit
  have hform : s = containsOpen ++ (col ++ ',' :: (arg ++ ')' :: rest')) := by
    rw [hs']
    simp
  have helem : Unquoted (elementOf arg) := fun c hc =>
    hs c (by rw [hform]; simp [(elementOf_suffix arg).subset hc])
  have hcols : Unquoted col := fun c hc => hs c (by rw [hform]; simp [hc])
  obtain ⟨hopen, hclose, hbetween⟩ := unquoted_brackets
  refine ⟨?_, (((hopen.append helem).append hbetween).append hcols).append hclose, hprev,
    fun prev' hprev' => ?_⟩
  · rw [hform]
    simp only [containsOpen, List.length_append, List.length_cons, List.length_nil]
    omega
  · rw [hform]
    exact reContainsFn_isSome hprev' hcol hcolumn harg helement

/-- A regular expression whose matches begin with `c` and stay inside the
    quotes keeps the frame. -/
theorem replaceAll_framed (hhead : ∀ prev a rest, a ≠ c → p prev (a :: rest) = none)
    (hpre : c ∉ pre) (hc : c ≠ '"')
    (hinside : ∀ prev s n out, Unquoted s → p prev (s ++ ['"']) = some (n, out) →
      n + 1 ≤ s.length ∧ Unquoted out) (hs : Unquoted s) :
    ∃ s', replaceAll p (framed pre s) = framed pre s' ∧ Unquoted s' := by
  have hfront : ∀ u' a rest, pre = u' ++ a :: rest →
      p (u'.getLast?.or none) (a :: (rest ++ (s ++ ['"']))) = none := by
    rintro u' a rest rfl
    refine hhead _ _ _ ?_
    rintro rfl
    exact hpre (by simp)
  have hquote : ∀ prev, pieces p prev 0 ['"'] = ['"'].map .keep := fun prev => by
    rw [pieces_none (hhead prev _ _ hc.symm)]
    rfl
  obtain ⟨s', hs', hunquoted⟩ := targets_confined
    (P := fun c => c ≠ '"' ∧ c ≠ '\'' ∧ c ≠ '\\') hquote (pre.getLast?.or none) s
    (fun prev a rest n out hsuffix h => by
      obtain ⟨hn, hout⟩ := hinside prev (a :: rest) n out (hs.of_suffix hsuffix) h
      exact ⟨Nat.le_of_succ_le_succ hn, hout⟩) hs (Nat.zero_le _)
  refine ⟨s', ?_, hunquoted⟩
  rw [replaceAll, framed, pieces_append pre _ hfront, targets_append, targets_keep, hs']
  rfl

/-- Whether it matches does not depend on the frame. -/
theorem matches_framed (hhead : ∀ prev a rest, a ≠ c → p prev (a :: rest) = none)
    (hpre : c ∉ pre) (hlast : pre.getLast? = some '"') (hc : c ≠ '"')
    (hiff : ∀ prev prev' s, Unquoted s → prev' = prev ∨ prev = some '"' ∧ prev' = none →
      ((p prev (s ++ ['"'])).isSome ↔ (p prev' s).isSome)) (hs : Unquoted s) :
    Matches p none (framed pre s) ↔ Matches p none s := by
  have hprev : ∀ u' : List Char, u'.getLast?.or none = (pre ++ u').getLast?.or none ∨
      (pre ++ u').getLast?.or none = some '"' ∧ u'.getLast?.or none = none := by
    intro u'
    rw [List.getLast?_append, hlast]
    cases u'.getLast? with
    | none => exact .inr ⟨rfl, rfl⟩
    | some y => exact .inl rfl
  constructor
  · rintro ⟨u, a, rest, htext, hp⟩
    obtain rfl : a = c := by
      by_contra ha
      rw [hhead _ a rest ha] at hp
      cases hp
    obtain ⟨u', rfl, hsplit⟩ := split_after hpre htext
    obtain ⟨rest', rfl, rfl⟩ := inside_quotes hc hsplit
    exact ⟨u', a, rest', rfl, (hiff _ _ (a :: rest') (hs.of_suffix (List.suffix_append ..))
      (hprev u')).mp hp⟩
  · rintro ⟨u', a, rest', rfl, hp⟩
    refine ⟨pre ++ u', a, rest' ++ ['"'], by simp [framed], ?_⟩
    exact (hiff _ _ (a :: rest') (hs.of_suffix (List.suffix_append ..)) (hprev u')).mpr hp

theorem reHashIdent_quoted (prev prev' : Option Char) (hs : Unquoted s) :
    (reHashIdent prev (s ++ ['"'])).isSome ↔ (reHashIdent prev' s).isSome := by
  constructor
  · intro h
    obtain ⟨⟨n, out⟩, hm⟩ := Option.isSome_iff_exists.mp h
    exact (reHashIdent_inside hs hm).2.2 prev'
  · intro h
    obtain ⟨⟨n, out⟩, hm⟩ := Option.isSome_iff_exists.mp h
    obtain ⟨rest, rfl, hne, hall, -⟩ := reHashIdent_eq_some hm
    cases out with
    | nil => exact absurd rfl hne
    | cons y out => simp [reHashIdent, hall y (List.mem_cons_self ..)]

theorem reContainsFn_quoted (prev prev' : Option Char) (hs : Unquoted s)
    (hprev : prev' = prev ∨ prev = some '"' ∧ prev' = none) :
    (reContainsFn prev (s ++ ['"'])).isSome ↔ (reContainsFn prev' s).isSome := by
  have hword : prev.any isWordChar = prev'.any isWordChar := by
    rcases hprev with rfl | ⟨rfl, rfl⟩
    · rfl
    · decide
  constructor
  · intro h
    obtain ⟨⟨n, out⟩, hm⟩ := Option.isSome_iff_exists.mp h
    obtain ⟨-, -, hfront, hmatch⟩ := reContainsFn_inside hs hm
    exact hmatch prev' (hword ▸ hfront)
  · intro h
    obtain ⟨⟨n, out⟩, hm⟩ := Option.isSome_iff_exists.mp h
    obtain ⟨col, arg, rest, rfl, hfront, hcol, hcolumn, harg, helement, -⟩ :=
      reContainsFn_eq_some hm
    have happ : containsOpen ++ (col ++ ',' :: (arg ++ ')' :: rest)) ++ ['"'] =
        containsOpen ++ (col ++ ',' :: (arg ++ ')' :: (rest ++ ['"']))) := by simp
    rw [happ]
    exact reContainsFn_isSome (hword ▸ hfront) hcol hcolumn harg helement

variable (prev) in
/-- A text with `${` is rejected or rewritten. -/
theorem unterminated_or_matches_iff (text : List Char) :
    unterminated text = true ∨ Matches reDollarBrace prev text ↔ ['$', '\x7b'] <:+: text := by
  induction text generalizing prev with
  | nil =>
    simp only [unterminated, Bool.false_eq_true, false_or]
    exact iff_of_false matches_nil (by simp)
  | cons c rest ih =>
    by_cases hprefix : ['$', '\x7b'] <+: c :: rest
    · refine iff_of_true ?_ hprefix.isInfix
      obtain ⟨tail, htail⟩ := hprefix
      by_cases hclose : '\x7d' ∈ tail
      · refine .inr ⟨[], c, rest, rfl, ?_⟩
        rw [← htail]
        cases hdrop : tail.dropWhile (· != '\x7d') with
        | nil =>
          have := List.dropWhile_eq_nil_iff.mp hdrop _ hclose
          simp at this
        | cons y ys => simp [reDollarBrace, hdrop]
      · refine .inl ?_
        rw [← htail]
        simp [unterminated, hclose]
    · have hskip : unterminated (c :: rest) = unterminated rest := by
        rw [unterminated, if_neg (by rw [List.isPrefixOf_iff_prefix]; exact hprefix)]
      have hnone : ∀ prev, reDollarBrace prev (c :: rest) = none := by
        intro prev
        cases hp : reDollarBrace prev (c :: rest) with
        | none => rfl
        | some m =>
          obtain ⟨inner, rest', htext, -⟩ := reDollarBrace_eq_some hp
          exact absurd ⟨inner ++ '\x7d' :: rest', by rw [htext]; rfl⟩ hprefix
      have hcons : Matches reDollarBrace prev (c :: rest) ↔ Matches reDollarBrace (some c) rest := by
        rw [matches_cons_iff, hnone]
        simp
      rw [hskip, hcons, ih, List.infix_cons_iff, or_iff_right hprefix]

theorem brace_framed (hpre : '$' ∉ pre) :
    ['$', '\x7b'] <:+: framed pre s ↔ ['$', '\x7b'] <:+: s := by
  constructor
  · rintro ⟨u, v, h⟩
    have htext : pre ++ (s ++ ['"']) = u ++ '$' :: '\x7b' :: v := by
      rw [← framed, ← h]
      simp
    obtain ⟨u', rfl, hsplit⟩ := split_after hpre htext
    have hquote : s ++ ['"'] = (u' ++ ['$']) ++ '\x7b' :: v := by
      rw [hsplit]
      simp
    obtain ⟨v', -, rfl⟩ := inside_quotes (by decide) hquote
    exact ⟨u', v', by simp⟩
  · intro h
    exact h.trans ⟨pre, ['"'], by simp [framed]⟩

end Framed

/-! ## Preprocessing the comparison -/

section Preprocessed

variable {pre s : List Char}

/-- The characters before a literal, none of which begins a match. -/
structure Prefix (pre : List Char) : Prop where
  dollar : '$' ∉ pre
  hash : '#' ∉ pre
  single : '\'' ∉ pre
  call : 'c' ∉ pre
  last : pre.getLast? = some '"'

/-- Each of the rewritings keeps the frame, and shortens a literal it
    changes. -/
theorem pass_framed {p : Pattern Char} {c : Char}
    (hhead : ∀ prev a rest, a ≠ c → p prev (a :: rest) = none) (hpre : c ∉ pre) (hc : c ≠ '"')
    (hinside : ∀ prev s n out, Unquoted s → p prev (s ++ ['"']) = some (n, out) →
      n + 1 ≤ s.length ∧ Unquoted out) (hshrinks : Shrinks p) (hs : Unquoted s) :
    ∃ s', replaceAll p (framed pre s) = framed pre s' ∧ Unquoted s' ∧
      (s' = s ∧ ¬ Matches p none (framed pre s) ∨ s'.length < s.length) := by
  obtain ⟨s', hs', hunquoted⟩ := replaceAll_framed hhead hpre hc hinside hs
  refine ⟨s', hs', hunquoted, ?_⟩
  by_cases hm : Matches p none (framed pre s)
  · have hlt := hshrinks.length_targets_lt hm
    rw [← replaceAll, hs'] at hlt
    simp only [framed, List.length_append] at hlt
    right
    omega
  · left
    have hsame := replaceAll_of_not_matches hm
    rw [hs'] at hsame
    exact ⟨List.append_cancel_right (List.append_cancel_left hsame), hm⟩

theorem replaceAll_singleQuote (hpre : '\'' ∉ pre) (hs : Unquoted s) :
    replaceAll reSingleQuote (framed pre s) = framed pre s := by
  refine replaceAll_of_not_matches (not_matches_of_not_mem (fun _ _ _ => reSingleQuote_head) ?_)
  intro hmem
  rcases List.mem_append.mp hmem with hmem | hmem
  · exact hpre hmem
  · rcases List.mem_append.mp hmem with hmem | hmem
    · exact (hs _ hmem).2.1 rfl
    · exact absurd hmem (by decide)

/-- The four rewritings keep the frame.  A literal they change gets shorter. -/
theorem rewritten_framed (hpre : Prefix pre) (hs : Unquoted s) :
    ∃ s', replaceAll reContainsFn (normalised (framed pre s)) = framed pre s' ∧ Unquoted s' ∧
      ((s' = s ∧ ¬ Matches reDollarBrace none (framed pre s) ∧
          ¬ Matches reHashIdent none (framed pre s) ∧
          ¬ Matches reContainsFn none (framed pre s)) ∨ s'.length < s.length) := by
  obtain ⟨s₁, h₁, hs₁, hlt₁⟩ := pass_framed (fun _ _ _ => reDollarBrace_head) hpre.dollar
    (by decide) (fun _ _ _ _ => reDollarBrace_inside) reDollarBrace_shrinks hs
  obtain ⟨s₂, h₂, hs₂, hlt₂⟩ := pass_framed (fun _ _ _ => reHashIdent_head) hpre.hash
    (by decide)
    (fun _ _ _ _ hs h => ⟨(reHashIdent_inside hs h).1, (reHashIdent_inside hs h).2.1⟩)
    reHashIdent_shrinks hs₁
  obtain ⟨s₃, h₃, hs₃, hlt₃⟩ := pass_framed (fun _ _ _ => reContainsFn_head) hpre.call
    (by decide)
    (fun _ _ _ _ hs h => ⟨(reContainsFn_inside hs h).1, (reContainsFn_inside hs h).2.1⟩)
    reContainsFn_shrinks hs₂
  refine ⟨s₃, ?_, hs₃, ?_⟩
  · rw [normalised, h₁, h₂, replaceAll_singleQuote hpre.single hs₂, h₃]
  · rcases hlt₁ with ⟨rfl, hd⟩ | hlt₁
    · rcases hlt₂ with ⟨rfl, hh⟩ | hlt₂
      · rcases hlt₃ with ⟨rfl, hf⟩ | hlt₃
        · exact .inl ⟨rfl, hd, hh, hf⟩
        · exact .inr hlt₃
      · right
        rcases hlt₃ with ⟨rfl, -⟩ | hlt₃ <;> omega
    · right
      rcases hlt₂ with ⟨rfl, -⟩ | hlt₂ <;> rcases hlt₃ with ⟨rfl, -⟩ | hlt₃ <;> omega

theorem rewritten_kept (hpre : Prefix pre) (hs : Unquoted s)
    (hd : ¬ Matches reDollarBrace none (framed pre s))
    (hh : ¬ Matches reHashIdent none (framed pre s))
    (hf : ¬ Matches reContainsFn none (framed pre s)) :
    replaceAll reContainsFn (normalised (framed pre s)) = framed pre s := by
  rw [normalised, replaceAll_of_not_matches hd, replaceAll_of_not_matches hh,
    replaceAll_singleQuote hpre.single hs, replaceAll_of_not_matches hf]

/-- What stands before the literal. -/
def beforeLiteral (op : String) : List Char :=
  "x ".toList ++ (op.toList ++ " \"".toList)

theorem beforeLiteral_prefix {op : String} (hop : op ∈ equalityOps) : Prefix (beforeLiteral op) := by
  simp only [equalityOps, List.mem_cons, List.not_mem_nil, or_false] at hop
  rcases hop with rfl | rfl <;> constructor <;> decide

theorem toList_comparison (op s : String) :
    (comparison op s).toList = framed (beforeLiteral op) s.toList := by
  simp [comparison, framed, beforeLiteral]

theorem trimSpace_framed (op : String) (s : List Char) :
    trimSpace (framed (beforeLiteral op) s) = framed (beforeLiteral op) s := by
  have hx : isSpace 'x' = false := by decide
  have hquote : isSpace '"' = false := by decide
  simp [trimSpace, framed, beforeLiteral, hx, hquote]

/-- `preprocess` keeps the comparison, rejects it, or shortens its literal. -/
theorem preprocess_comparison {op s : String} (hop : op ∈ equalityOps) (hs : Unquoted s.toList) :
    (KeptAsWritten s ∧ preprocess (comparison op s) = .ok (comparison op s)) ∨
      (¬ KeptAsWritten s ∧ ((∃ e, preprocess (comparison op s) = .error e) ∨
        ∃ t : String, Unquoted t.toList ∧ t.length < s.length ∧
          preprocess (comparison op s) = .ok (comparison op t))) := by
  have hpre := beforeLiteral_prefix hop
  have hbrace := (unterminated_or_matches_iff none
    (framed (beforeLiteral op) s.toList)).trans (brace_framed hpre.dollar)
  have hhash : Matches reHashIdent none (framed (beforeLiteral op) s.toList) ↔
      Matches reHashIdent none s.toList :=
    matches_framed (fun _ _ _ => reHashIdent_head) hpre.hash hpre.last (by decide)
      (fun prev prev' _ hs _ => reHashIdent_quoted prev prev' hs) hs
  have hcall : Matches reContainsFn none (framed (beforeLiteral op) s.toList) ↔
      Matches reContainsFn none s.toList :=
    matches_framed (fun _ _ _ => reContainsFn_head) hpre.call hpre.last (by decide)
      (fun prev prev' _ hs h => reContainsFn_quoted prev prev' hs h) hs
  have hkept : KeptAsWritten s ↔ ¬ unterminated (framed (beforeLiteral op) s.toList) = true ∧
      ¬ Matches reDollarBrace none (framed (beforeLiteral op) s.toList) ∧
      ¬ Matches reHashIdent none (framed (beforeLiteral op) s.toList) ∧
      ¬ Matches reContainsFn none (framed (beforeLiteral op) s.toList) := by
    rw [hhash, hcall, ← and_assoc, ← not_or, hbrace]
    exact ⟨fun h => ⟨h.noBrace, h.noHash, h.noContains⟩, fun h => ⟨h.1, h.2.1, h.2.2⟩⟩
  obtain ⟨s', hrewritten, hs', hcase⟩ := rewritten_framed hpre hs
  have htext : preprocess (comparison op s) =
      if unterminated (framed (beforeLiteral op) s.toList) then
        .error "unterminated '$\x7b' in expression"
      else .ok (comparison op (String.ofList s')) := by
    unfold preprocess
    rw [toList_comparison, hrewritten, trimSpace_framed]
    congr 2
    rw [← String.toList_inj, toList_comparison, String.toList_ofList, String.toList_ofList]
  by_cases hun : unterminated (framed (beforeLiteral op) s.toList) = true
  · rw [htext, if_pos hun]
    exact .inr ⟨fun h => (hkept.mp h).1 hun, .inl ⟨_, rfl⟩⟩
  · rw [htext, if_neg hun]
    rcases hcase with ⟨rfl, hmatches⟩ | hlt
    · exact .inl ⟨hkept.mpr ⟨hun, hmatches⟩, by rw [String.ofList_toList]⟩
    · refine .inr ⟨fun h => ?_, .inr ⟨_, by rwa [String.toList_ofList], ?_, rfl⟩⟩
      · obtain ⟨-, hd, hh, hf⟩ := hkept.mp h
        rw [rewritten_kept hpre hs hd hh hf] at hrewritten
        have hsame := List.append_cancel_right (List.append_cancel_left hrewritten)
        rw [← hsame] at hlt
        exact Nat.lt_irrefl _ hlt
      · rw [String.length_ofList, ← String.length_toList]
        exact hlt

end Preprocessed

/-! ## Evaluating the comparison -/

/-- The value expr-lang reads between double quotes. -/
def ExprLang.literal {Program : Type} (lang : ExprLang Program) (t : String) : Option String :=
  match lang.parse ("\"" ++ t ++ "\"") with
  | .ok (.string v) => some v
  | _ => none

/-- What the comparison relies on in expr-lang: the literal in it is read like
    one on its own, line ends in it may be normalised, `==` and `!=` call the
    function that has been put around the variable, a float equals no string,
    and strings are equal if they are the same. -/
structure ExprLang.ComparesTexts {Program : Type} (lang : ExprLang Program) : Prop where
  literal_le : ∀ t v, lang.literal t = some v → v.length ≤ t.length
  parse_literal : ∀ op ∈ equalityOps, ∀ t v, Unquoted t.toList → lang.literal t = some v →
    lang.parse (comparison op t) = .ok (.binary op (.ident "x") (.string v))
  parse_no_literal : ∀ op ∈ equalityOps, ∀ t, Unquoted t.toList → lang.literal t = none →
    ∃ e, lang.parse (comparison op t) = .error e
  runs : ∀ op ∈ equalityOps, ∀ v, ∃ program,
    lang.compile (.binary op (.call (.ident "__coerceNumberSoft") [.ident "x"]) (.string v)) =
        .ok program ∧
      ∀ env w, GoMap.get env "__coerceNumberSoft" = some (.func .coerceNumberSoft) →
        GoMap.get env "x" = some (.value w) →
        (∀ f, coerceNumberSoft w = .float f →
          lang.run program env = .ok (.value (.bool (op != "==")))) ∧
        ∀ u, coerceNumberSoft w = .str u →
          lang.run program env = .ok (.value (.bool ((u == v) == (op == "=="))))

section Evaluated

variable {Program : Type} {lang : ExprLang Program} {op s t : String}

theorem patch_comparison (hop : op ∈ equalityOps) (v : String) :
    (Node.binary op (.ident "x") (.string v)).patch =
      .binary op (.call (.ident "__coerceNumberSoft") [.ident "x"]) (.string v) := by
  simp only [equalityOps, List.mem_cons, List.not_mem_nil, or_false] at hop
  rcases hop with rfl | rfl <;> rfl

/-- The comparison of the variable with the literal that is left. -/
theorem evaluate_comparison (h : lang.ComparesTexts) (hop : op ∈ equalityOps)
    (ht : Unquoted t.toList) (hpre : preprocess (comparison op s) = .ok (comparison op t)) :
    (lang.literal t = none ∧
      ∃ e, evaluate lang true (comparison op s) [("x", .str s)] = .error e) ∨
    ∃ v, lang.literal t = some v ∧
      evaluate lang true (comparison op s) [("x", .str s)] =
        .ok (.value (.bool (match parseFloat s with
          | some _ => op != "=="
          | none => (s == v) == (op == "==")))) := by
  cases hv : lang.literal t with
  | none =>
    obtain ⟨e, he⟩ := h.parse_no_literal op hop t ht hv
    exact .inl ⟨rfl, _, by simp [evaluate, hpre, compileExpr, he, bind, Except.bind]; rfl⟩
  | some v =>
    have hparse := h.parse_literal op hop t v ht hv
    obtain ⟨program, hcompile, hrun⟩ := h.runs op hop v
    rw [← patch_comparison hop] at hcompile
    obtain ⟨hfloat, hstr⟩ := hrun (environment [("x", .str s)]) (.str s) rfl rfl
    have hidents : checkUndefinedIdents lang (comparison op t) (environment [("x", .str s)]) =
        .ok () := by
      unfold checkUndefinedIdents
      rw [hparse]
      rfl
    refine .inr ⟨v, rfl, ?_⟩
    cases hp : parseFloat s with
    | some f =>
      have hr := hfloat f (by rw [coerceNumberSoft, hp])
      simp [evaluate, hpre, compileExpr, hparse, hcompile, hidents, hr, bind, Except.bind,
        Except.mapError]
    | none =>
      have hr := hstr s (by rw [coerceNumberSoft, hp])
      simp [evaluate, hpre, compileExpr, hparse, hcompile, hidents, hr, bind, Except.bind,
        Except.mapError]

end Evaluated

/-! ## A language of comparisons -/

/-- A literal up to its closing quote, on one line. -/
def oneLine (cs : List Char) : Except String String :=
  match cs.reverse with
  | '"' :: body =>
    if body.any fun c => ['"', '\\', '\n', '\r'].contains c then .error "literal not terminated"
    else .ok (String.ofList body.reverse)
  | _ => .error "literal not terminated"

/-- expr-lang on literals and on comparisons of `x` with one. -/
def comparisonLang : ExprLang Node where
  parse text :=
    match text.toList with
    | '"' :: rest => (oneLine rest).map .string
    | 'x' :: ' ' :: '=' :: '=' :: ' ' :: '"' :: rest =>
      (oneLine rest).map fun v => .binary "==" (.ident "x") (.string v)
    | 'x' :: ' ' :: '!' :: '=' :: ' ' :: '"' :: rest =>
      (oneLine rest).map fun v => .binary "!=" (.ident "x") (.string v)
    | _ => .error "unexpected token"
  compile := .ok
  run
    | .binary op (.call (.ident f) [.ident x]) (.string v), env =>
      match GoMap.get env f, GoMap.get env x with
      | some (.func .coerceNumberSoft), some (.value w) =>
        match coerceNumberSoft w with
        | .str u => .ok (.value (.bool ((u == v) == (op == "=="))))
        | _ => .ok (.value (.bool (op != "==")))
      | _, _ => .error "not a function"
    | _, _ => .error "unknown node"

theorem comparisonLang_literal (t : String) :
    comparisonLang.literal t = (oneLine (t.toList ++ ['"'])).toOption := by
  unfold ExprLang.literal comparisonLang
  have htext : ("\"" ++ t ++ "\"").toList = '"' :: (t.toList ++ ['"']) := by simp
  simp only [htext]
  cases oneLine (t.toList ++ ['"']) <;> rfl

theorem comparisonLang_parse {op : String} (hop : op ∈ equalityOps) (t : String) :
    comparisonLang.parse (comparison op t) =
      (oneLine (t.toList ++ ['"'])).map fun v => .binary op (.ident "x") (.string v) := by
  unfold comparisonLang
  simp only [toList_comparison]
  simp only [equalityOps, List.mem_cons, List.not_mem_nil, or_false] at hop
  rcases hop with rfl | rfl <;> rfl

theorem comparisonLang_comparesTexts : comparisonLang.ComparesTexts where
  literal_le t v h := by
    rw [comparisonLang_literal, oneLine, List.reverse_append, List.reverse_singleton] at h
    simp only [List.singleton_append] at h
    split at h
    · cases h
    · cases h
      simp
  parse_literal op hop t v _ h := by
    rw [comparisonLang_literal] at h
    rw [comparisonLang_parse hop]
    cases ho : oneLine (t.toList ++ ['"']) with
    | error e => rw [ho] at h; cases h
    | ok u => rw [ho] at h; cases h; rfl
  parse_no_literal op hop t _ h := by
    rw [comparisonLang_literal] at h
    rw [comparisonLang_parse hop]
    cases ho : oneLine (t.toList ++ ['"']) with
    | error e => exact ⟨e, rfl⟩
    | ok u => rw [ho] at h; cases h
  runs op hop v := by
    refine ⟨_, rfl, fun env w hf hx => ⟨fun f hw => ?_, fun u hw => ?_⟩⟩ <;>
      simp [comparisonLang, hf, hx, hw]

/-! ## Which texts equal themselves -/

/-- A text is equal to itself, written as a literal, if and only if nothing in
    it is rewritten, expr-lang reads it as it is written, and it is not the text
    of a number. -/
theorem text_equals_itself_iff {Program : Type} (lang : ExprLang Program) (h : lang.ComparesTexts)
    (s : String) (hs : Unquoted s.toList) :
    (evaluate lang true (comparison "==" s) [("x", .str s)] = .ok (.value (.bool true)) ∧
        evaluate lang true (comparison "!=" s) [("x", .str s)] = .ok (.value (.bool false))) ↔
      KeptAsWritten s ∧ lang.literal s = some s ∧ parseFloat s = none := by
  have hops : "==" ∈ equalityOps ∧ "!=" ∈ equalityOps := ⟨by decide, by decide⟩
  constructor
  · rintro ⟨heq, -⟩
    -- a comparison that is true has read the text itself
    have hread : ∀ t : String, Unquoted t.toList →
        preprocess (comparison "==" s) = .ok (comparison "==" t) →
        lang.literal t = some s ∧ parseFloat s = none := by
      intro t ht hpre
      rcases evaluate_comparison h hops.1 ht hpre with ⟨-, e, he⟩ | ⟨v, hv, hev⟩
      · rw [heq] at he
        cases he
      · rw [heq] at hev
        cases hp : parseFloat s with
        | some f => simp [hp] at hev
        | none =>
          have hsv : s = v := by simpa [hp] using hev
          rw [hsv]
          exact ⟨hv, rfl⟩
    rcases preprocess_comparison hops.1 hs with ⟨hkept, hpre⟩ | ⟨-, ⟨e, he⟩ | ⟨t, ht, hlt, hpre⟩⟩
    · exact ⟨hkept, hread s hs hpre⟩
    · simp [evaluate, he, bind, Except.bind, Except.mapError] at heq
    · have hle := h.literal_le t s (hread t ht hpre).1
      omega
  · rintro ⟨hkept, hlit, hnumber⟩
    have hvalue : ∀ op ∈ equalityOps, evaluate lang true (comparison op s) [("x", .str s)] =
        .ok (.value (.bool (op == "=="))) := by
      intro op hop
      have hpre := (preprocess_comparison hop hs).resolve_right fun hnot => hnot.1 hkept
      rcases evaluate_comparison h hop hs hpre.2 with ⟨hnone, -⟩ | ⟨v, hv, hev⟩
      · rw [hlit] at hnone
        cases hnone
      · rw [hlit] at hv
        cases hv
        rw [hev, hnumber]
        simp
    exact ⟨hvalue "==" hops.1, hvalue "!=" hops.2⟩

theorem text_equals_itself_iff_bob :
    evaluate comparisonLang true (comparison "==" "Bob") [("x", .str "Bob")] =
        .ok (.value (.bool true)) ∧
      evaluate comparisonLang true (comparison "!=" "Bob") [("x", .str "Bob")] =
        .ok (.value (.bool false)) := by
  refine (text_equals_itself_iff comparisonLang comparisonLang_comparesTexts "Bob"
    (unquoted_of_all rfl)).mpr ⟨⟨?_, ?_, ?_⟩, ?_, ?_⟩
  · decide
  · exact not_matches_of_not_mem (fun _ _ _ => reHashIdent_head) (by decide)
  · exact not_matches_of_not_mem (fun _ _ _ => reContainsFn_head) (by decide)
  · decide
  · decide +kernel

/-- An identifier with leading zeros is not equal to itself. -/
theorem leading_zeros_not_equal :
    comparisonLang.ComparesTexts ∧ Unquoted "007".toList ∧
      evaluate comparisonLang true (comparison "==" "007") [("x", .str "007")] =
        .ok (.value (.bool false)) ∧
      evaluate comparisonLang true (comparison "!=" "007") [("x", .str "007")] =
        .ok (.value (.bool true)) := by
  have hunquoted : Unquoted "007".toList := unquoted_of_all rfl
  have hnumber : (parseFloat "007").isSome := by decide +kernel
  have hvalue : ∀ op ∈ equalityOps,
      evaluate comparisonLang true (comparison op "007") [("x", .str "007")] =
        .ok (.value (.bool (op != "=="))) := by
    intro op hop
    have hpre : preprocess (comparison op "007") = .ok (comparison op "007") := by
      simp only [equalityOps, List.mem_cons, List.not_mem_nil, or_false] at hop
      rcases hop with rfl | rfl <;> decide +kernel
    obtain ⟨f, hf⟩ := Option.isSome_iff_exists.mp hnumber
    rcases evaluate_comparison comparisonLang_comparesTexts hop hunquoted hpre with
      ⟨hnone, -⟩ | ⟨v, -, hev⟩
    · exact absurd hnone (by decide)
    · rw [hev, hf]
  exact ⟨comparisonLang_comparesTexts, hunquoted, hvalue "==" (by decide), hvalue "!=" (by decide)⟩

end Rochallor
