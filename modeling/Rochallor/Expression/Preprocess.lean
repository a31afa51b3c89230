import Mathlib.Data.List.TakeWhile
import Rochallor.Data.Text
import Rochallor.Framework.Rewriting

/-! # Preprocessing

    `preprocess` of `internal/expression/evaluator.go`: four regular
    expressions turn the notation of the workflow format into that of
    expr-lang, one after another and over the whole text.

    Each regular expression is a `Rewriting.Pattern`, by what it matches at a
    position.  Runs are greedy and the character behind a run is not one of the
    run, so there is nothing to backtrack; the exception is the white space
    that `reContainsFn` skips, which leaves one character to the element.
-/

namespace Rochallor

open Rewriting

/-! ## Characters -/

/-- The class `[a-zA-Z0-9_.:-]`. -/
def isIdentChar (c : Char) : Bool :=
  c.isAlphanum || ['_', '.', ':', '-'].contains c

/-- What `\b` takes for part of a word. -/
def isWordChar (c : Char) : Bool :=
  c.isAlphanum || c == '_'

/-- The class `\s`. -/
def isBlank (c : Char) : Bool :=
  ['\t', '\n', Char.ofNat 12, '\r', ' '].contains c

/-- The class `[^,()]`. -/
def isColumnChar (c : Char) : Bool :=
  !([',', '(', ')'].contains c)

/-- The class `[^()]`. -/
def isElementChar (c : Char) : Bool :=
  !(['(', ')'].contains c)

/-! ## The regular expressions -/

/-- `reDollarBrace`, replaced by `($1)`. -/
def reDollarBrace : Pattern Char
  | _, '$' :: '\x7b' :: rest =>
    let inner := rest.takeWhile (· != '\x7d')
    match rest.dropWhile (· != '\x7d') with
    | [] => none
    | _ :: _ => some (inner.length + 2, '(' :: inner ++ [')'])
  | _, _ => none

/-- `reHashIdent`, replaced by `$1`. -/
def reHashIdent : Pattern Char
  | _, '#' :: rest =>
    let ident := rest.takeWhile isIdentChar
    if ident.isEmpty then none else some (ident.length, ident)
  | _, _ => none

/-- `reSingleQuote`, replaced by `"$1"`. -/
def reSingleQuote : Pattern Char
  | _, '\'' :: rest =>
    let inner := rest.takeWhile (· != '\'')
    match rest.dropWhile (· != '\'') with
    | [] => none
    | _ :: _ => some (inner.length + 1, '"' :: inner ++ ['"'])
  | _, _ => none

/-- The second group of `reContainsFn`: `\s*` takes all the white space in
    front, but leaves one character. -/
def elementOf (arg : List Char) : List Char :=
  let elem := arg.dropWhile isBlank
  if elem.isEmpty then arg.drop (arg.length - 1) else elem

def containsOpen : List Char := ['c', 'o', 'n', 't', 'a', 'i', 'n', 's', '(']

/-- `reContainsFn`, replaced by `(${2}) in (${1})`. -/
def reContainsFn : Pattern Char := fun prev text =>
  if prev.any isWordChar || !containsOpen.isPrefixOf text then none
  else
    let rest := text.drop containsOpen.length
    let col := rest.takeWhile isColumnChar
    match rest.dropWhile isColumnChar with
    | ',' :: args =>
      let arg := args.takeWhile isElementChar
      match args.dropWhile isElementChar with
      | ')' :: _ =>
        if col.isEmpty || arg.isEmpty then none
        else some (col.length + arg.length + 10,
          '(' :: elementOf arg ++ ") in (".toList ++ col ++ [')'])
      | _ => none
    | _ => none

/-! ## What they match -/

section Matching

variable {prev : Option Char} {text out : List Char} {n : Nat}

/-- A run, and what stops it. -/
theorem run_eq (f : Char → Bool) (text : List Char) :
    ∃ run rest, text = run ++ rest ∧ text.takeWhile f = run ∧ text.dropWhile f = rest ∧
      (∀ c ∈ run, f c = true) ∧ ∀ c ∈ rest.head?, f c = false := by
  refine ⟨_, _, (List.takeWhile_append_dropWhile (p := f) (l := text)).symm, rfl, rfl, ?_, ?_⟩
  · exact fun c hc => List.mem_takeWhile_imp hc
  · intro c hc
    have hstop := List.head?_dropWhile_not f text
    rw [Option.mem_def] at hc
    rw [hc] at hstop
    exact hstop

theorem reDollarBrace_eq_some (h : reDollarBrace prev text = some (n, out)) :
    ∃ inner rest, text = '$' :: '\x7b' :: (inner ++ '\x7d' :: rest) ∧ '\x7d' ∉ inner ∧
      n = inner.length + 2 ∧ out = '(' :: inner ++ [')'] := by
  unfold reDollarBrace at h
  split at h
  · rename_i rest
    obtain ⟨inner, tail, hrest, htake, hdrop, hall, hstop⟩ := run_eq (· != '\x7d') rest
    rw [htake, hdrop] at h
    cases tail with
    | nil => cases h
    | cons c tail =>
      have hc : c = '\x7d' := by simpa using hstop c rfl
      cases h
      refine ⟨inner, tail, by rw [hrest, hc], fun hmem => ?_, rfl, rfl⟩
      simpa using hall _ hmem
  · cases h

theorem reHashIdent_eq_some (h : reHashIdent prev text = some (n, out)) :
    ∃ rest, text = '#' :: (out ++ rest) ∧ out ≠ [] ∧ (∀ c ∈ out, isIdentChar c = true) ∧
      n = out.length := by
  unfold reHashIdent at h
  split at h
  · rename_i rest
    obtain ⟨ident, tail, hrest, htake, -, hall, -⟩ := run_eq isIdentChar rest
    simp only [htake] at h
    split at h
    · cases h
    · rename_i hne
      cases h
      exact ⟨tail, by rw [hrest], by simpa using hne, hall, rfl⟩
  · cases h

theorem reSingleQuote_eq_some (h : reSingleQuote prev text = some (n, out)) :
    ∃ inner rest, text = '\'' :: (inner ++ '\'' :: rest) ∧ '\'' ∉ inner ∧
      n = inner.length + 1 ∧ out = '"' :: inner ++ ['"'] := by
  unfold reSingleQuote at h
  split at h
  · rename_i rest
    obtain ⟨inner, tail, hrest, htake, hdrop, hall, hstop⟩ := run_eq (· != '\'') rest
    rw [htake, hdrop] at h
    cases tail with
    | nil => cases h
    | cons c tail =>
      have hc : c = '\'' := by simpa using hstop c rfl
      cases h
      refine ⟨inner, tail, by rw [hrest, hc], fun hmem => ?_, rfl, rfl⟩
      simpa using hall _ hmem
  · cases h

theorem elementOf_suffix (arg : List Char) : elementOf arg <:+ arg := by
  simp only [elementOf]
  split
  · exact List.drop_suffix ..
  · exact List.dropWhile_suffix _

theorem reContainsFn_eq_some (h : reContainsFn prev text = some (n, out)) :
    ∃ col arg rest, text = containsOpen ++ (col ++ ',' :: (arg ++ ')' :: rest)) ∧
      prev.any isWordChar = false ∧ col ≠ [] ∧ (∀ c ∈ col, isColumnChar c = true) ∧
      arg ≠ [] ∧ (∀ c ∈ arg, isElementChar c = true) ∧ n = col.length + arg.length + 10 ∧
      out = '(' :: elementOf arg ++ ") in (".toList ++ col ++ [')'] := by
  unfold reContainsFn at h
  cases hfront : prev.any isWordChar || !(containsOpen.isPrefixOf text) with
  | true =>
    rw [if_pos hfront] at h
    cases h
  | false =>
    rw [if_neg (Bool.not_eq_true _ ▸ hfront)] at h
    simp only [Bool.or_eq_false_iff, Bool.not_eq_false'] at hfront
    obtain ⟨hprev, hprefix⟩ := hfront
    obtain ⟨rest, rfl⟩ := List.isPrefixOf_iff_prefix.mp hprefix
    rw [List.drop_left] at h
    obtain ⟨col, tail, hrest, htake, hdrop, hcol, -⟩ := run_eq isColumnChar rest
    simp only [htake, hdrop] at h
    split at h
    · rename_i args
      obtain ⟨arg, tail', hargs, htake', hdrop', harg, -⟩ := run_eq isElementChar args
      simp only [htake', hdrop'] at h
      split at h
      · rename_i rest'
        split at h
        · cases h
        · rename_i hne
          simp only [Bool.or_eq_true, not_or, List.isEmpty_iff] at hne
          cases h
          exact ⟨col, arg, rest', by rw [hrest, hargs], hprev, hne.1, hcol, hne.2, harg, rfl, rfl⟩
      · cases h
    · cases h

/-- A call as the regular expression has it matches. -/
theorem reContainsFn_isSome {col arg rest : List Char} (hprev : prev.any isWordChar = false)
    (hcol : col ≠ []) (hcolumn : ∀ c ∈ col, isColumnChar c = true) (harg : arg ≠ [])
    (helement : ∀ c ∈ arg, isElementChar c = true) :
    (reContainsFn prev (containsOpen ++ (col ++ ',' :: (arg ++ ')' :: rest)))).isSome := by
  have hprefix : containsOpen.isPrefixOf
      (containsOpen ++ (col ++ ',' :: (arg ++ ')' :: rest))) = true :=
    List.isPrefixOf_iff_prefix.mpr (List.prefix_append ..)
  have hcolumns : (col ++ ',' :: (arg ++ ')' :: rest)).takeWhile isColumnChar = col ∧
      (col ++ ',' :: (arg ++ ')' :: rest)).dropWhile isColumnChar = ',' :: (arg ++ ')' :: rest) :=
    ⟨by rw [List.takeWhile_append_of_pos hcolumn]; simp [isColumnChar],
      by rw [List.dropWhile_append_of_pos hcolumn]; rfl⟩
  have hargs : (arg ++ ')' :: rest).takeWhile isElementChar = arg ∧
      (arg ++ ')' :: rest).dropWhile isElementChar = ')' :: rest :=
    ⟨by rw [List.takeWhile_append_of_pos helement]; simp [isElementChar],
      by rw [List.dropWhile_append_of_pos helement]; rfl⟩
  unfold reContainsFn
  simp [hprev, hprefix, hcolumns.1, hcolumns.2, hargs.1, hargs.2, hcol, harg]

theorem reDollarBrace_head {a : Char} {rest : List Char} (h : a ≠ '$') :
    reDollarBrace prev (a :: rest) = none := by
  cases hp : reDollarBrace prev (a :: rest) with
  | none => rfl
  | some m =>
    obtain ⟨inner, rest', htext, -⟩ := reDollarBrace_eq_some hp
    exact absurd (List.cons.inj htext).1 h

theorem reHashIdent_head {a : Char} {rest : List Char} (h : a ≠ '#') :
    reHashIdent prev (a :: rest) = none := by
  cases hp : reHashIdent prev (a :: rest) with
  | none => rfl
  | some m =>
    obtain ⟨rest', htext, -⟩ := reHashIdent_eq_some hp
    exact absurd (List.cons.inj htext).1 h

theorem reSingleQuote_head {a : Char} {rest : List Char} (h : a ≠ '\'') :
    reSingleQuote prev (a :: rest) = none := by
  cases hp : reSingleQuote prev (a :: rest) with
  | none => rfl
  | some m =>
    obtain ⟨inner, rest', htext, -⟩ := reSingleQuote_eq_some hp
    exact absurd (List.cons.inj htext).1 h

theorem reContainsFn_head {a : Char} {rest : List Char} (h : a ≠ 'c') :
    reContainsFn prev (a :: rest) = none := by
  cases hp : reContainsFn prev (a :: rest) with
  | none => rfl
  | some m =>
    obtain ⟨col, arg, rest', htext, -⟩ := reContainsFn_eq_some hp
    exact absurd (List.cons.inj htext).1 h

theorem reDollarBrace_shrinks : Shrinks reDollarBrace := by
  intro prev a rest n out h
  obtain ⟨inner, rest', htext, -, rfl, rfl⟩ := reDollarBrace_eq_some h
  obtain ⟨-, rfl⟩ := List.cons.inj htext
  simp only [List.length_cons, List.length_append, List.length_nil]
  omega

theorem reHashIdent_shrinks : Shrinks reHashIdent := by
  intro prev a rest n out h
  obtain ⟨rest', htext, -, -, rfl⟩ := reHashIdent_eq_some h
  obtain ⟨-, rfl⟩ := List.cons.inj htext
  rw [List.length_append]
  omega

theorem reContainsFn_shrinks : Shrinks reContainsFn := by
  intro prev a rest n out h
  obtain ⟨col, arg, rest', htext, -, -, -, -, -, rfl, rfl⟩ := reContainsFn_eq_some h
  have hlength := congrArg List.length htext
  have hle := (elementOf_suffix arg).length_le
  simp only [containsOpen, List.length_cons, List.length_append, List.length_nil,
    String.reduceToList] at hlength ⊢
  omega

end Matching

/-! ## `preprocess` -/

/-- The first `${` has no `}` behind it. -/
def unterminated : List Char → Bool
  | [] => false
  | c :: rest =>
    if ['$', '\x7b'].isPrefixOf (c :: rest) then !((c :: rest).contains '\x7d')
    else unterminated rest

/-- The text with `${…}` and `#ident` rewritten, and quotes normalised. -/
def normalised (text : List Char) : List Char :=
  replaceAll reSingleQuote (replaceAll reHashIdent (replaceAll reDollarBrace text))

/-- `preprocess`. -/
def preprocess (raw : String) : Except String String :=
  if unterminated raw.toList then .error "unterminated '$\x7b' in expression"
  else .ok (String.ofList (trimSpace (replaceAll reContainsFn (normalised raw.toList))))

/-- The legacy notations and the calls of `contains` are rewritten. -/
example : preprocess "contains(#tags, 'vip') && $\x7border.total\x7d > 10" =
    .ok "(\"vip\") in (tags) && (order.total) > 10" := by decide +kernel

end Rochallor
