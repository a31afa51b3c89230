import Rochallor.Expression.Preprocess

/-! # String literals under preprocessing

    `preprocess` rewrites the text of an expression without knowing where
    string literals begin and end.  Here the text is read the way a lexer reads
    it, quote by quote, and the sequence of its literals is compared before and
    after.

    An edit outside literals is read like what it replaces.  The rewritings of
    `${…}` and `#ident` never touch a quote, so where they reach into literals
    these get shorter, or lose a `}`, and are not what they were: for them the
    condition is exact.
-/

namespace Rochallor

open Rewriting

/-! ## Reading literals -/

inductive Quote where
  | single
  | double
  deriving DecidableEq

def Quote.char : Quote → Char
  | .single => '\''
  | .double => '"'

/-- Between literals, or inside one: its quote, what it holds so far, and
    whether a backslash came last. -/
inductive Quoting where
  | outside
  | inside (quote : Quote) (content : List Char) (escaped : Bool)
  deriving DecidableEq

/-- Puts a literal out at its closing quote. -/
def quoteReader : Reader Quoting Char (List Char) where
  step
    | .outside, c =>
      if c = '"' then (.inside .double [] false, [])
      else if c = '\'' then (.inside .single [] false, [])
      else (.outside, [])
    | .inside q content true, c => (.inside q (content ++ [c]) false, [])
    | .inside q content false, c =>
      if c = q.char then (.outside, [content])
      else (.inside q (content ++ [c]) (c == '\\'), [])

/-- The string literals of a text, without their quotes. -/
def literals (text : List Char) : List (List Char) :=
  (quoteReader.run .outside text).2

/-- The text ends outside literals. -/
def Outside (text : List Char) : Prop :=
  (quoteReader.run .outside text).1 = .outside

instance (text : List Char) : Decidable (Outside text) :=
  inferInstanceAs (Decidable ((quoteReader.run .outside text).1 = .outside))

/-- No double quote ends the text if it stands between double quotes, and no
    backslash escapes the quote behind it. -/
def unbroken : Bool → List Char → Bool
  | escaped, [] => !escaped
  | true, _ :: rest => unbroken false rest
  | false, c :: rest => c != '"' && unbroken (c == '\\') rest

/-- The arguments of a call that `reContainsFn` matches. -/
def callArguments (call : List Char) : List Char × List Char :=
  let rest := call.drop containsOpen.length
  (rest.takeWhile isColumnChar, (rest.dropWhile isColumnChar).tail.dropLast)

/-- The literals of the arguments are closed, and their order does not
    matter. -/
def Swappable (args : List Char × List Char) : Prop :=
  Outside args.1 ∧ Outside args.2 ∧
    literals args.1 ++ literals args.2 = literals args.2 ++ literals args.1

instance (args : List Char × List Char) : Decidable (Swappable args) :=
  inferInstanceAs (Decidable (_ ∧ _ ∧ _))

/-- Where the rewritings meet the literals of a text. -/
structure LiteralsUntouched (text : List Char) : Prop where
  /-- `${` and `}` stand outside literals. -/
  dollar : ∀ x ∈ edits reDollarBrace text, Outside x.1 ∧ Outside (x.1 ++ x.2.before.dropLast)
  /-- `#` stands outside literals. -/
  hash : ∀ x ∈ edits reHashIdent (replaceAll reDollarBrace text), Outside x.1
  /-- What stands between single quotes is a literal, and is one between double
      quotes. -/
  single : ∀ x ∈ edits reSingleQuote (replaceAll reHashIdent (replaceAll reDollarBrace text)),
    Outside x.1 ∧ unbroken false x.2.before.tail.dropLast = true
  /-- Calls stand outside literals, and do not swap any. -/
  call : ∀ x ∈ edits reContainsFn (normalised text),
    Outside x.1 ∧ Swappable (callArguments x.2.before)

/-! ## Reading the edits -/

section Edits

variable {u v : List Char} {x : List Char × Piece Char} {text : List Char}

theorem quoteFree (h : (u.all fun c => c != '"' && c != '\'') = true) :
    ∀ c ∈ u, c ≠ '"' ∧ c ≠ '\'' := by
  simpa using h

/-- Text without quotes. -/
theorem run_outside (h : ∀ c ∈ u, c ≠ '"' ∧ c ≠ '\'') :
    quoteReader.run .outside u = (.outside, []) := by
  induction u with
  | nil => rfl
  | cons c rest ih =>
    obtain ⟨hc, hrest⟩ := List.forall_mem_cons.mp h
    have hstep : quoteReader.step .outside c = (.outside, []) := by
      simp [quoteReader, hc.1, hc.2]
    rw [Reader.run_cons, hstep, ih hrest]
    rfl

theorem run_of_outside (h : Outside u) : quoteReader.run .outside u = (.outside, literals u) :=
  Prod.ext h rfl

theorem literals_append (h : Outside u) : literals (u ++ v) = literals u ++ literals v := by
  unfold literals
  rw [Reader.run_append, run_of_outside h]

theorem Outside.append (hu : Outside u) (hv : Outside v) : Outside (u ++ v) := by
  unfold Outside
  rw [Reader.run_append, run_of_outside hu]
  exact hv

theorem Outside.of_append (hu : Outside u) (h : Outside (u ++ v)) : Outside v := by
  unfold Outside at h
  rw [Reader.run_append, run_of_outside hu] at h
  exact h

theorem outside_of_plain (h : ∀ c ∈ u, c ≠ '"' ∧ c ≠ '\'') : Outside u ∧ literals u = [] := by
  unfold Outside literals
  rw [run_outside h]
  exact ⟨rfl, rfl⟩

theorem dollar_edit (hx : x ∈ edits reDollarBrace text) : ∃ inner,
    x.2.before = ('$' :: '\x7b' :: inner) ++ ['\x7d'] ∧ x.2.after = ('(' :: inner) ++ [')'] := by
  obtain ⟨prev, rest, n, hp, hbefore⟩ := of_edits hx
  obtain ⟨inner, rest', htext, -, rfl, hafter⟩ := reDollarBrace_eq_some hp
  refine ⟨inner, ?_, hafter⟩
  rw [hbefore, htext]
  simp [List.take_append]

theorem hash_edit (hx : x ∈ edits reHashIdent text) :
    x.2.before = '#' :: x.2.after ∧ x.2.after ≠ [] ∧ ∀ c ∈ x.2.after, isIdentChar c = true := by
  obtain ⟨prev, rest, n, hp, hbefore⟩ := of_edits hx
  obtain ⟨rest', htext, hne, hall, rfl⟩ := reHashIdent_eq_some hp
  refine ⟨?_, hne, hall⟩
  rw [hbefore, htext]
  simp

theorem single_edit (hx : x ∈ edits reSingleQuote text) : ∃ inner, '\'' ∉ inner ∧
    x.2.before = '\'' :: (inner ++ ['\'']) ∧ x.2.after = '"' :: (inner ++ ['"']) := by
  obtain ⟨prev, rest, n, hp, hbefore⟩ := of_edits hx
  obtain ⟨inner, rest', htext, hinner, rfl, hafter⟩ := reSingleQuote_eq_some hp
  refine ⟨inner, hinner, ?_, by rw [hafter]; rfl⟩
  rw [hbefore, htext]
  simp [List.take_append]

theorem call_edit (hx : x ∈ edits reContainsFn text) : ∃ col arg,
    callArguments x.2.before = (col, arg) ∧
      x.2.before = containsOpen ++ (col ++ (',' :: arg ++ [')'])) ∧
      x.2.after = '(' :: elementOf arg ++ (") in (".toList ++ (col ++ [')'])) := by
  obtain ⟨prev, rest, n, hp, hbefore⟩ := of_edits hx
  obtain ⟨col, arg, rest', htext, -, -, hcol, -, -, rfl, hafter⟩ := reContainsFn_eq_some hp
  have hform : x.2.before = containsOpen ++ (col ++ (',' :: arg ++ [')'])) := by
    have hsplit : containsOpen ++ (col ++ ',' :: (arg ++ ')' :: rest')) =
        (containsOpen ++ (col ++ (',' :: arg ++ [')']))) ++ rest' := by simp
    have hlength : (containsOpen ++ (col ++ (',' :: arg ++ [')']))).length =
        col.length + arg.length + 10 + 1 := by
      simp only [containsOpen, List.length_append, List.length_cons, List.length_nil]
      omega
    rw [hbefore, htext, hsplit, ← hlength, List.take_left]
  refine ⟨col, arg, ?_, hform, by rw [hafter]; simp⟩
  have htake : (col ++ (',' :: arg ++ [')'])).takeWhile isColumnChar = col := by
    rw [List.takeWhile_append_of_pos hcol]
    simp [isColumnChar]
  have hdrop : (col ++ (',' :: arg ++ [')'])).dropWhile isColumnChar = ',' :: arg ++ [')'] := by
    rw [List.dropWhile_append_of_pos hcol]
    rfl
  rw [hform, callArguments, List.drop_left, htake, hdrop]
  simp

end Edits

/-! ## Edits outside literals -/

section Kept

variable {u v w content : List Char} {q : Quote} {escaped : Bool} {x : List Char × Piece Char}
  {text : List Char}

/-- Text between two that have no quotes. -/
theorem run_between (hu : ∀ c ∈ u, c ≠ '"' ∧ c ≠ '\'') (hw : ∀ c ∈ w, c ≠ '"' ∧ c ≠ '\'')
    (hv : Outside v) : quoteReader.run .outside (u ++ (v ++ w)) = (.outside, literals v) := by
  rw [Reader.run_append, run_outside hu, Reader.run_append, run_of_outside hv, run_outside hw]
  simp

theorem run_unbroken (hq : q = .double ∨ q = .single ∧ '\'' ∉ u) (h : unbroken escaped u = true) :
    quoteReader.run (.inside q content escaped) u = (.inside q (content ++ u) false, []) := by
  induction u generalizing content escaped with
  | nil =>
    have hescaped : escaped = false := by simpa [unbroken] using h
    rw [hescaped, List.append_nil]
    rfl
  | cons c rest ih =>
    have hrest : q = .double ∨ q = .single ∧ '\'' ∉ rest :=
      hq.imp_right fun hq => ⟨hq.1, fun hmem => hq.2 (List.mem_cons_of_mem c hmem)⟩
    cases escaped with
    | true =>
      rw [Reader.run_cons, show quoteReader.step (.inside q content true) c =
        (.inside q (content ++ [c]) false, []) from rfl, ih hrest h]
      simp
    | false =>
      rw [unbroken, Bool.and_eq_true] at h
      have hc : c ≠ q.char := by
        rcases hq with rfl | ⟨rfl, hmem⟩
        · show c ≠ '"'
          simpa using h.1
        · rintro rfl
          exact hmem (List.mem_cons_self ..)
      have hstep : quoteReader.step (.inside q content false) c =
          (.inside q (content ++ [c]) (c == '\\'), []) := by
        simp [quoteReader, hc]
      rw [Reader.run_cons, hstep, ih hrest h.2]
      simp

/-- A literal between its quotes. -/
theorem run_literal (hq : q = .double ∨ q = .single ∧ '\'' ∉ u) (h : unbroken false u = true) :
    quoteReader.run .outside (q.char :: (u ++ [q.char])) = (.outside, [u]) := by
  have hopen : quoteReader.step .outside q.char = (.inside q [] false, []) := by
    rcases hq with rfl | ⟨rfl, -⟩ <;> rfl
  have hclose : quoteReader.step (.inside q u false) q.char = (.outside, [u]) := by
    simp [quoteReader]
  rw [Reader.run_cons, hopen, Reader.run_append, run_unbroken hq h, List.nil_append,
    Reader.run_cons, hclose]
  rfl

theorem elementOf_blank (arg : List Char) :
    ∃ blanks, arg = blanks ++ elementOf arg ∧ ∀ c ∈ blanks, c ≠ '"' ∧ c ≠ '\'' := by
  have hblank : ∀ c, isBlank c = true → c ≠ '"' ∧ c ≠ '\'' := by
    intro c hc
    constructor <;> rintro rfl <;> exact absurd hc (by decide)
  have hleading : ∀ c ∈ arg.takeWhile isBlank, c ≠ '"' ∧ c ≠ '\'' :=
    fun c hc => hblank c (List.mem_takeWhile_imp hc)
  simp only [elementOf]
  split
  · -- all of it is white space
    rename_i hempty
    refine ⟨arg.take (arg.length - 1), (List.take_append_drop _ _).symm, fun c hc => ?_⟩
    have hall := List.dropWhile_eq_nil_iff.mp (List.isEmpty_iff.mp hempty)
    exact hblank c (hall c (List.mem_of_mem_take hc))
  · exact ⟨arg.takeWhile isBlank, List.takeWhile_append_dropWhile.symm, hleading⟩

theorem dollar_kept (hx : x ∈ edits reDollarBrace text)
    (h : Outside x.1 ∧ Outside (x.1 ++ x.2.before.dropLast)) :
    quoteReader.run (quoteReader.run .outside x.1).1 x.2.after =
      quoteReader.run (quoteReader.run .outside x.1).1 x.2.before := by
  obtain ⟨inner, hbefore, hafter⟩ := dollar_edit hx
  rw [hbefore, List.dropLast_concat] at h
  have hopen : Outside ['$', '\x7b'] := by decide
  have hinner : Outside inner := hopen.of_append (h.1.of_append h.2)
  have hb : x.2.before = ['$', '\x7b'] ++ (inner ++ ['\x7d']) := by rw [hbefore]; simp
  have ha : x.2.after = ['('] ++ (inner ++ [')']) := by rw [hafter]; simp
  rw [run_of_outside h.1, ha, hb, run_between (quoteFree rfl) (quoteFree rfl) hinner,
    run_between (quoteFree rfl) (quoteFree rfl) hinner]

theorem isIdentChar_ne_quotes {c : Char} (h : isIdentChar c = true) : c ≠ '"' ∧ c ≠ '\'' := by
  constructor <;> rintro rfl <;> exact absurd h (by decide)

theorem hash_kept (hx : x ∈ edits reHashIdent text) (h : Outside x.1) :
    quoteReader.run (quoteReader.run .outside x.1).1 x.2.after =
      quoteReader.run (quoteReader.run .outside x.1).1 x.2.before := by
  obtain ⟨hbefore, -, hall⟩ := hash_edit hx
  have hident : ∀ c ∈ x.2.after, c ≠ '"' ∧ c ≠ '\'' :=
    fun c hc => isIdentChar_ne_quotes (hall c hc)
  rw [run_of_outside h, hbefore, run_outside hident,
    run_outside (List.forall_mem_cons.mpr ⟨by decide, hident⟩)]

theorem single_kept (hx : x ∈ edits reSingleQuote text)
    (h : Outside x.1 ∧ unbroken false x.2.before.tail.dropLast = true) :
    quoteReader.run (quoteReader.run .outside x.1).1 x.2.after =
      quoteReader.run (quoteReader.run .outside x.1).1 x.2.before := by
  obtain ⟨inner, hinner, hbefore, hafter⟩ := single_edit hx
  rw [hbefore, List.tail_cons, List.dropLast_concat] at h
  have hdouble := run_literal (q := .double) (.inl rfl) h.2
  have hsingle := run_literal (q := .single) (.inr ⟨rfl, hinner⟩) h.2
  rw [run_of_outside h.1, hafter, hbefore]
  exact hdouble.trans hsingle.symm

theorem call_kept (hx : x ∈ edits reContainsFn text)
    (h : Outside x.1 ∧ Swappable (callArguments x.2.before)) :
    quoteReader.run (quoteReader.run .outside x.1).1 x.2.after =
      quoteReader.run (quoteReader.run .outside x.1).1 x.2.before := by
  obtain ⟨col, arg, hargs, hbefore, hafter⟩ := call_edit hx
  obtain ⟨hstart, hswap⟩ := h
  rw [hargs] at hswap
  obtain ⟨hcol, harg, horder⟩ := hswap
  obtain ⟨blanks, hsplit, hblanks⟩ := elementOf_blank arg
  obtain ⟨hout, hnone⟩ := outside_of_plain hblanks
  have helem : Outside (elementOf arg) := hout.of_append (hsplit ▸ harg)
  have hliterals : literals (elementOf arg) = literals arg := by
    conv_rhs => rw [hsplit]
    rw [literals_append hout, hnone, List.nil_append]
  have hopen : ∀ c ∈ containsOpen, c ≠ '"' ∧ c ≠ '\'' := quoteFree rfl
  have hb : quoteReader.run .outside x.2.before = (.outside, literals col ++ literals arg) := by
    rw [hbefore, Reader.run_append, run_outside hopen, Reader.run_append, run_of_outside hcol,
      show (',' :: arg ++ [')']) = [','] ++ (arg ++ [')']) from rfl,
      run_between (quoteFree rfl) (quoteFree rfl) harg]
    rfl
  have ha : quoteReader.run .outside x.2.after = (.outside, literals arg ++ literals col) := by
    rw [hafter, show ('(' :: elementOf arg ++ (") in (".toList ++ (col ++ [')']))) =
      ['('] ++ (elementOf arg ++ (") in (".toList ++ (col ++ [')']))) from rfl,
      Reader.run_append, run_outside (quoteFree rfl), Reader.run_append, run_of_outside helem,
      run_between (quoteFree rfl) (quoteFree rfl) hcol, hliterals]
    rfl
  rw [run_of_outside hstart, ha, hb, horder]

end Kept

/-! ## Trimming -/

section Trimmed

variable {u v : List Char}

theorem isSpace_ne_quotes {c : Char} (h : isSpace c = true) : c ≠ '"' ∧ c ≠ '\'' := by
  constructor <;> rintro rfl <;> exact absurd h (by decide)

/-- White space closes no literal. -/
theorem run_spaces (s : Quoting) (h : ∀ c ∈ v, isSpace c = true) :
    (quoteReader.run s v).2 = [] := by
  induction v generalizing s with
  | nil => rfl
  | cons c rest ih =>
    obtain ⟨hc, hrest⟩ := List.forall_mem_cons.mp h
    obtain ⟨hdouble, hsingle⟩ := isSpace_ne_quotes hc
    have hstep : (quoteReader.step s c).2 = [] := by
      cases s with
      | outside => simp [quoteReader, hdouble, hsingle]
      | inside q content escaped =>
        have hne : c ≠ q.char := by cases q <;> assumption
        cases escaped with
        | true => rfl
        | false => simp [quoteReader, hne]
    rw [Reader.run_cons, hstep, ih _ hrest]
    rfl

theorem literals_trimSpace (text : List Char) : literals (trimSpace text) = literals text := by
  have hfront : ∀ c ∈ text.takeWhile isSpace, c ≠ '"' ∧ c ≠ '\'' :=
    fun c hc => isSpace_ne_quotes (List.mem_takeWhile_imp hc)
  have hback : ∀ t : List Char, ∃ spaces, t = (t.reverse.dropWhile isSpace).reverse ++ spaces ∧
      ∀ c ∈ spaces, isSpace c = true := by
    intro t
    refine ⟨(t.reverse.takeWhile isSpace).reverse, ?_, fun c hc => ?_⟩
    · rw [← List.reverse_append, List.takeWhile_append_dropWhile, List.reverse_reverse]
    · exact List.mem_takeWhile_imp (List.mem_reverse.mp hc)
  obtain ⟨hplain, hnone⟩ := outside_of_plain hfront
  have hleading : literals (text.dropWhile isSpace) = literals text := by
    conv_rhs => rw [← List.takeWhile_append_dropWhile (p := isSpace) (l := text)]
    rw [literals_append hplain, hnone, List.nil_append]
  obtain ⟨spaces, hsplit, hspaces⟩ := hback (text.dropWhile isSpace)
  have htrailing : literals (text.dropWhile isSpace) = literals (trimSpace text) := by
    unfold trimSpace
    conv_lhs => rw [hsplit]
    unfold literals
    rw [Reader.run_append, run_spaces _ hspaces, List.append_nil]
  rw [← htrailing, hleading]

end Trimmed

/-! ## Kept literals -/

section Sufficient

variable {text : List Char}

/-- The last two rewritings, if they meet their conditions. -/
theorem literals_rewritten
    (hsingle : ∀ x ∈ edits reSingleQuote (replaceAll reHashIdent (replaceAll reDollarBrace text)),
      Outside x.1 ∧ unbroken false x.2.before.tail.dropLast = true)
    (hcall : ∀ x ∈ edits reContainsFn (normalised text),
      Outside x.1 ∧ Swappable (callArguments x.2.before)) :
    literals (trimSpace (replaceAll reContainsFn (normalised text))) =
      literals (replaceAll reHashIdent (replaceAll reDollarBrace text)) := by
  rw [literals_trimSpace]
  unfold literals
  rw [quoteReader.run_replaceAll fun x hx => call_kept hx (hcall x hx), normalised,
    quoteReader.run_replaceAll fun x hx => single_kept hx (hsingle x hx)]

theorem literals_of_untouched (h : LiteralsUntouched text) :
    literals (trimSpace (replaceAll reContainsFn (normalised text))) = literals text := by
  rw [literals_rewritten h.single h.call]
  unfold literals
  rw [quoteReader.run_replaceAll fun x hx => hash_kept hx (h.hash x hx),
    quoteReader.run_replaceAll fun x hx => dollar_kept hx (h.dollar x hx)]

end Sufficient

/-! ## What the first rewritings keep

    Two readers that do not carry the contents of a literal: one keeps the
    quotes in it only, the other puts its characters out one by one.
-/

def quotesOf (cs : List Char) : List Char :=
  cs.filter fun c => c == '"' || c == '\''

def Quoting.content : Quoting → List Char
  | .outside => []
  | .inside _ content _ => content

/-- Of the contents only the quotes. -/
def Quoting.bare : Quoting → Quoting
  | .outside => .outside
  | .inside q content escaped => .inside q (quotesOf content) escaped

/-- The state after a character that is no quote and no backslash. -/
def Quoting.settle : Quoting → Quoting
  | .outside => .outside
  | .inside q content _ => .inside q (quotesOf content) false

/-- The characters that belong to a literal if they are read in this state. -/
def Quoting.ink : Quoting → List Char → List Char
  | .outside, _ => []
  | .inside .., cs => cs

/-- Puts the quotes of each literal out. -/
def bareReader : Reader Quoting Char (List Char) where
  step s c := ((quoteReader.step s c).1.bare, (quoteReader.step s c).2.map quotesOf)

/-- Puts the characters of the literals out. -/
def inkReader : Reader Quoting Char Char where
  step s c := ((quoteReader.step s c).1.bare,
    match s with
    | .outside => []
    | .inside _ _ true => [c]
    | .inside q _ false => if c = q.char then [] else [c])

section Bare

variable {s : Quoting} {u : List Char} {c : Char} {x : List Char × Piece Char} {text : List Char}

@[simp] theorem quotesOf_append (u v : List Char) : quotesOf (u ++ v) = quotesOf u ++ quotesOf v :=
  List.filter_append ..

@[simp] theorem quotesOf_quotesOf (u : List Char) : quotesOf (quotesOf u) = quotesOf u := by
  simp [quotesOf]

theorem bare_step (s : Quoting) (c : Char) :
    bareReader.step s.bare c =
      ((quoteReader.step s c).1.bare, (quoteReader.step s c).2.map quotesOf) := by
  cases s with
  | outside => rfl
  | inside q content escaped =>
    cases escaped with
    | true => simp [bareReader, quoteReader, Quoting.bare]
    | false =>
      by_cases hc : c = q.char <;> simp [bareReader, quoteReader, Quoting.bare, hc]

theorem bare_run (s : Quoting) (u : List Char) :
    bareReader.run s.bare u =
      ((quoteReader.run s u).1.bare, (quoteReader.run s u).2.map quotesOf) := by
  induction u generalizing s with
  | nil => rfl
  | cons c rest ih => rw [Reader.run_cons, Reader.run_cons, bare_step, ih, List.map_append]

theorem ink_step (s : Quoting) (c : Char) :
    (inkReader.step s.bare c).1 = (quoteReader.step s c).1.bare ∧
      (quoteReader.step s c).2.flatten ++ (quoteReader.step s c).1.content =
        s.content ++ (inkReader.step s.bare c).2 := by
  cases s with
  | outside =>
    refine ⟨rfl, ?_⟩
    by_cases hd : c = '"'
    · simp [inkReader, quoteReader, Quoting.bare, Quoting.content, hd]
    · by_cases hs : c = '\'' <;>
        simp [inkReader, quoteReader, Quoting.bare, Quoting.content, hd, hs]
  | inside q content escaped =>
    cases escaped with
    | true => simp [inkReader, quoteReader, Quoting.bare, Quoting.content]
    | false =>
      by_cases hc : c = q.char <;>
        simp [inkReader, quoteReader, Quoting.bare, Quoting.content, hc]

/-- The characters of the literals, and of the one that is still open. -/
theorem ink_run (s : Quoting) (u : List Char) :
    (inkReader.run s.bare u).1 = (quoteReader.run s u).1.bare ∧
      (quoteReader.run s u).2.flatten ++ (quoteReader.run s u).1.content =
        s.content ++ (inkReader.run s.bare u).2 := by
  induction u generalizing s with
  | nil => exact ⟨rfl, by simp⟩
  | cons c rest ih =>
    obtain ⟨hstate, hink⟩ := ink_step s c
    obtain ⟨hstate', hink'⟩ := ih (quoteReader.step s c).1
    rw [Reader.run_cons, Reader.run_cons, hstate]
    refine ⟨hstate', ?_⟩
    rw [List.flatten_append, List.append_assoc, hink', ← List.append_assoc, hink,
      List.append_assoc]

theorem flatten_literals (h : Outside u) :
    (literals u).flatten = (inkReader.run .outside u).2 := by
  have hink := (ink_run .outside u).2
  rw [h] at hink
  simpa [Quoting.content, Quoting.bare, literals] using hink

theorem Outside.iff_bare : Outside u ↔ (bareReader.run .outside u).1 = .outside := by
  have hbare := bare_run .outside u
  rw [show Quoting.bare .outside = .outside from rfl] at hbare
  rw [hbare, Outside]
  cases (quoteReader.run .outside u).1 <;> simp [Quoting.bare]

theorem Outside.iff_ink : Outside u ↔ (inkReader.run .outside u).1 = .outside := by
  have hink := (ink_run .outside u).1
  rw [show Quoting.bare .outside = .outside from rfl] at hink
  rw [hink, Outside]
  cases (quoteReader.run .outside u).1 <;> simp [Quoting.bare]

/-- Neither a quote nor a backslash. -/
def IsPlain (c : Char) : Prop := c ≠ '"' ∧ c ≠ '\'' ∧ c ≠ '\\'

@[simp] theorem settle_settle (s : Quoting) : s.settle.settle = s.settle := by
  cases s <;> simp [Quoting.settle]

@[simp] theorem ink_settle (s : Quoting) (u : List Char) : s.settle.ink u = s.ink u := by
  cases s <;> rfl

theorem quotesOf_plain (hc : IsPlain c) : quotesOf [c] = [] := by
  simp [quotesOf, hc.1, hc.2.1]

theorem IsPlain.step (hc : IsPlain c) (s : Quoting) :
    bareReader.step s c = (s.settle, []) ∧ inkReader.step s c = (s.settle, s.ink [c]) := by
  obtain ⟨hdouble, hsingle, hbackslash⟩ := id hc
  cases s with
  | outside => simp [bareReader, inkReader, quoteReader, Quoting.bare, Quoting.settle,
      Quoting.ink, hdouble, hsingle]
  | inside q content escaped =>
    have hne : c ≠ q.char := by cases q <;> assumption
    cases escaped <;> simp [bareReader, inkReader, quoteReader, Quoting.bare, Quoting.settle,
      Quoting.ink, hne, hbackslash, quotesOf_plain hc]

theorem run_plain (hu : ∀ c ∈ u, IsPlain c) (hne : u ≠ []) (s : Quoting) :
    bareReader.run s u = (s.settle, []) ∧ inkReader.run s u = (s.settle, s.ink u) := by
  induction u generalizing s with
  | nil => exact absurd rfl hne
  | cons c rest ih =>
    obtain ⟨hc, hrest⟩ := List.forall_mem_cons.mp hu
    obtain ⟨hbare, hink⟩ := hc.step s
    rw [Reader.run_cons, Reader.run_cons, hbare, hink]
    cases rest with
    | nil => simp
    | cons d rest =>
      obtain ⟨hbare', hink'⟩ := ih hrest (List.cons_ne_nil _ _) s.settle
      rw [hbare', hink']
      cases s <;> simp [Quoting.settle, Quoting.ink]

theorem isIdentChar_plain (h : isIdentChar c = true) : IsPlain c := by
  refine ⟨?_, ?_, ?_⟩ <;> rintro rfl <;> exact absurd h (by decide)

/-- How much a character weighs: `}` more than what stands for it. -/
def inkSize (c : Char) : Nat :=
  if c = '\x7d' then 2 else 1

theorem inkSize_pos (c : Char) : 0 < inkSize c := by
  unfold inkSize
  split <;> omega

theorem hash_read (hx : x ∈ edits reHashIdent text) (s : Quoting) :
    bareReader.run s x.2.after = bareReader.run s x.2.before ∧
      (inkReader.run s x.2.after).1 = (inkReader.run s x.2.before).1 ∧
      ((inkReader.run s x.2.after).2.map inkSize).sum ≤
        ((inkReader.run s x.2.before).2.map inkSize).sum ∧
      (((inkReader.run s x.2.after).2.map inkSize).sum =
        ((inkReader.run s x.2.before).2.map inkSize).sum → s = .outside) := by
  obtain ⟨hbefore, hne, hall⟩ := hash_edit hx
  have hafter := run_plain (fun c hc => isIdentChar_plain (hall c hc)) hne s
  have hplain : ∀ c ∈ '#' :: x.2.after, IsPlain c :=
    List.forall_mem_cons.mpr ⟨⟨by decide, by decide, by decide⟩,
      fun c hc => isIdentChar_plain (hall c hc)⟩
  have hwhole := run_plain hplain (List.cons_ne_nil _ _) s
  rw [hbefore, hafter.1, hafter.2, hwhole.1, hwhole.2]
  refine ⟨rfl, rfl, ?_⟩
  cases s with
  | outside => exact ⟨Nat.le_refl _, fun _ => rfl⟩
  | inside q content escaped =>
    have hpos := inkSize_pos '#'
    simp only [Quoting.ink, List.map_cons, List.sum_cons]
    exact ⟨by omega, fun heq => by omega⟩

theorem dollar_read (hx : x ∈ edits reDollarBrace text) (s : Quoting) :
    bareReader.run s x.2.after = bareReader.run s x.2.before ∧
      (inkReader.run s x.2.after).1 = (inkReader.run s x.2.before).1 ∧
      ((inkReader.run s x.2.after).2.map inkSize).sum ≤
        ((inkReader.run s x.2.before).2.map inkSize).sum ∧
      (((inkReader.run s x.2.after).2.map inkSize).sum =
        ((inkReader.run s x.2.before).2.map inkSize).sum →
        s = .outside ∧ (inkReader.run s x.2.before.dropLast).1 = .outside) := by
  obtain ⟨inner, hbefore, hafter⟩ := dollar_edit hx
  have hplain : ∀ c ∈ ['$', '\x7b', '\x7d', '(', ')'], IsPlain c := by
    simp [IsPlain]
  have hopen := run_plain (u := ['$', '\x7b']) (fun c hc => hplain c (by grind)) (by simp) s
  have hparen := run_plain (u := ['(']) (fun c hc => hplain c (by grind)) (by simp) s
  have hinner : x.2.before.dropLast = ['$', '\x7b'] ++ inner := by
    rw [hbefore, List.dropLast_concat]
    rfl
  have hb : x.2.before = ['$', '\x7b'] ++ (inner ++ ['\x7d']) := by rw [hbefore]; simp
  have ha : x.2.after = ['('] ++ (inner ++ [')']) := by rw [hafter]; simp
  have hclose : ∀ t, bareReader.run t [')'] = bareReader.run t ['\x7d'] ∧
      (inkReader.run t [')']).1 = (inkReader.run t ['\x7d']).1 ∧
      (inkReader.run t [')']).2 = t.ink [')'] ∧ (inkReader.run t ['\x7d']).2 = t.ink ['\x7d'] := by
    intro t
    have hround := run_plain (u := [')']) (fun c hc => hplain c (by grind)) (by simp) t
    have hbrace := run_plain (u := ['\x7d']) (fun c hc => hplain c (by grind)) (by simp) t
    rw [hround.1, hround.2, hbrace.1, hbrace.2]
    exact ⟨rfl, rfl, rfl, rfl⟩
  refine ⟨?_, ?_, ?_⟩
  · simp only [ha, hb, Reader.run_append, hopen.1, hparen.1, fun t => (hclose t).1]
  · simp only [ha, hb, Reader.run_append, hopen.2, hparen.2, fun t => (hclose t).2.1]
  · rw [hinner]
    simp only [ha, hb, Reader.run_append, hopen.2, hparen.2,
      fun t => (hclose t).2.2.1, fun t => (hclose t).2.2.2, List.map_append, List.sum_append]
    generalize (inkReader.run s.settle inner).1 = t
    have hsizes : inkSize '$' = 1 ∧ inkSize '\x7b' = 1 ∧ inkSize '\x7d' = 2 ∧ inkSize '(' = 1 ∧
        inkSize ')' = 1 := by decide
    cases s with
    | outside =>
      cases t with
      | outside => exact ⟨Nat.le_refl _, fun _ => ⟨rfl, rfl⟩⟩
      | inside q content escaped =>
        simp only [Quoting.ink, List.map_cons, List.map_nil, List.sum_cons, List.sum_nil, hsizes]
        exact ⟨by omega, fun heq => absurd heq (by omega)⟩
    | inside q content escaped =>
      cases t <;>
        simp only [Quoting.ink, List.map_cons, List.map_nil, List.sum_cons, List.sum_nil, hsizes] <;>
        exact ⟨by omega, fun heq => absurd heq (by omega)⟩

/-- The first rewritings keep the quotes, and where the literals end. -/
theorem bare_rewritten (text : List Char) :
    bareReader.run .outside (replaceAll reHashIdent (replaceAll reDollarBrace text)) =
      bareReader.run .outside text := by
  rw [bareReader.run_replaceAll fun x hx => (hash_read hx _).1,
    bareReader.run_replaceAll fun x hx => (dollar_read hx _).1]

/-- Literals that are the same after the first rewritings have not been
    touched. -/
theorem untouched_of_literals (hclosed : Outside text)
    (h : literals (replaceAll reHashIdent (replaceAll reDollarBrace text)) = literals text) :
    (∀ x ∈ edits reDollarBrace text, Outside x.1 ∧ Outside (x.1 ++ x.2.before.dropLast)) ∧
      ∀ x ∈ edits reHashIdent (replaceAll reDollarBrace text), Outside x.1 := by
  have hclosed' : Outside (replaceAll reHashIdent (replaceAll reDollarBrace text)) := by
    rw [Outside.iff_bare, bare_rewritten, ← Outside.iff_bare]
    exact hclosed
  have hink : (inkReader.run .outside (replaceAll reHashIdent (replaceAll reDollarBrace text))).2 =
      (inkReader.run .outside text).2 := by
    rw [← flatten_literals hclosed', ← flatten_literals hclosed, h]
  obtain ⟨hle, heq⟩ := inkReader.sum_replaceAll inkSize .outside text
    fun x hx s => ⟨(dollar_read hx s).2.1, (dollar_read hx s).2.2.1⟩
  obtain ⟨hle', heq'⟩ := inkReader.sum_replaceAll inkSize .outside
    (replaceAll reDollarBrace text)
    fun x hx s => ⟨(hash_read hx s).2.1, (hash_read hx s).2.2.1⟩
  rw [hink] at hle' heq'
  have hsame : (((inkReader.run .outside (replaceAll reDollarBrace text)).2).map inkSize).sum =
      (((inkReader.run .outside text).2).map inkSize).sum := Nat.le_antisymm hle hle'
  constructor
  · intro x hx
    obtain ⟨hs, hinner⟩ := (dollar_read hx _).2.2.2 (heq hsame x hx)
    rw [Outside.iff_ink, Outside.iff_ink, Reader.run_append]
    exact ⟨hs, hinner⟩
  · intro x hx
    rw [Outside.iff_ink]
    exact (hash_read hx _).2.2.2 (heq' hsame.symm x hx)

end Bare

/-! ## What the quotes must be like

    The first pair of single quotes that is not a literal of its own leaves a
    literal whose quotes are not those of the literal that was there.
-/

section Quotes

variable {s : Quoting} {q q' : Quote} {content u v v' : List Char} {escaped escaped' : Bool}
  {x y : Char} {text : List Char}

def IsQuote (c : Char) : Prop := c = '"' ∨ c = '\''

theorem quotesOf_cons (hx : IsQuote x) (u : List Char) : quotesOf (x :: u) = x :: quotesOf u := by
  rcases hx with rfl | rfl <;> rfl

/-- A literal that is open is put out with what it holds. -/
theorem open_outs (q : Quote) (content v : List Char) (escaped : Bool) :
    ((quoteReader.run (.inside q content escaped) v).2 = [] ∧
        (quoteReader.run (.inside q content escaped) v).1 ≠ .outside) ∨
      ∃ tail rest, (quoteReader.run (.inside q content escaped) v).2 =
        (content ++ tail) :: rest := by
  induction v generalizing content escaped with
  | nil => exact .inl ⟨rfl, by simp⟩
  | cons c v ih =>
    have hgrow : ∀ escaped', quoteReader.step (.inside q content escaped) c =
        (.inside q (content ++ [c]) escaped', []) →
        ((quoteReader.run (.inside q content escaped) (c :: v)).2 = [] ∧
            (quoteReader.run (.inside q content escaped) (c :: v)).1 ≠ .outside) ∨
          ∃ tail rest, (quoteReader.run (.inside q content escaped) (c :: v)).2 =
            (content ++ tail) :: rest := by
      intro escaped' hstep
      rw [Reader.run_cons, hstep]
      rcases ih (content ++ [c]) escaped' with h | ⟨tail, rest, h⟩
      · exact .inl h
      · exact .inr ⟨c :: tail, rest, by simp [h]⟩
    cases escaped with
    | true => exact hgrow false rfl
    | false =>
      by_cases hc : c = q.char
      · refine .inr ⟨[], (quoteReader.run .outside v).2, ?_⟩
        rw [Reader.run_cons, show quoteReader.step (.inside q content false) c =
          (.outside, [content]) by simp [quoteReader, hc]]
        simp
      · exact hgrow (c == '\\') (by simp [quoteReader, hc])

theorem closed_outs (h : (quoteReader.run (.inside q content escaped) v).1 = .outside) :
    ∃ tail rest, (quoteReader.run (.inside q content escaped) v).2 = (content ++ tail) :: rest :=
  (open_outs q content v escaped).resolve_left fun hopen => hopen.2 h

/-- A literal that holds one quote more has other quotes. -/
theorem quotes_ne_closed (hx : IsQuote x)
    (h : (quoteReader.run (.inside q (content ++ [x]) escaped) v).1 = .outside)
    (rest' : List (List Char)) :
    (quoteReader.run (.inside q (content ++ [x]) escaped) v).2.map quotesOf ≠
      (content :: rest').map quotesOf := by
  obtain ⟨tail, rest, houts⟩ := closed_outs h
  rw [houts, List.map_cons, List.map_cons]
  intro heq
  have hlength := congrArg List.length (List.cons.inj heq).1
  rw [quotesOf_append, quotesOf_append, quotesOf_cons hx] at hlength
  simp only [List.length_append, List.length_cons] at hlength
  omega

theorem quotes_ne_open (hx : IsQuote x) (hy : IsQuote y) (hne : x ≠ y)
    (h : (quoteReader.run (.inside q (content ++ [x]) escaped) v).1 = .outside) :
    (quoteReader.run (.inside q (content ++ [x]) escaped) v).2.map quotesOf ≠
      (quoteReader.run (.inside q' (content ++ [y]) escaped') v').2.map quotesOf := by
  obtain ⟨tail, rest, houts⟩ := closed_outs h
  rw [houts]
  rcases open_outs q' (content ++ [y]) v' escaped' with ⟨hnone, -⟩ | ⟨tail', rest', houts'⟩
  · rw [hnone]
    simp
  · rw [houts', List.map_cons, List.map_cons]
    intro heq
    have hsame := (List.cons.inj heq).1
    simp only [quotesOf_append, quotesOf_cons hx, quotesOf_cons hy, List.append_assoc,
      List.cons_append] at hsame
    exact hne (List.cons.inj (List.append_cancel_left hsame)).1

theorem run_silent (h : quoteReader.run s u = (.inside q content escaped, [])) (v : List Char) :
    quoteReader.run s (u ++ v) = quoteReader.run (.inside q content escaped) v := by
  rw [Reader.run_append, h]
  rfl

/-- Text that does not stay a literal between double quotes closes it early, or
    escapes the closing quote. -/
theorem broken_cases (h : unbroken escaped u = false) :
    (∃ pre post, u = pre ++ '"' :: post ∧ unbroken escaped pre = true) ∨
      ∀ q, q = .double ∨ q = .single ∧ '\'' ∉ u → ∀ content,
        quoteReader.run (.inside q content escaped) u = (.inside q (content ++ u) true, []) := by
  induction u generalizing escaped with
  | nil =>
    have hescaped : escaped = true := by simpa [unbroken] using h
    exact .inr fun q _ content => by rw [hescaped, List.append_nil]; rfl
  | cons c u ih =>
    have hquotes : ∀ q : Quote, q = .double ∨ q = .single ∧ '\'' ∉ c :: u →
        q = .double ∨ q = .single ∧ '\'' ∉ u :=
      fun q hq => hq.imp_right fun hq => ⟨hq.1, fun hmem => hq.2 (List.mem_cons_of_mem c hmem)⟩
    cases escaped with
    | true =>
      rcases @ih false h with ⟨pre, post, rfl, hpre⟩ | hrun
      · exact .inl ⟨c :: pre, post, rfl, hpre⟩
      · refine .inr fun q hq content => ?_
        rw [Reader.run_cons, show quoteReader.step (.inside q content true) c =
          (.inside q (content ++ [c]) false, []) from rfl, hrun q (hquotes q hq)]
        simp
    | false =>
      by_cases hc : c = '"'
      · exact .inl ⟨[], u, by rw [hc]; rfl, rfl⟩
      · have hrest : unbroken (c == '\\') u = false := by simpa [unbroken, hc] using h
        rcases ih hrest with ⟨pre, post, rfl, hpre⟩ | hrun
        · exact .inl ⟨c :: pre, post, rfl, by simp [unbroken, hc, hpre]⟩
        · refine .inr fun q hq content => ?_
          have hne : c ≠ q.char := by
            rcases hq with rfl | ⟨rfl, hmem⟩
            · exact hc
            · rintro rfl
              exact hmem (List.mem_cons_self ..)
          rw [Reader.run_cons, show quoteReader.step (.inside q content false) c =
            (.inside q (content ++ [c]) (c == '\\'), []) by simp [quoteReader, hne],
            hrun q (hquotes q hq)]
          simp

/-- The states between the pairs of single quotes. -/
def Quoting.NotSingle (s : Quoting) : Prop :=
  ∀ content escaped, s ≠ .inside .single content escaped

/-- A pair of single quotes that changes no quotes of a literal is a literal,
    also between double quotes. -/
theorem single_read (hs : s.NotSingle) (hu : '\'' ∉ u)
    (hclosed : (quoteReader.run s ('\'' :: (u ++ ['\'']) ++ v)).1 = .outside)
    (heq : (quoteReader.run s ('"' :: (u ++ ['"']) ++ v')).2.map quotesOf =
      (quoteReader.run s ('\'' :: (u ++ ['\'']) ++ v)).2.map quotesOf) :
    s = .outside ∧ unbroken false u = true := by
  have hsingle : IsQuote '\'' := .inr rfl
  have hdouble : IsQuote '"' := .inl rfl
  cases s with
  | outside =>
    refine ⟨rfl, ?_⟩
    by_contra hbroken
    rcases broken_cases (Bool.not_eq_true _ ▸ hbroken) with ⟨pre, post, rfl, hpre⟩ | hrun
    · -- the literal ends at the double quote in it
      have hpreSingle : '\'' ∉ pre := fun hmem => hu (List.mem_append_left _ hmem)
      have hsource : ∃ e, quoteReader.run .outside ('\'' :: (pre ++ ['"'])) =
          (.inside .single (pre ++ ['"']) e, []) := by
        refine ⟨false, ?_⟩
        rw [Reader.run_cons, show quoteReader.step .outside '\'' = (.inside .single [] false, [])
          from rfl, Reader.run_append, run_unbroken (.inr ⟨rfl, hpreSingle⟩) hpre]
        rfl
      have htarget : quoteReader.run .outside ('"' :: (pre ++ ['"'])) = (.outside, [pre]) :=
        run_literal (q := .double) (.inl rfl) hpre
      obtain ⟨e, hsource⟩ := hsource
      have hsplit : '\'' :: (pre ++ '"' :: post ++ ['\'']) ++ v =
          ('\'' :: (pre ++ ['"'])) ++ (post ++ ['\''] ++ v) := by simp
      have hsplit' : '"' :: (pre ++ '"' :: post ++ ['"']) ++ v' =
          ('"' :: (pre ++ ['"'])) ++ (post ++ ['"'] ++ v') := by simp
      rw [hsplit, run_silent hsource] at heq hclosed
      rw [hsplit', Reader.run_append, htarget] at heq
      exact quotes_ne_closed hdouble hclosed _ heq.symm
    · -- the closing quote is escaped
      have hopen : ∀ q : Quote, q = .double ∨ q = .single →
          ∃ e, quoteReader.run .outside (q.char :: (u ++ [q.char])) =
            (.inside q (u ++ [q.char]) e, []) := by
        intro q hq
        have hq' : q = .double ∨ q = .single ∧ '\'' ∉ u := hq.imp_right fun h => ⟨h, hu⟩
        refine ⟨false, ?_⟩
        rw [Reader.run_cons, show quoteReader.step .outside q.char = (.inside q [] false, []) by
          cases q <;> rfl, Reader.run_append, hrun q hq']
        rfl
      obtain ⟨e, hsource⟩ := hopen .single (.inr rfl)
      obtain ⟨e', htarget⟩ := hopen .double (.inl rfl)
      rw [show '\'' :: (u ++ ['\'']) = Quote.single.char :: (u ++ [Quote.single.char]) from rfl,
        run_silent hsource] at heq hclosed
      rw [show '"' :: (u ++ ['"']) = Quote.double.char :: (u ++ [Quote.double.char]) from rfl,
        run_silent htarget] at heq
      exact quotes_ne_open hsingle hdouble (by decide) hclosed heq.symm
  | inside q content escaped =>
    cases q with
    | single => exact absurd rfl (hs content escaped)
    | double =>
      have hsource : ∃ e, quoteReader.step (.inside .double content escaped) '\'' =
          (.inside .double (content ++ ['\'']) e, []) := by
        cases escaped with
        | true => exact ⟨false, rfl⟩
        | false => exact ⟨false, rfl⟩
      obtain ⟨e, hsource⟩ := hsource
      have hgrown : quoteReader.run (.inside .double content escaped) ('\'' :: (u ++ ['\'']) ++ v) =
          quoteReader.run (.inside .double (content ++ ['\'']) e) (u ++ ['\''] ++ v) := by
        rw [List.cons_append, Reader.run_cons, hsource]
        rfl
      rw [hgrown] at heq hclosed
      rw [List.cons_append, Reader.run_cons] at heq
      cases escaped with
      | true => exact absurd heq.symm (quotes_ne_open hsingle hdouble (by decide) hclosed)
      | false => exact absurd heq.symm (quotes_ne_closed hsingle hclosed _)

/-- The pieces `reSingleQuote` cuts a text into: pairs of single quotes, and
    other characters; a single quote that is kept is the last one. -/
theorem singleQuote_pieces {ps rest : List (Piece Char)} {e : Piece Char}
    (h : pieces reSingleQuote none 0 text = ps ++ e :: rest) :
    (∃ a, e = .keep a ∧ (a = '\'' → '\'' ∉ sources rest)) ∨
      ∃ inner, '\'' ∉ inner ∧ e = ⟨'\'' :: (inner ++ ['\'']), '"' :: (inner ++ ['"'])⟩ := by
  rcases of_pieces h with ⟨a, prev, rfl, hnone⟩ | ⟨prev, n, hp, hbefore⟩
  · refine .inl ⟨a, rfl, ?_⟩
    rintro rfl hmem
    cases hdrop : (sources rest).dropWhile (· != '\'') with
    | nil =>
      have := List.dropWhile_eq_nil_iff.mp hdrop _ hmem
      simp at this
    | cons c cs => simp [reSingleQuote, hdrop] at hnone
  · obtain ⟨inner, tail, htext, hinner, rfl, hafter⟩ := reSingleQuote_eq_some hp
    refine .inr ⟨inner, hinner, ?_⟩
    obtain ⟨before, after⟩ := e
    simp only [htext] at hbefore
    simp only at hafter
    rw [hafter, hbefore]
    simp [List.take_append]

/-- If the rewriting changes no quotes of a literal, it meets its
    condition. -/
theorem single_of_quotes {ps : List (Piece Char)} (hs : s.NotSingle)
    (hps : ∀ qs e rest, ps = qs ++ e :: rest →
      (∃ a, e = .keep a ∧ (a = '\'' → '\'' ∉ sources rest)) ∨
        ∃ inner, '\'' ∉ inner ∧ e = ⟨'\'' :: (inner ++ ['\'']), '"' :: (inner ++ ['"'])⟩)
    (hclosed : (quoteReader.run s (sources ps)).1 = .outside)
    (heq : (quoteReader.run s (targets ps)).2.map quotesOf =
      (quoteReader.run s (sources ps)).2.map quotesOf) :
    ∀ qs e rest, ps = qs ++ e :: rest → e.before ≠ e.after →
      (quoteReader.run s (sources qs)).1 = .outside ∧
        unbroken false e.before.tail.dropLast = true := by
  induction ps generalizing s with
  | nil => exact fun qs e rest h => absurd h (by simp)
  | cons f ps ih =>
    have hrest : ∀ qs e rest, ps = qs ++ e :: rest →
        (∃ a, e = .keep a ∧ (a = '\'' → '\'' ∉ sources rest)) ∨
          ∃ inner, '\'' ∉ inner ∧ e = ⟨'\'' :: (inner ++ ['\'']), '"' :: (inner ++ ['"'])⟩ := by
      rintro qs e rest rfl
      exact hps (f :: qs) e rest rfl
    rw [sources_cons] at hclosed heq
    rw [targets_cons] at heq
    intro qs e rest hsplit hne
    rcases hps [] f ps rfl with ⟨a, rfl, hlast⟩ | ⟨inner, hinner, rfl⟩
    · cases qs with
      | nil =>
        obtain ⟨rfl, -⟩ := List.cons.inj hsplit
        exact absurd rfl hne
      | cons g qs =>
        obtain ⟨rfl, rfl⟩ := List.cons.inj hsplit
        by_cases ha : a = '\''
        · -- behind an unmatched quote nothing is rewritten
          rcases hrest qs e rest rfl with ⟨b, rfl, -⟩ | ⟨inner, -, rfl⟩
          · exact absurd rfl hne
          · refine absurd ?_ (hlast ha)
            simp
        · have hstep : (quoteReader.step s a).1.NotSingle := by
            intro content escaped
            cases s with
            | outside =>
              by_cases hd : a = '"' <;> simp [quoteReader, hd, ha]
            | inside q content' escaped' =>
              cases q with
              | single => exact absurd rfl (hs content' escaped')
              | double =>
                cases escaped' with
                | true => simp [quoteReader]
                | false => by_cases hd : a = Quote.double.char <;> simp [quoteReader, hd]
          rw [show (Piece.keep a).before = [a] from rfl, List.singleton_append,
            Reader.run_cons] at heq hclosed
          rw [show (Piece.keep a).after = [a] from rfl, List.singleton_append, Reader.run_cons,
            List.map_append, List.map_append] at heq
          rw [sources_cons, show (Piece.keep a).before = [a] from rfl, List.singleton_append,
            Reader.run_cons]
          exact ih hstep hrest hclosed (List.append_cancel_left heq) qs e rest rfl hne
    · obtain ⟨rfl, hunbroken⟩ := single_read hs hinner hclosed heq
      have hsource : ∀ w, quoteReader.run .outside ('\'' :: (inner ++ ['\'']) ++ w) =
          ((quoteReader.run .outside w).1, inner :: (quoteReader.run .outside w).2) := fun w => by
        rw [Reader.run_append, show quoteReader.run .outside ('\'' :: (inner ++ ['\''])) =
          (.outside, [inner]) from run_literal (q := .single) (.inr ⟨rfl, hinner⟩) hunbroken]
        rfl
      have htarget : ∀ w, quoteReader.run .outside ('"' :: (inner ++ ['"']) ++ w) =
          ((quoteReader.run .outside w).1, inner :: (quoteReader.run .outside w).2) := fun w => by
        rw [Reader.run_append, show quoteReader.run .outside ('"' :: (inner ++ ['"'])) =
          (.outside, [inner]) from run_literal (q := .double) (.inl rfl) hunbroken]
        rfl
      cases qs with
      | nil =>
        obtain ⟨rfl, -⟩ := List.cons.inj hsplit
        exact ⟨rfl, by simpa using hunbroken⟩
      | cons g qs =>
        obtain ⟨rfl, rfl⟩ := List.cons.inj hsplit
        simp only [hsource, htarget, List.map_cons] at heq hclosed
        simp only [sources_cons, hsource]
        exact ih hs hrest hclosed (List.cons.inj heq).2 qs e rest rfl hne

end Quotes

/-! ## Literals that are kept -/

theorem single_untouched {text : List Char} (hclosed : Outside text)
    (h : (literals (replaceAll reSingleQuote text)).map quotesOf =
      (literals text).map quotesOf) :
    ∀ x ∈ edits reSingleQuote text,
      Outside x.1 ∧ unbroken false x.2.before.tail.dropLast = true := by
  intro x hx
  obtain ⟨hne, qs, rest, hps, hu⟩ := mem_edits.mp hx
  have hsources := sources_pieces reSingleQuote none 0 text
  rw [List.drop_zero] at hsources
  rw [hu]
  refine single_of_quotes (s := .outside) (by simp [Quoting.NotSingle])
    (fun qs e rest h => singleQuote_pieces h) ?_ ?_ qs x.2 rest hps hne
  · rw [hsources]
    exact hclosed
  · rw [hsources]
    exact h

/-- Literals that no rewriting reaches into are kept.  If all literals of the
    text are closed and the calls of `contains` leave them alone, only these
    are kept. -/
theorem literals_kept (e : String) :
    (LiteralsUntouched e.toList → ∀ out, preprocess e = .ok out →
      literals out.toList = literals e.toList) ∧
    (Outside e.toList →
      (∀ x ∈ edits reContainsFn (normalised e.toList),
        Outside x.1 ∧ Swappable (callArguments x.2.before)) →
      ∀ out, preprocess e = .ok out → literals out.toList = literals e.toList →
        LiteralsUntouched e.toList) := by
  have hout : ∀ out, preprocess e = .ok out →
      out.toList = trimSpace (replaceAll reContainsFn (normalised e.toList)) := by
    intro out h
    unfold preprocess at h
    split at h
    · cases h
    · rw [← Except.ok.inj h, String.toList_ofList]
  constructor
  · intro h out hpre
    rw [hout out hpre, literals_of_untouched h]
  · intro hclosed hcall out hpre hsame
    have hnormalised : literals (normalised e.toList) = literals e.toList := by
      rw [← hsame, hout out hpre, literals_trimSpace]
      exact (congrArg Prod.snd
        (quoteReader.run_replaceAll fun x hx => call_kept hx (hcall x hx))).symm
    have hbare := bare_rewritten e.toList
    have hclosed' : Outside (replaceAll reHashIdent (replaceAll reDollarBrace e.toList)) := by
      rw [Outside.iff_bare, hbare, ← Outside.iff_bare]
      exact hclosed
    have hquotes : (literals (replaceAll reHashIdent (replaceAll reDollarBrace e.toList))).map
        quotesOf = (literals e.toList).map quotesOf := by
      have h := bare_run .outside (replaceAll reHashIdent (replaceAll reDollarBrace e.toList))
      have h' := bare_run .outside e.toList
      rw [show Quoting.bare .outside = .outside from rfl] at h h'
      rw [hbare, h'] at h
      exact (congrArg Prod.snd h).symm
    have hsingle := single_untouched hclosed' (by rw [hquotes, ← hnormalised]; rfl)
    have hrewritten : literals (replaceAll reHashIdent (replaceAll reDollarBrace e.toList)) =
        literals e.toList := by
      rw [← hnormalised]
      exact (congrArg Prod.snd
        (quoteReader.run_replaceAll fun x hx => single_kept hx (hsingle x hx))).symm
    obtain ⟨hdollar, hhash⟩ := untouched_of_literals hclosed hrewritten
    exact ⟨hdollar, hhash, hsingle, hcall⟩

theorem literals_kept_tags : ∀ out,
    preprocess "contains(#tags, 'vip') && $\x7bstatus\x7d == 'OPEN (late)'" = .ok out →
      literals out.toList =
        literals "contains(#tags, 'vip') && $\x7bstatus\x7d == 'OPEN (late)'".toList :=
  (literals_kept "contains(#tags, 'vip') && $\x7bstatus\x7d == 'OPEN (late)'").1
    { dollar := by decide +kernel
      hash := by decide +kernel
      single := by decide +kernel
      call := by decide +kernel }

/-- A number sign in a literal is lost. -/
theorem number_sign_lost :
    preprocess "code == \"#1\"" = .ok "code == \"1\"" ∧
      literals "code == \"1\"".toList ≠ literals "code == \"#1\"".toList := by
  constructor <;> decide +kernel

end Rochallor
