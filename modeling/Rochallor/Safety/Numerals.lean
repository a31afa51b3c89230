import Rochallor.Expression.Coercion

/-! # Which strings are coerced to numbers

    The documentation promises coercion of JSON number literals only.
    `strconv.ParseFloat` reads every one of them that has a finite double, with
    its value, and many other texts as well.
-/

namespace Rochallor

/-! ## JSON number literals -/

/-- The value of a run of digits. -/
def decimalDigits (ds : List Char) : Nat :=
  ds.foldl (fun n c => n * 10 + (c.toNat - '0'.toNat)) 0

/-- The digits after a point, if there is one, and what follows. -/
def jsonFraction : List Char → Option (List Char × List Char)
  | '.' :: rest =>
    if (rest.takeWhile Char.isDigit).isEmpty then none
    else some (rest.takeWhile Char.isDigit, rest.dropWhile Char.isDigit)
  | cs => some ([], cs)

/-- The exponent that ends a number, 0 if there is none. -/
def jsonExponent : List Char → Option Int
  | [] => some 0
  | e :: rest =>
    if (e = 'e' ∨ e = 'E') ∧ (takeSign rest).2 ≠ [] ∧ (takeSign rest).2.all Char.isDigit then
      some (if (takeSign rest).1 then -(decimalDigits (takeSign rest).2 : Int)
        else decimalDigits (takeSign rest).2)
    else none

/-- The text after a leading minus. -/
def jsonMinus : List Char → Bool × List Char
  | '-' :: rest => (true, rest)
  | cs => (false, cs)

/-- The value of a JSON number literal. -/
def jsonNumber (cs : List Char) : Option ℚ :=
  let body := (jsonMinus cs).2
  let whole := body.takeWhile Char.isDigit
  if whole = [] ∨ whole.head? = some '0' ∧ 1 < whole.length then none
  else
    match jsonFraction (body.dropWhile Char.isDigit) with
    | none => none
    | some (fraction, tail) =>
      (jsonExponent tail).map fun exponent =>
        let size : ℚ := (decimalDigits (whole ++ fraction) : ℚ) * 10 ^ exponent /
          10 ^ fraction.length
        if (jsonMinus cs).1 then -size else size

/-- The parts of a literal and its value. -/
structure JsonParts (cs : List Char) (q : ℚ) where
  whole : List Char
  fraction : List Char
  tail : List Char
  exponent : Int
  whole_ne : whole ≠ []
  no_leading_zero : whole.head? = some '0' → whole.length ≤ 1
  whole_digits : ∀ c ∈ whole, c.isDigit = true
  fraction_digits : ∀ c ∈ fraction, c.isDigit = true
  text : (jsonMinus cs).2 =
    whole ++ ((if fraction.isEmpty then [] else '.' :: fraction) ++ tail)
  exponent_eq : jsonExponent tail = some exponent
  value : q = if (jsonMinus cs).1 then
      -((decimalDigits (whole ++ fraction) : ℚ) * 10 ^ exponent / 10 ^ fraction.length)
    else (decimalDigits (whole ++ fraction) : ℚ) * 10 ^ exponent / 10 ^ fraction.length

theorem all_takeWhile {p : Char → Bool} (cs : List Char) : ∀ c ∈ cs.takeWhile p, p c = true := by
  intro c hc
  exact List.all_eq_true.mp (List.all_takeWhile ..) c hc

theorem jsonFraction_eq_some {cs fraction tail : List Char}
    (h : jsonFraction cs = some (fraction, tail)) :
    cs = (if fraction.isEmpty then [] else '.' :: fraction) ++ tail ∧
      ∀ c ∈ fraction, c.isDigit = true := by
  unfold jsonFraction at h
  split at h
  · rename_i rest
    split at h
    · cases h
    · rename_i hne
      cases h
      rw [if_neg hne, List.cons_append, List.takeWhile_append_dropWhile]
      exact ⟨rfl, all_takeWhile rest⟩
  · cases h
    exact ⟨rfl, by simp⟩

theorem jsonParts {cs : List Char} {q : ℚ} (h : jsonNumber cs = some q) :
    Nonempty (JsonParts cs q) := by
  unfold jsonNumber at h
  dsimp only at h
  split at h
  · cases h
  · rename_i hwhole
    simp only [not_or, not_and, not_lt] at hwhole
    split at h
    · cases h
    · rename_i fraction tail hfraction
      obtain ⟨exponent, hexponent, hq⟩ := Option.map_eq_some_iff.mp h
      obtain ⟨htext, hdigits⟩ := jsonFraction_eq_some hfraction
      refine ⟨⟨_, fraction, tail, exponent, hwhole.1, hwhole.2, all_takeWhile _, hdigits, ?_,
        hexponent, hq.symm⟩⟩
      rw [← htext, List.takeWhile_append_dropWhile]

/-! ## `ParseFloat` on a literal -/

theorem digitValue_of_isDigit {c : Char} (h : c.isDigit = true) :
    digitValue false c = some (c.toNat - '0'.toNat) := by
  have hrange : ('0' ≤ c && c ≤ '9') = true := by
    simpa [Char.isDigit, Char.le_def] using h
  rw [digitValue, if_pos hrange]

theorem isDigit_ne {c d : Char} (h : c.isDigit = true) (hd : d.isDigit = false) : c ≠ d := by
  rintro rfl
  rw [h] at hd
  cases hd

/-- A run of digits is added to the mantissa. -/
theorem readMantissa_digits {ds : List Char} (hds : ∀ c ∈ ds, c.isDigit = true) (m : Mantissa)
    (rest : List Char) :
    readMantissa false m (ds ++ rest) =
      readMantissa false
        { m with
          digits := ds.foldl (fun n c => n * 10 + (c.toNat - '0'.toNat)) m.digits
          places := if m.sawdot then m.places + ds.length else m.places
          sawdigits := m.sawdigits || !ds.isEmpty } rest := by
  induction ds generalizing m with
  | nil => simp
  | cons c ds ih =>
    have hc := hds c (List.mem_cons_self ..)
    rw [List.cons_append, readMantissa, if_neg (isDigit_ne hc rfl), if_neg (isDigit_ne hc rfl),
      digitValue_of_isDigit hc]
    dsimp only
    rw [ih fun d hd => hds d (List.mem_cons_of_mem c hd)]
    cases m.sawdot with
    | false => simp
    | true => simp [Nat.add_assoc, Nat.add_comm 1]

/-- Nothing in an exponent's letter continues a mantissa. -/
theorem readMantissa_tail {tail : List Char} {exponent : Int}
    (h : jsonExponent tail = some exponent) (m : Mantissa) :
    readMantissa false m tail = (m, tail) := by
  cases tail with
  | nil => rfl
  | cons e rest =>
    rw [jsonExponent] at h
    split at h
    · rename_i he
      rcases he.1 with rfl | rfl <;> rfl
    · cases h

theorem readExponent_of_json {rest : List Char} {exponent : Int} {e : Char}
    (h : jsonExponent (e :: rest) = some exponent) :
    lowerAscii e = 'e' ∧ readExponent rest = some exponent ∧ '_' ∉ e :: rest := by
  rw [jsonExponent] at h
  split at h
  · rename_i hcond
    obtain ⟨he, hne, hall⟩ := hcond
    rw [List.all_eq_true] at hall
    have hdigits : exponentDigits (takeSign rest).2 = decimalDigits (takeSign rest).2 := by
      unfold exponentDigits decimalDigits
      rw [List.filter_eq_self.mpr]
      intro c hc
      simpa using isDigit_ne (hall c hc) (by rfl : Char.isDigit '_' = false)
    have hhead : (takeSign rest).2.head?.any Char.isDigit = true := by
      obtain ⟨c, cs, hcons⟩ := List.exists_cons_of_ne_nil hne
      rw [hcons]
      exact hall c (by rw [hcons]; exact List.mem_cons_self ..)
    refine ⟨?_, ?_, ?_⟩
    · rcases he with rfl | rfl <;> rfl
    · unfold readExponent
      dsimp only
      rw [hhead, Bool.true_and, if_pos (List.all_eq_true.mpr fun c hc => by simp [hall c hc]),
        hdigits]
      exact h
    · intro hmem
      rcases List.mem_cons.mp hmem with rfl | hmem
      · rcases he with he | he <;> cases he
      · have hsub : '_' ∈ (takeSign rest).2 := by
          unfold takeSign
          split
          · exact (List.mem_cons.mp hmem).resolve_left (by decide)
          · exact (List.mem_cons.mp hmem).resolve_left (by decide)
          · exact hmem
        exact absurd (hall _ hsub) (by decide)
  · cases h

section Literal

variable {cs : List Char} {q : ℚ}

/-- The text after the minus starts with a digit. -/
theorem JsonParts.head (p : JsonParts cs q) :
    ∃ c rest, (jsonMinus cs).2 = c :: rest ∧ c.isDigit = true := by
  obtain ⟨c, ds, hcons⟩ := List.exists_cons_of_ne_nil p.whole_ne
  refine ⟨c, _, p.text.trans (by rw [hcons, List.cons_append]), ?_⟩
  exact p.whole_digits c (by rw [hcons]; exact List.mem_cons_self ..)

theorem takeSign_eq_jsonMinus (h : cs.head? ≠ some '+') : takeSign cs = jsonMinus cs := by
  unfold takeSign jsonMinus
  split
  · exact absurd rfl h
  · rfl
  · rename_i hnot
    split
    · exact absurd rfl (hnot _)
    · rfl

theorem jsonMinus_of_head (h : cs.head? ≠ some '-') : jsonMinus cs = (false, cs) := by
  unfold jsonMinus
  split
  · exact absurd rfl h
  · rfl

/-- A literal starts with a minus or a digit. -/
theorem JsonParts.first (p : JsonParts cs q) :
    ∃ c rest, cs = c :: rest ∧ (c = '-' ∨ c.isDigit = true ∧ (jsonMinus cs).2 = cs) := by
  obtain ⟨c, rest, hbody, hc⟩ := p.head
  cases cs with
  | nil => cases hbody
  | cons d ds =>
    refine ⟨d, ds, rfl, ?_⟩
    by_cases hd : d = '-'
    · exact .inl hd
    · have hminus : jsonMinus (d :: ds) = (false, d :: ds) :=
        jsonMinus_of_head (by simpa using hd)
      rw [hminus] at hbody ⊢
      exact .inr ⟨(List.cons.inj hbody).1 ▸ hc, rfl⟩

theorem JsonParts.takeSign_eq (p : JsonParts cs q) : takeSign cs = jsonMinus cs := by
  obtain ⟨c, rest, rfl, hc⟩ := p.first
  refine takeSign_eq_jsonMinus fun hplus => ?_
  obtain rfl := Option.some.inj hplus
  rcases hc with hc | ⟨hc, -⟩ <;> cases hc

/-- A literal is none of the words. -/
theorem JsonParts.specialWord_eq (p : JsonParts cs q) : specialWord cs = none := by
  obtain ⟨c, rest, hbody, hc⟩ := p.head
  have hlower : ∀ d : Char, d.isDigit = true → lowerAscii d = d := by
    intro d hd
    have hnot : ('A' ≤ d && d ≤ 'Z') = false := by
      simp only [Char.isDigit, Bool.and_eq_true, decide_eq_true_eq] at hd
      have hlt : ¬ 'A' ≤ d := fun hA => absurd (UInt32.le_trans hA hd.2) (by decide)
      rw [decide_eq_false hlt, Bool.false_and]
    rw [lowerAscii, hnot]
    rfl
  have hne : ∀ (ds word : List Char) (w : Char) (ws : List Char), word = w :: ws →
      w.isDigit = false → ds = c :: rest → ds.map lowerAscii ≠ word := by
    rintro ds word w ws rfl hw rfl heq
    rw [List.map_cons, hlower c hc] at heq
    exact isDigit_ne hc hw (List.cons.inj heq).1
  have hnan : cs.map lowerAscii ≠ "nan".toList := by
    obtain ⟨d, ds, hcs, hd⟩ := p.first
    rcases hd with rfl | ⟨-, hsame⟩
    · intro heq
      rw [hcs] at heq
      exact absurd (List.cons.inj heq).1 (by decide)
    · exact hne cs _ 'n' ['a', 'n'] rfl rfl (hsame.symm.trans hbody)
  unfold specialWord
  rw [p.takeSign_eq]
  dsimp only
  rw [if_neg, if_neg hnan]
  rintro (heq | heq)
  · exact hne _ _ 'i' ['n', 'f'] rfl rfl hbody heq
  · exact hne _ _ 'i' "nfinity".toList rfl rfl hbody heq

/-- A literal has no hexadecimal prefix. -/
theorem JsonParts.not_hex (p : JsonParts cs q) {x c : Char} {rest : List Char}
    (h : (jsonMinus cs).2 = '0' :: x :: c :: rest) : lowerAscii x ≠ 'x' := by
  have htext := p.text
  rw [h] at htext
  obtain ⟨d, ds, hcons⟩ := List.exists_cons_of_ne_nil p.whole_ne
  rw [hcons, List.cons_append] at htext
  obtain ⟨rfl, hrest⟩ := List.cons.inj htext
  -- the zero is the whole part
  obtain rfl : ds = [] := by
    have := p.no_leading_zero (by rw [hcons]; rfl)
    rw [hcons, List.length_cons] at this
    exact List.length_eq_zero_iff.mp (by omega)
  rw [List.nil_append] at hrest
  by_cases hf : p.fraction.isEmpty = true
  · rw [if_pos hf, List.nil_append] at hrest
    have hexp := p.exponent_eq
    rw [← hrest] at hexp
    rw [(readExponent_of_json hexp).1]
    decide
  · rw [if_neg hf, List.cons_append] at hrest
    rw [(List.cons.inj hrest).1]
    decide

theorem JsonParts.no_underscore (p : JsonParts cs q) : '_' ∉ cs := by
  have hunder : ∀ ds : List Char, (∀ c ∈ ds, c.isDigit = true) → '_' ∉ ds :=
    fun ds hds hmem => absurd (hds _ hmem) (by decide)
  have htail : '_' ∉ p.tail := by
    have hexp := p.exponent_eq
    cases ht : p.tail with
    | nil => simp
    | cons e rest =>
      rw [ht] at hexp
      exact (readExponent_of_json hexp).2.2
  have hbody : '_' ∉ (jsonMinus cs).2 := by
    rw [p.text, List.mem_append, List.mem_append]
    rintro (hmem | hmem | hmem)
    · exact hunder _ p.whole_digits hmem
    · split at hmem
      · cases hmem
      · exact hunder _ p.fraction_digits ((List.mem_cons.mp hmem).resolve_left (by decide))
    · exact htail hmem
  obtain ⟨c, rest, hcs, hc⟩ := p.first
  rcases hc with rfl | ⟨-, hsame⟩
  · rw [hcs] at hbody ⊢
    exact fun hmem => hbody ((List.mem_cons.mp hmem).resolve_left (by decide))
  · rwa [hsame] at hbody

/-- `readFloat` reads a literal as its value. -/
theorem JsonParts.readFloat_eq (p : JsonParts cs q) : readFloat cs = some q := by
  have hplain : takeHex (jsonMinus cs).2 = (false, (jsonMinus cs).2) := by
    unfold takeHex
    split
    · rename_i x c body h
      rw [if_neg (p.not_hex h), h]
    · rfl
  have hmantissa : readMantissa false {} (jsonMinus cs).2 =
      (⟨decimalDigits (p.whole ++ p.fraction), p.fraction.length, !p.fraction.isEmpty, true⟩,
        p.tail) := by
    have hne : p.whole.isEmpty = false := List.isEmpty_eq_false_iff.mpr p.whole_ne
    rw [p.text, readMantissa_digits p.whole_digits]
    by_cases hf : p.fraction.isEmpty = true
    · have hnil : p.fraction = [] := List.isEmpty_iff.mp hf
      rw [if_pos hf, List.nil_append, readMantissa_tail p.exponent_eq]
      simp [hnil, hne, decimalDigits]
    · rw [if_neg hf, List.cons_append, readMantissa, if_neg (by decide), if_pos rfl,
        if_neg (by simp), readMantissa_digits p.fraction_digits, readMantissa_tail p.exponent_eq]
      simp [hf, hne, decimalDigits, List.foldl_append]
  have hscaled : ∀ m : Mantissa, m.digits = decimalDigits (p.whole ++ p.fraction) →
      m.places = p.fraction.length → scaled false (jsonMinus cs).1 m p.exponent = q := by
    intro m hdigits hplaces
    rw [scaled, hdigits, hplaces]
    exact p.value.symm
  unfold readFloat
  rw [p.takeSign_eq]
  simp only [hplain, hmantissa]
  have hunder : cs.contains '_' = false := by simpa using p.no_underscore
  simp only [hunder, Bool.false_and, Bool.not_true, Bool.false_eq_true, if_false]
  have hexp := p.exponent_eq
  cases ht : p.tail with
  | nil =>
    rw [ht, jsonExponent] at hexp
    have hzero : p.exponent = 0 := (Option.some.inj hexp).symm
    rw [← hzero, hscaled _ rfl rfl]
  | cons e rest =>
    rw [ht] at hexp
    obtain ⟨he, hread, -⟩ := readExponent_of_json hexp
    dsimp only
    rw [if_pos he, hread, Option.map_some, hscaled _ rfl rfl]

end Literal

/-! ## Coercion of strings -/

/-- A string is coerced exactly when it is a JSON number literal, and then to
    its number. -/
structure CoercedAsJson (s : String) : Prop where
  strict : (∃ x, coerceNumberStrict (.str s) = .ok x) ↔ (jsonNumber s.toList).isSome
  soft : coerceNumberSoft (.str s) ≠ .str s ↔ (jsonNumber s.toList).isSome
  value : ∀ q, jsonNumber s.toList = some q → ∃ v, Float64.float64 q = some v ∧
    coerceNumberStrict (.str s) = .ok (.finite v) ∧ coerceNumberSoft (.str s) = .float (.finite v)

/-- A JSON number with a finite double. -/
def RepresentableJson (s : String) : Prop :=
  ∃ q v, jsonNumber s.toList = some q ∧ Float64.float64 q = some v

/-- A number for Go: one of the words, or a literal with a finite double. -/
def GoNumber (s : String) : Prop :=
  (specialWord s.toList).isSome ∨
    ∃ q v, readFloat s.toList = some q ∧ Float64.float64 q = some v

theorem isSome_parseFloat (s : String) : (parseFloat s).isSome ↔ GoNumber s := by
  unfold parseFloat GoNumber
  cases specialWord s.toList with
  | some x => simp
  | none =>
    cases readFloat s.toList with
    | none => simp
    | some q =>
      cases hq : Float64.float64 q with
      | none => simp [hq]
      | some v => simp [hq]

theorem parseFloat_of_json {s : String} {q : ℚ} (h : jsonNumber s.toList = some q) :
    parseFloat s = (Float64.float64 q).map .finite := by
  obtain ⟨p⟩ := jsonParts h
  rw [parseFloat, p.specialWord_eq, p.readFloat_eq]
  rfl

/-- Exactly the strings Go reads as numbers are coerced. -/
theorem coerced_iff (s : String) :
    ((∃ x, coerceNumberStrict (.str s) = .ok x) ↔ GoNumber s) ∧
      (coerceNumberSoft (.str s) ≠ .str s ↔ GoNumber s) := by
  rw [← isSome_parseFloat, coerceNumberStrict, coerceNumberSoft]
  cases parseFloat s with
  | none => simp
  | some x => simp

/-- The strings that are coerced are as documented for JSON numbers with a
    finite double and for what is no number for JSON and for Go. -/
theorem coerced_as_json_iff (s : String) :
    CoercedAsJson s ↔ RepresentableJson s ∨ jsonNumber s.toList = none ∧ ¬ GoNumber s := by
  obtain ⟨hstrict, hsoft⟩ := coerced_iff s
  constructor
  · intro h
    cases hj : jsonNumber s.toList with
    | some q =>
      obtain ⟨v, hv, -⟩ := h.value q hj
      exact .inl ⟨q, v, hj, hv⟩
    | none =>
      refine .inr ⟨rfl, fun hgo => ?_⟩
      have := h.strict.mp (hstrict.mpr hgo)
      rw [hj] at this
      cases this
  · rintro (⟨q, v, hj, hv⟩ | ⟨hj, hgo⟩)
    · have hparse : parseFloat s = some (.finite v) := by
        rw [parseFloat_of_json hj, hv]
        rfl
      have hnumber : GoNumber s := (isSome_parseFloat s).mp (by rw [hparse]; rfl)
      refine ⟨?_, ?_, ?_⟩
      · rw [hj]
        exact ⟨fun _ => rfl, fun _ => hstrict.mpr hnumber⟩
      · rw [hj]
        exact ⟨fun _ => rfl, fun _ => hsoft.mpr hnumber⟩
      · intro q' hq'
        obtain rfl := Option.some.inj (hj.symm.trans hq')
        refine ⟨v, hv, ?_, ?_⟩
        · rw [coerceNumberStrict, hparse]
        · rw [coerceNumberSoft, hparse]
    · refine ⟨?_, ?_, ?_⟩
      · rw [hj]
        exact ⟨fun h => absurd (hstrict.mp h) hgo, nofun⟩
      · rw [hj]
        exact ⟨fun h => absurd (hsoft.mp h) hgo, nofun⟩
      · intro q hq
        rw [hj] at hq
        cases hq

/-- A variable that holds a word for infinity is turned into one. -/
theorem infinity_is_coerced : ¬ ∀ s, CoercedAsJson s := by
  intro h
  have hstrict := (h "inf").strict.mp ⟨.posInf, by decide +kernel⟩
  exact absurd hstrict (by decide +kernel)

end Rochallor
