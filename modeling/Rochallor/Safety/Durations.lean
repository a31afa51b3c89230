import Mathlib.Algebra.BigOperators.Ring.Finset
import Mathlib.Data.List.TakeWhile
import Rochallor.Data.Rounding
import Rochallor.Instance.Duration

/-! # What durations are parsed to

    A duration is written `P[nD][T][nH][nM][nS]`, where the separator may be
    missing.  `Written` is the abstract side: the numbers of a duration and the
    text and the total they stand for.  `parseDuration` reads such a text
    component by component, and returns the total wherever the float products
    of the components are exact.
-/

namespace Rochallor

namespace Duration

/-! ## Wrapping -/

theorem wrapInt64_add (a b : Int) : wrapInt64 (wrapInt64 a + b) = wrapInt64 (a + b) := by
  unfold wrapInt64
  omega

theorem wrapInt64_of_fits {a : Int} (hlow : -2 ^ 63 ≤ a) (hhigh : a < 2 ^ 63) :
    wrapInt64 a = a := by
  unfold wrapInt64
  omega

theorem fits_wrapInt64 (a : Int) : -2 ^ 63 ≤ wrapInt64 a ∧ wrapInt64 a < 2 ^ 63 := by
  unfold wrapInt64
  omega

/-! ## Components -/

/-- A number and the unit after it, as the scan finds them. -/
abbrev Component := List UInt8 × UInt8

/-- What the component adds to the total. -/
def Component.nanos (c : Component) : Int :=
  component (scanFloat c.1) c.2

/-- The components the scan reads. -/
def components : Nat → List UInt8 → List Component
  | 0, _ => []
  | _ + 1, [] => []
  | rounds + 1, b :: rest =>
    if b = 84 then components rounds rest
    else
      match (b :: rest).dropWhile isNumeral with
      | [] => []
      | unit :: rest' =>
        if ((b :: rest).takeWhile isNumeral).isEmpty then []
        else ((b :: rest).takeWhile isNumeral, unit) :: components rounds rest'

/-- The scan adds up its components, modulo `2 ^ 64`. -/
theorem scan_eq (rounds : Nat) (bs : List UInt8) (total : Int) (hlow : -2 ^ 63 ≤ total)
    (hhigh : total < 2 ^ 63) :
    scan rounds bs total = wrapInt64 (total + ((components rounds bs).map (·.nanos)).sum) := by
  induction rounds generalizing bs total with
  | zero => simp [scan, components, wrapInt64_of_fits hlow hhigh]
  | succ rounds ih =>
    cases bs with
    | nil => simp [scan, components, wrapInt64_of_fits hlow hhigh]
    | cons b rest =>
      rw [scan, components]
      by_cases ht : b = 84
      · rw [if_pos ht, if_pos ht]
        exact ih rest total hlow hhigh
      · rw [if_neg ht, if_neg ht]
        dsimp only
        cases (b :: rest).dropWhile isNumeral with
        | nil => simp [wrapInt64_of_fits hlow hhigh]
        | cons unit rest' =>
          dsimp only
          split
          · simp [wrapInt64_of_fits hlow hhigh]
          · have hfits := fits_wrapInt64
              (total + component (scanFloat ((b :: rest).takeWhile isNumeral)) unit)
            rw [ih _ _ hfits.1 hfits.2, wrapInt64_add, List.map_cons, List.sum_cons, ← Int.add_assoc]
            rfl

end Duration

/-! ## Written durations -/

open Duration

/-- A decimal number: digits, and perhaps a point and more digits. -/
structure Numeral where
  whole : List UInt8
  fraction : List UInt8
  whole_ne : whole ≠ []
  whole_digits : ∀ b ∈ whole, isDigit b = true
  fraction_digits : ∀ b ∈ fraction, isDigit b = true

namespace Numeral

variable (n : Numeral)

/-- An empty fraction is written without the point. -/
def text : List UInt8 :=
  n.whole ++ if n.fraction.isEmpty then [] else 46 :: n.fraction

def value : ℚ :=
  (digitsValue (n.whole ++ n.fraction) : ℚ) / 10 ^ n.fraction.length

theorem text_ne : n.text ≠ [] := by
  intro h
  exact n.whole_ne (List.append_eq_nil_iff.mp h).1

theorem isNumeral_of_mem {b : UInt8} (hb : b ∈ n.text) : isNumeral b = true := by
  unfold isNumeral
  rcases List.mem_append.mp hb with hb | hb
  · rw [n.whole_digits b hb, Bool.true_or]
  · split at hb
    · cases hb
    · rcases List.mem_cons.mp hb with rfl | hb
      · rfl
      · rw [n.fraction_digits b hb, Bool.true_or]

/-- A number that is followed by its unit is read up to the unit. -/
theorem span_text {unit : UInt8} (hunit : isNumeral unit = false) (rest : List UInt8) :
    (n.text ++ unit :: rest).takeWhile isNumeral = n.text ∧
      (n.text ++ unit :: rest).dropWhile isNumeral = unit :: rest := by
  have hall : ∀ b ∈ n.text, isNumeral b = true := fun b hb => n.isNumeral_of_mem hb
  constructor
  · rw [List.takeWhile_append_of_pos hall, List.takeWhile_cons_of_neg (by simp [hunit]),
      List.append_nil]
  · rw [List.dropWhile_append_of_pos hall, List.dropWhile_cons_of_neg (by simp [hunit])]

/-- It is read as the nearest double. -/
theorem scanFloat_text : scanFloat n.text = (Float64.float64 n.value).getD 0 := by
  have hpoint : isDigit 46 = false := rfl
  have hwhole : n.whole.isEmpty = false := List.isEmpty_eq_false_iff.mpr n.whole_ne
  unfold scanFloat text
  by_cases hf : n.fraction.isEmpty = true
  · have hnil : n.fraction = [] := List.isEmpty_iff.mp hf
    rw [if_pos hf, List.append_nil, List.takeWhile_eq_self_iff.mpr n.whole_digits,
      List.dropWhile_eq_nil_iff.mpr n.whole_digits]
    simp [hwhole, value, hnil]
  · rw [if_neg hf, List.takeWhile_append_of_pos n.whole_digits,
      List.dropWhile_append_of_pos n.whole_digits, List.takeWhile_cons_of_neg (by simp [hpoint]),
      List.dropWhile_cons_of_neg (by simp [hpoint]), List.append_nil]
    show (if n.whole.isEmpty && (n.fraction.takeWhile isDigit).isEmpty then 0
      else (Float64.float64 ((digitsValue (n.whole ++ n.fraction.takeWhile isDigit) : ℚ) /
        10 ^ (n.fraction.takeWhile isDigit).length)).getD 0) = _
    rw [List.takeWhile_eq_self_iff.mpr n.fraction_digits]
    simp [hwhole, value]

end Numeral

/-- The numbers of a duration and whether it has the separator. -/
structure Written where
  days : Option Numeral
  separator : Bool
  hours : Option Numeral
  minutes : Option Numeral
  seconds : Option Numeral

namespace Written

/-- The numbers that are there, with their units. -/
def dateParts (w : Written) : List (Numeral × UInt8) :=
  (w.days.map (·, 68)).toList

def timeParts (w : Written) : List (Numeral × UInt8) :=
  (w.hours.map (·, 72)).toList ++ (w.minutes.map (·, 77)).toList ++ (w.seconds.map (·, 83)).toList

def parts (w : Written) : List (Numeral × UInt8) :=
  w.dateParts ++ w.timeParts

def textOf (parts : List (Numeral × UInt8)) : List UInt8 :=
  parts.flatMap fun p => p.1.text ++ [p.2]

/-- `P[nD][T][nH][nM][nS]`. -/
def text (w : Written) : List UInt8 :=
  80 :: (textOf w.dateParts ++ ((if w.separator then [84] else []) ++ textOf w.timeParts))

end Written

/-- The nanoseconds of a unit. -/
def unitNanos (unit : UInt8) : ℚ :=
  if unit = 68 then 24 * 3600000000000
  else if unit = 72 then 3600000000000
  else if unit = 77 then 60000000000
  else if unit = 83 then 1000000000
  else 0

section Units

@[simp] theorem unitNanos_days : unitNanos 68 = 24 * 3600000000000 := by simp [unitNanos]

@[simp] theorem unitNanos_hours : unitNanos 72 = 3600000000000 := by simp [unitNanos]

@[simp] theorem unitNanos_minutes : unitNanos 77 = 60000000000 := by simp [unitNanos]

@[simp] theorem unitNanos_seconds : unitNanos 83 = 1000000000 := by simp [unitNanos]

variable (n : ℚ)

@[simp] theorem component_days : component n 68 =
    truncInt64 (floatMul (floatMul (some n) 24) 3600000000000) := by simp [component]

@[simp] theorem component_hours : component n 72 =
    truncInt64 (floatMul (some n) 3600000000000) := by simp [component]

@[simp] theorem component_minutes : component n 77 =
    truncInt64 (floatMul (some n) 60000000000) := by simp [component]

@[simp] theorem component_seconds : component n 83 =
    truncInt64 (floatMul (some n) 1000000000) := by simp [component]

end Units

namespace Written

/-- The nanoseconds of the duration. -/
def total (w : Written) : ℚ :=
  (w.parts.map fun p => p.1.value * unitNanos p.2).sum

/-- The float product of every component is its number of nanoseconds. -/
def Exact (w : Written) : Prop :=
  ∀ p ∈ w.parts, (Component.nanos (p.1.text, p.2) : ℚ) = p.1.value * unitNanos p.2

theorem units (w : Written) : ∀ p ∈ w.parts, isNumeral p.2 = false := by
  intro p hp
  simp only [parts, dateParts, timeParts, List.mem_append, Option.mem_toList,
    Option.map_eq_some_iff] at hp
  rcases hp with ⟨n, -, rfl⟩ | (⟨n, -, rfl⟩ | ⟨n, -, rfl⟩) | ⟨n, -, rfl⟩ <;> rfl

/-- The scan reads the parts one after another. -/
theorem components_textOf {parts : List (Numeral × UInt8)}
    (hunits : ∀ p ∈ parts, isNumeral p.2 = false) (rounds : Nat) (rest : List UInt8) :
    components (rounds + parts.length) (textOf parts ++ rest) =
      parts.map (fun p => (p.1.text, p.2)) ++ components rounds rest := by
  induction parts with
  | nil => rfl
  | cons p ps ih =>
    have hspan := p.1.span_text (hunits p (List.mem_cons_self ..)) (textOf ps ++ rest)
    have htext : textOf (p :: ps) ++ rest = p.1.text ++ p.2 :: (textOf ps ++ rest) := by
      simp [textOf]
    have hfirst : ∀ b bs, p.1.text ++ p.2 :: (textOf ps ++ rest) = b :: bs → b ≠ 84 := by
      intro b bs heq
      obtain ⟨c, cs, hcons⟩ := List.exists_cons_of_ne_nil p.1.text_ne
      rw [hcons] at heq
      have hb : isNumeral b = true := by
        rw [← (List.cons.inj heq).1]
        exact p.1.isNumeral_of_mem (by rw [hcons]; exact List.mem_cons_self ..)
      rintro rfl
      cases hb
    have hrest := ih fun q hq => hunits q (List.mem_cons_of_mem p hq)
    rw [htext, List.length_cons, ← Nat.add_assoc]
    -- one round reads the first part
    cases heq : p.1.text ++ p.2 :: (textOf ps ++ rest) with
    | nil => simp at heq
    | cons b bs =>
      rw [components, if_neg (hfirst b bs heq), ← heq, hspan.1, hspan.2]
      dsimp only
      rw [if_neg (by simpa using p.1.text_ne), hrest, List.map_cons, List.cons_append]

theorem components_separator (rounds : Nat) (separator : Bool) (rest : List UInt8) :
    components (rounds + 1) ((if separator then [84] else []) ++ rest) =
        components (if separator then rounds else rounds + 1) rest := by
  cases separator with
  | false => rfl
  | true => rfl

theorem length_le_textOf (parts : List (Numeral × UInt8)) : parts.length ≤ (textOf parts).length := by
  induction parts with
  | nil => exact Nat.le_refl _
  | cons p ps ih =>
    have htext : (textOf (p :: ps)).length = p.1.text.length + 1 + (textOf ps).length := by
      simp only [textOf, List.flatMap_cons, List.length_append, List.length_singleton]
    rw [htext, List.length_cons]
    omega

/-- The scan of a written duration reads its numbers. -/
theorem components_text (w : Written) (rest : List UInt8) (htext : w.text = 80 :: rest) :
    components rest.length rest = w.parts.map fun p => (p.1.text, p.2) := by
  have hdate := length_le_textOf w.dateParts
  have htime := length_le_textOf w.timeParts
  obtain rfl := (List.cons.inj htext).2.symm
  have hunits := w.units
  have hempty : ∀ n, components n [] = [] := by
    intro n
    cases n <;> rfl
  have hend : ∀ n, w.timeParts.length ≤ n →
      components n (textOf w.timeParts) = w.timeParts.map fun p => (p.1.text, p.2) := by
    intro n hn
    obtain ⟨m, rfl⟩ : ∃ m, n = m + w.timeParts.length := ⟨n - w.timeParts.length, by omega⟩
    have := components_textOf (fun p hp => hunits p (List.mem_append_right _ hp)) m []
    rwa [List.append_nil, hempty, List.append_nil] at this
  obtain ⟨m, hm⟩ : ∃ m, (textOf w.dateParts ++ ((if w.separator then [84] else []) ++
      textOf w.timeParts)).length = m + w.dateParts.length :=
    ⟨_ - w.dateParts.length, (Nat.sub_add_cancel (by rw [List.length_append]; omega)).symm⟩
  rw [hm, components_textOf (fun p hp => hunits p (List.mem_append_left _ hp)), parts,
    List.map_append]
  congr 1
  rw [List.length_append, List.length_append] at hm
  cases hsep : w.separator with
  | false =>
    simp only [hsep, Bool.false_eq_true, if_false, List.nil_append, List.length_nil] at hm ⊢
    exact hend m (by omega)
  | true =>
    simp only [hsep, if_true, List.length_cons, List.length_nil] at hm ⊢
    obtain ⟨k, rfl⟩ : ∃ k, m = k + 1 := ⟨m - 1, by omega⟩
    exact (components_separator k true _).trans (hend k (by omega))

end Written

/-! ## Exact products -/

theorem truncInt64_intCast {n : Int} (hlow : -2 ^ 63 ≤ n) (hhigh : n < 2 ^ 63) :
    truncInt64 (some (n : ℚ)) = n := by
  unfold truncInt64
  by_cases hn : 0 ≤ n
  · have hcast : (0 : ℚ) ≤ n := by exact_mod_cast hn
    simp only [hcast, if_true, Rat.floor_intCast]
    rw [if_pos ⟨hlow, hhigh⟩]
  · have hcast : ¬ (0 : ℚ) ≤ n := by exact_mod_cast hn
    have hneg : (-(n : ℚ)).floor = -n := by
      rw [← Int.cast_neg, Rat.floor_intCast]
    simp only [hcast, if_false, hneg, Int.neg_neg]
    rw [if_pos ⟨hlow, hhigh⟩]

/-- A whole number as a float times a unit of `m * 2 ^ k` nanoseconds. -/
theorem truncInt64_floatMul {n m k u : Nat} (hu : m * 2 ^ k = u) (hnm : n * m < 2 ^ 53)
    (hk : k ≤ 900) (hfits : n * u < 2 ^ 63) :
    (truncInt64 (floatMul (some (n : ℚ)) (u : ℚ)) : ℚ) = n * u := by
  have hprod : (n : ℚ) * (u : ℚ) = ((n * m : Nat) : ℚ) * 2 ^ k := by
    rw [← hu]
    push_cast
    ring
  have hfloat : floatMul (some (n : ℚ)) (u : ℚ) = some (((n * u : Nat) : Int) : ℚ) := by
    show Float64.float64 ((n : ℚ) * (u : ℚ)) = _
    rw [hprod, Float64.float64_natCast_mul hnm hk, ← hprod]
    push_cast
    rfl
  rw [hfloat, truncInt64_intCast (by omega) (by exact_mod_cast hfits)]
  push_cast
  rfl

/-- With ten twos in the unit, what fits in an `int64` has at most 53 further
    bits. -/
theorem mul_lt_of_fits {n m k u : Nat} (hu : m * 2 ^ k = u) (hk : 10 ≤ k)
    (hfits : n * u < 2 ^ 63) : n * m < 2 ^ 53 := by
  by_contra h
  have hle : 2 ^ 53 * 2 ^ 10 ≤ n * m * 2 ^ k :=
    Nat.mul_le_mul (Nat.not_lt.mp h) (Nat.pow_le_pow_right (by norm_num) hk)
  rw [Nat.mul_assoc, hu, ← Nat.pow_add] at hle
  exact absurd hfits (Nat.not_lt.mpr hle)

/-- Whole numbers of days, hours and minutes are exact as far as they fit, and
    whole numbers of seconds are exact for a century. -/
theorem Numeral.exact_of_whole (n : Numeral) (hwhole : n.fraction = []) {unit : UInt8}
    (hunit : unit = 68 ∨ unit = 72 ∨ unit = 77 ∨ unit = 83 ∧ digitsValue n.whole < 4611686018)
    (hfits : n.value * unitNanos unit < 2 ^ 63) :
    (Component.nanos (n.text, unit) : ℚ) = n.value * unitNanos unit := by
  have hvalue : n.value = (digitsValue n.whole : ℚ) := by simp [value, hwhole]
  rw [hvalue] at hfits ⊢
  generalize hN : digitsValue n.whole = N at hunit hfits ⊢
  have hfloat : ∀ {a b : Nat}, a * b < 2 ^ 53 → 0 < b →
      Float64.float64 ((a * b : Nat) : ℚ) = some ((a * b : Nat) : ℚ) ∧ a < 2 ^ 53 := by
    intro a b hlt hb
    have := Float64.float64_natCast_mul hlt (Nat.zero_le 900)
    rw [pow_zero, mul_one] at this
    exact ⟨this, (Nat.le_mul_of_pos_right a hb).trans_lt hlt⟩
  have hscan : N < 2 ^ 53 → scanFloat n.text = (N : ℚ) := by
    intro hlt
    have := (hfloat (a := N) (b := 1) (by rwa [Nat.mul_one]) Nat.one_pos).1
    rw [Nat.mul_one] at this
    rw [n.scanFloat_text, hvalue, hN, this]
    rfl
  show ((component (scanFloat n.text) unit : Int) : ℚ) = _
  rcases hunit with rfl | rfl | rfl | ⟨rfl, hlt⟩
  · rw [unitNanos_days, ← mul_assoc] at hfits
    have hlt : N * 24 * 3600000000000 < 2 ^ 63 := by exact_mod_cast hfits
    have hu : 439453125 * 2 ^ 13 = 3600000000000 := by norm_num
    have hbits := mul_lt_of_fits hu (by norm_num) hlt
    have hday := hfloat (hfloat hbits (by norm_num)).2 (by norm_num : 0 < 24)
    have hmul := truncInt64_floatMul hu hbits (by norm_num) hlt
    have htwice : floatMul (some (N : ℚ)) 24 = some ((N : ℚ) * 24) := by
      have := hday.1
      push_cast at this
      exact this
    push_cast at hmul
    rw [hscan hday.2, component_days, htwice, hmul, unitNanos_days, mul_assoc]
  · rw [unitNanos_hours] at hfits
    have hlt : N * 3600000000000 < 2 ^ 63 := by exact_mod_cast hfits
    have hu : 439453125 * 2 ^ 13 = 3600000000000 := by norm_num
    have hbits := mul_lt_of_fits hu (by norm_num) hlt
    have hmul := truncInt64_floatMul hu hbits (by norm_num) hlt
    push_cast at hmul
    rw [hscan (hfloat hbits (by norm_num)).2, component_hours, hmul, unitNanos_hours]
  · rw [unitNanos_minutes] at hfits
    have hlt : N * 60000000000 < 2 ^ 63 := by exact_mod_cast hfits
    have hu : 29296875 * 2 ^ 11 = 60000000000 := by norm_num
    have hbits := mul_lt_of_fits hu (by norm_num) hlt
    have hmul := truncInt64_floatMul hu hbits (by norm_num) hlt
    push_cast at hmul
    rw [hscan (hfloat hbits (by norm_num)).2, component_minutes, hmul, unitNanos_minutes]
  · rw [unitNanos_seconds] at hfits
    have hsec : N * 1000000000 < 2 ^ 63 := by exact_mod_cast hfits
    have hu : 1953125 * 2 ^ 9 = 1000000000 := by norm_num
    have hbits : N * 1953125 < 2 ^ 53 :=
      (Nat.mul_le_mul_right 1953125 (Nat.le_sub_one_of_lt hlt)).trans_lt (by norm_num)
    have hmul := truncInt64_floatMul hu hbits (by norm_num) hsec
    push_cast at hmul
    rw [hscan (hfloat hbits (by norm_num)).2, component_seconds, hmul, unitNanos_seconds]

/-! ## What is parsed -/

/-- The bytes of the text. -/
def Duration.bytes (iso : String) : List UInt8 :=
  iso.toList.flatMap String.utf8EncodeChar

/-- The sum of the components, in a `time.Duration`. -/
def Duration.nanosOf (rest : List UInt8) : Int :=
  wrapInt64 ((components rest.length rest).map (·.nanos)).sum

theorem scan_nanosOf (rest : List UInt8) : scan rest.length rest 0 = nanosOf rest := by
  rw [scan_eq rest.length rest 0 (by decide) (by decide), Int.zero_add]
  rfl

/-- A text too short for a number and a unit has no component. -/
theorem nanosOf_of_short {rest : List UInt8} (h : rest.length < 2) : nanosOf rest = 0 := by
  match rest, h with
  | [], _ => rfl
  | [b], _ =>
    unfold nanosOf
    rw [List.length_singleton, components]
    by_cases ht : b = 84
    · rw [if_pos ht]
      rfl
    · rw [if_neg ht]
      by_cases hb : isNumeral b = true
      · rw [List.dropWhile_cons_of_pos hb]
        rfl
      · rw [List.dropWhile_cons_of_neg hb, List.takeWhile_cons_of_neg hb]
        rfl

/-- A text is parsed exactly when it starts with `P` and its components do not
    add up to zero. -/
theorem parseDuration_eq_ok {iso : String} {dur : Int} :
    parseDuration iso = .ok dur ↔
      ∃ rest, bytes iso = 80 :: rest ∧ nanosOf rest = dur ∧ dur ≠ 0 := by
  unfold parseDuration
  dsimp only
  generalize hbytes : bytes iso = bs
  unfold bytes at hbytes
  rw [hbytes]
  constructor
  · intro h
    split at h
    · rename_i rest
      split at h
      · cases h
      · split at h
        · cases h
        · rename_i hne
          cases h
          rw [scan_nanosOf] at hne ⊢
          exact ⟨rest, rfl, rfl, hne⟩
    · cases h
  · rintro ⟨rest, rfl, hdur, hne⟩
    have hlen : ¬ (80 :: rest).length < 3 := by
      intro hshort
      exact hne (hdur ▸ nanosOf_of_short (Nat.lt_of_succ_lt_succ hshort))
    show (if (80 :: rest).length < 3 then _ else if scan rest.length rest 0 = 0 then _ else _) = _
    rw [if_neg hlen, scan_nanosOf, hdur, if_neg hne]

/-- What an exact duration comes to. -/
theorem Written.nanosOf_text {w : Written} {rest : List UInt8} (htext : w.text = 80 :: rest)
    (hexact : w.Exact) {n : Int} (htotal : w.total = n) (hlow : 0 < n) (hhigh : n < 2 ^ 63) :
    nanosOf rest = n := by
  have hsum : (((w.parts.map fun p => Component.nanos (p.1.text, p.2)).sum : Int) : ℚ) = n := by
    rw [← htotal]
    show _ = (w.parts.map fun p => p.1.value * unitNanos p.2).sum
    rw [Int.cast_list_sum, List.map_map]
    exact congrArg List.sum (List.map_congr_left hexact)
  have hsum' : (w.parts.map fun p => Component.nanos (p.1.text, p.2)).sum = n := by
    exact_mod_cast hsum
  unfold nanosOf
  rw [w.components_text rest htext, List.map_map]
  show wrapInt64 (w.parts.map fun p => Component.nanos (p.1.text, p.2)).sum = n
  rw [hsum', wrapInt64_of_fits (by omega) hhigh]

/-- A component that adds something has a unit that is known and a number that
    is not zero. -/
theorem Duration.Component.of_nanos_ne {c : Component} (h : c.nanos ≠ 0) :
    (c.2 = 68 ∨ c.2 = 72 ∨ c.2 = 77 ∨ c.2 = 83) ∧ scanFloat c.1 ≠ 0 := by
  constructor
  · by_contra hunit
    simp only [not_or] at hunit
    obtain ⟨hd, hh, hm, hs⟩ := hunit
    exact h (by simp [nanos, component, hd, hh, hm, hs])
  · intro hzero
    have hmul : ∀ u : ℚ, floatMul (some 0) u = some 0 := by
      intro u
      simp [floatMul, Float64.float64]
    refine h ?_
    unfold nanos component
    rw [hzero]
    simp only [hmul]
    split_ifs <;> rfl

/-- `parseDuration` returns the total of every exact duration that fits, and
    rejects every text in which the scan finds no number of a known unit. -/
theorem parseDuration_written (iso : String) :
    (∀ (w : Written) (n : Int), w.text = bytes iso → w.Exact → w.total = n → 0 < n → n < 2 ^ 63 →
      parseDuration iso = .ok n) ∧
    ∀ dur, parseDuration iso = .ok dur → ∃ rest, bytes iso = 80 :: rest ∧
      ∃ c ∈ components rest.length rest,
        (c.2 = 68 ∨ c.2 = 72 ∨ c.2 = 77 ∨ c.2 = 83) ∧ scanFloat c.1 ≠ 0 := by
  constructor
  · intro w n htext hexact htotal hlow hhigh
    have hbytes : ∃ rest, bytes iso = 80 :: rest := ⟨_, htext.symm⟩
    obtain ⟨rest, hrest⟩ := hbytes
    rw [hrest] at htext
    exact parseDuration_eq_ok.mpr
      ⟨rest, hrest, Written.nanosOf_text htext hexact htotal hlow hhigh, by omega⟩
  · intro dur hdur
    obtain ⟨rest, hrest, hnanos, hne⟩ := parseDuration_eq_ok.mp hdur
    refine ⟨rest, hrest, ?_⟩
    -- otherwise the sum would be zero
    by_contra hnone
    simp only [not_exists, not_and] at hnone
    have hzero : ((components rest.length rest).map (·.nanos)).sum = 0 := by
      refine List.sum_eq_zero fun x hx => ?_
      obtain ⟨c, hc, rfl⟩ := List.mem_map.mp hx
      by_contra hne'
      obtain ⟨hunit, hnum⟩ := Component.of_nanos_ne hne'
      exact hnone c hc hunit hnum
    rw [nanosOf, hzero] at hnanos
    exact hne hnanos.symm

/-- A whole number with one digit or two. -/
def Numeral.ofNat (n : Nat) (h : n < 100) : Numeral where
  whole := if n < 10 then [48 + n.toUInt8] else [48 + (n / 10).toUInt8, 48 + (n % 10).toUInt8]
  fraction := []
  whole_ne := by split <;> simp
  whole_digits := by
    have hdigits : ∀ m : Fin 100, ∀ b ∈ if m.val < 10 then [48 + m.val.toUInt8] else
        [48 + (m.val / 10).toUInt8, 48 + (m.val % 10).toUInt8], isDigit b = true := by
      decide +kernel
    exact hdigits ⟨n, h⟩
  fraction_digits := by simp

/-- A day and a half. -/
def dayAndHalf : Written where
  days := some (.ofNat 1 (by decide))
  separator := true
  hours := some (.ofNat 12 (by decide))
  minutes := none
  seconds := none

theorem parseDuration_written_dayAndHalf : parseDuration "P1DT12H" = .ok 129600000000000 := by
  have hvalues : (Numeral.ofNat 1 (by decide)).value = 1 ∧
      (Numeral.ofNat 12 (by decide)).value = 12 := by
    constructor
    · show ((1 : Nat) : ℚ) / 10 ^ 0 = 1
      norm_num
    · show ((12 : Nat) : ℚ) / 10 ^ 0 = 12
      norm_num
  refine (parseDuration_written "P1DT12H").1 dayAndHalf 129600000000000 (by decide) ?_ ?_
    (by decide) (by decide)
  · intro p hp
    simp only [Written.parts, Written.dateParts, Written.timeParts, dayAndHalf, Option.map_some,
      Option.map_none, Option.toList_some, Option.toList_none, List.append_nil,
      List.singleton_append, List.mem_cons, List.not_mem_nil, or_false] at hp
    rcases hp with rfl | rfl
    · refine Numeral.exact_of_whole _ rfl (.inl rfl) ?_
      rw [hvalues.1, unitNanos_days]
      norm_num
    · refine Numeral.exact_of_whole _ rfl (.inr (.inl rfl)) ?_
      rw [hvalues.2, unitNanos_hours]
      norm_num
  · show (([((.ofNat 1 (by decide) : Numeral), (68 : UInt8)), (.ofNat 12 (by decide), 72)] :
      List (Numeral × UInt8)).map fun p => p.1.value * unitNanos p.2).sum = _
    simp only [List.map_cons, List.map_nil, List.sum_cons, List.sum_nil, hvalues.1, hvalues.2,
      unitNanos_days, unitNanos_hours]
    norm_num

/-- The separator stands before the units of the time. -/
def Written.Separated (w : Written) : Prop :=
  w.separator = false → w.timeParts = []

/-- An hour without the separator is accepted, as the tests have it. -/
theorem hour_without_separator :
    ¬ ∀ (iso : String) (dur : Int), parseDuration iso = .ok dur ↔
      ∃ w : Written, w.Separated ∧ w.text = bytes iso ∧ w.total = dur ∧ 0 < dur ∧ dur < 2 ^ 63 := by
  intro h
  obtain ⟨w, hsep, htext, -⟩ := (h "P1H" 3600000000000).mp (by decide +kernel)
  have hbytes : bytes "P1H" = [80, 49, 72] := by decide
  rw [hbytes, Written.text] at htext
  have hrest := (List.cons.inj htext).2
  cases hs : w.separator with
  | true =>
    have hmem : (84 : UInt8) ∈ ([49, 72] : List UInt8) := by
      rw [← hrest, hs]
      simp
    exact absurd hmem (by decide)
  | false =>
    rw [hs, hsep hs] at hrest
    have hlast : ∀ b ∈ (Written.textOf w.dateParts).getLast?, b = 68 := by
      unfold Written.dateParts
      cases w.days with
      | none => simp [Written.textOf]
      | some n => simp [Written.textOf]
    have hdate : Written.textOf w.dateParts = [49, 72] := by simpa [Written.textOf] using hrest
    rw [hdate] at hlast
    exact absurd (hlast 72 rfl) (by decide)

end Rochallor
