import Rochallor.Data.Float64
import Mathlib.Algebra.Order.Field.Power
import Mathlib.Data.Nat.Log
import Mathlib.Tactic.Linarith
import Mathlib.Tactic.Positivity

/-! # Rounding

    A double is its own nearest double, so the decimal printed for a double
    reads as that double.  Both rest on the exponent: a rounded number is a
    multiple of its unit in the last place, also where rounding has carried it
    to the next power of two.
-/

namespace Rochallor.Float64

theorem pow2_eq (e : Int) : pow2 e = (2 : ℚ) ^ e := by
  unfold pow2
  split
  · rename_i h
    rw [← zpow_natCast, Int.toNat_of_nonneg h]
  · rename_i h
    have hneg : ((-e).toNat : Int) = -e := Int.toNat_of_nonneg (by omega)
    rw [← zpow_natCast, hneg, zpow_neg, one_div, inv_inv]

/-- `exponent` is the greatest power of two below the number. -/
theorem exponent_spec {q : ℚ} (hq : 0 < q) :
    (2 : ℚ) ^ exponent q ≤ q ∧ q < (2 : ℚ) ^ (exponent q + 1) := by
  have hnum : q.num.natAbs ≠ 0 := by
    have := Rat.num_pos.mpr hq
    omega
  have hcast : (q.num.natAbs : ℚ) = (q.num : ℚ) := by
    have h : (q.num.natAbs : Int) = q.num := Int.natAbs_of_nonneg (Rat.num_nonneg.mpr hq.le)
    rw [← Int.cast_natCast, h]
  have hval : q * q.den = q.num.natAbs := by
    rw [hcast]
    exact Rat.mul_den_eq_num q
  have hden : (0 : ℚ) < q.den := by exact_mod_cast q.den_pos
  have hn : (2 : ℚ) ^ (Nat.log2 q.num.natAbs : Int) ≤ q.num.natAbs ∧
      (q.num.natAbs : ℚ) < (2 : ℚ) ^ ((Nat.log2 q.num.natAbs : Int) + 1) := by
    refine ⟨?_, ?_⟩
    · rw [zpow_natCast]
      exact_mod_cast Nat.log2_self_le hnum
    · have h : q.num.natAbs < 2 ^ (Nat.log2 q.num.natAbs + 1) := Nat.lt_log2_self
      rw [← Nat.cast_succ, zpow_natCast]
      exact_mod_cast h
  have hd : (2 : ℚ) ^ (Nat.log2 q.den : Int) ≤ q.den ∧
      (q.den : ℚ) < (2 : ℚ) ^ ((Nat.log2 q.den : Int) + 1) := by
    refine ⟨?_, ?_⟩
    · rw [zpow_natCast]
      exact_mod_cast Nat.log2_self_le q.den_nz
    · have h : q.den < 2 ^ (Nat.log2 q.den + 1) := Nat.lt_log2_self
      rw [← Nat.cast_succ, zpow_natCast]
      exact_mod_cast h
  unfold exponent
  simp only [pow2_eq]
  generalize (Nat.log2 q.num.natAbs : Int) = a at hn ⊢
  generalize (Nat.log2 q.den : Int) = b at hd ⊢
  -- numerator and denominator place the number within a factor of two
  have hupper : q < (2 : ℚ) ^ (a - b + 1) := by
    have h2b : (0 : ℚ) < 2 ^ b := by positivity
    have : q * 2 ^ b < 2 ^ (a - b + 1) * 2 ^ b := by
      rw [← zpow_add₀ (by norm_num : (2 : ℚ) ≠ 0)]
      have hexp : a - b + 1 + b = a + 1 := by omega
      rw [hexp]
      calc q * 2 ^ b ≤ q * q.den := by gcongr; exact hd.1
        _ = q.num.natAbs := hval
        _ < 2 ^ (a + 1) := hn.2
    exact lt_of_mul_lt_mul_right this h2b.le
  have hlower : (2 : ℚ) ^ (a - b - 1) < q := by
    have h2b : (0 : ℚ) < 2 ^ (b + 1) := by positivity
    have : 2 ^ (a - b - 1) * 2 ^ (b + 1) < q * 2 ^ (b + 1) := by
      rw [← zpow_add₀ (by norm_num : (2 : ℚ) ≠ 0)]
      have hexp : a - b - 1 + (b + 1) = a := by omega
      rw [hexp]
      calc (2 : ℚ) ^ a ≤ q.num.natAbs := hn.1
        _ = q * q.den := hval.symm
        _ < q * 2 ^ (b + 1) := by gcongr; exact hd.2
    exact lt_of_mul_lt_mul_right this h2b.le
  split
  · rename_i h
    exact ⟨h, hupper⟩
  · rename_i h
    refine ⟨hlower.le, ?_⟩
    rw [Int.sub_add_cancel]
    exact lt_of_not_ge h

theorem roundHalfEven_intCast (n : Int) : roundHalfEven n = n := by
  unfold roundHalfEven
  simp [Rat.floor_intCast]

theorem roundHalfEven_cases (x : ℚ) :
    roundHalfEven x = x.floor ∨ roundHalfEven x = x.floor + 1 := by
  unfold roundHalfEven
  simp only
  split
  · exact .inl rfl
  · split
    · exact .inr rfl
    · split
      · exact .inl rfl
      · exact .inr rfl

/-- Rounding does not leave a range whose ends are integers. -/
theorem abs_roundHalfEven_le {x : ℚ} {n : Int} (h : |x| ≤ n) : |roundHalfEven x| ≤ n := by
  obtain ⟨hlow, hhigh⟩ := abs_le.mp h
  have hfloor : -n ≤ x.floor := by
    rw [Rat.le_floor_iff]
    push_cast
    exact hlow
  have hle : x.floor ≤ n := by
    have h1 : (x.floor : ℚ) ≤ x := Rat.floor_le x
    exact_mod_cast h1.trans hhigh
  rw [abs_le]
  by_cases hn : x.floor = n
  · -- the number is the upper end itself
    have hx : x = n := le_antisymm hhigh (by rw [← hn]; exact Rat.floor_le x)
    rw [hx, roundHalfEven_intCast]
    omega
  · have hcases := roundHalfEven_cases x
    omega

/-- A multiple of its unit in the last place is its own nearest double. -/
theorem float64_of_multiple {w : ℚ} {n : Int} (hw : w ≠ 0)
    (h : w = n * (2 : ℚ) ^ max (exponent |w| - 52) (-1074)) (hbound : |w| < pow2 1024) :
    float64 w = some w := by
  have hunit : (2 : ℚ) ^ max (exponent |w| - 52) (-1074) ≠ 0 := by positivity
  have hdiv : w / (2 : ℚ) ^ max (exponent |w| - 52) (-1074) = n := by
    rw [div_eq_iff hunit]
    exact h
  unfold float64
  simp only [if_neg hw, pow2_eq]
  rw [hdiv, roundHalfEven_intCast, ← h, if_pos (by rwa [← pow2_eq])]

/-- The integers below `2 ^ 53`, and their multiples by a power of two, are
    doubles. -/
theorem float64_natCast_mul {n k : Nat} (hn : n < 2 ^ 53) (hk : k ≤ 900) :
    float64 ((n : ℚ) * 2 ^ k) = some ((n : ℚ) * 2 ^ k) := by
  by_cases hzero : n = 0
  · simp [hzero, float64]
  have h2 : (2 : ℚ) ≠ 0 := by norm_num
  have hpos : (0 : ℚ) < (n : ℚ) * 2 ^ k := by
    have : 0 < n := Nat.pos_of_ne_zero hzero
    positivity
  have hbound : (n : ℚ) * 2 ^ k < (2 : ℚ) ^ ((53 : Int) + k) := by
    rw [zpow_add₀ h2, zpow_natCast]
    have hcast : (n : ℚ) < 2 ^ 53 := by exact_mod_cast hn
    have hpow : ((2 : ℚ) ^ (53 : Int)) = 2 ^ 53 := by norm_num
    rw [hpow]
    exact mul_lt_mul_of_pos_right hcast (by positivity)
  have hexp := exponent_spec hpos
  have hle : exponent ((n : ℚ) * 2 ^ k) < 53 + k :=
    (zpow_lt_zpow_iff_right₀ (by norm_num : (1 : ℚ) < 2)).mp (hexp.1.trans_lt hbound)
  -- the unit in the last place divides the power of two
  have hunit : (max (exponent ((n : ℚ) * 2 ^ k) - 52) (-1074) : Int) ≤ k := by omega
  refine float64_of_multiple
    (n := n * 2 ^ ((k : Int) - max (exponent ((n : ℚ) * 2 ^ k) - 52) (-1074)).toNat) hpos.ne' ?_ ?_
  · rw [abs_of_pos hpos]
    generalize max (exponent ((n : ℚ) * 2 ^ k) - 52) (-1074) = m at hunit ⊢
    have hsplit : ((2 : ℚ) ^ ((k : Int) - m).toNat) * (2 : ℚ) ^ m = 2 ^ k := by
      rw [← zpow_natCast, Int.toNat_of_nonneg (by omega), ← zpow_add₀ h2, Int.sub_add_cancel,
        zpow_natCast]
    push_cast
    rw [mul_assoc, hsplit]
  · rw [abs_of_pos hpos, pow2_eq]
    refine hbound.trans ?_
    exact (zpow_lt_zpow_iff_right₀ (by norm_num : (1 : ℚ) < 2)).mpr (by omega)

/-- A double is its own nearest double. -/
theorem float64_idem {q w : ℚ} (h : float64 q = some w) : float64 w = some w := by
  unfold float64 at h
  split at h
  · cases h
    simp [float64]
  rename_i hq
  simp only at h
  split at h
  case isFalse => cases h
  rename_i hbound
  cases h
  rw [pow2_eq] at hbound ⊢
  generalize hm : max (exponent |q| - 52) (-1074) = m at hbound ⊢
  generalize hn : roundHalfEven (q / (2 : ℚ) ^ m) = n at hbound ⊢
  by_cases hw : (n : ℚ) * (2 : ℚ) ^ m = 0
  · rw [hw]
    simp [float64]
  have h2 : (2 : ℚ) ≠ 0 := by norm_num
  have hunit : (0 : ℚ) < (2 : ℚ) ^ m := by positivity
  -- the rounded number has not passed the next power of two
  generalize hM : max (exponent |q| + 1) m = M
  have hle : |(n : ℚ) * (2 : ℚ) ^ m| ≤ (2 : ℚ) ^ M := by
    have hqlt := (exponent_spec (abs_pos.mpr hq)).2
    have hqM : |q| ≤ (2 : ℚ) ^ M := by
      refine hqlt.le.trans (zpow_le_zpow_right₀ (by norm_num) ?_)
      omega
    have hpow : ((2 ^ (M - m).toNat : Int) : ℚ) = (2 : ℚ) ^ (M - m) := by
      push_cast
      rw [← zpow_natCast, Int.toNat_of_nonneg (by omega)]
    have hdiv : |q / (2 : ℚ) ^ m| ≤ ((2 ^ (M - m).toNat : Int) : ℚ) := by
      rw [hpow, abs_div, abs_of_pos hunit, div_le_iff₀ hunit, ← zpow_add₀ h2, Int.sub_add_cancel]
      exact hqM
    have habs := abs_roundHalfEven_le hdiv
    rw [hn] at habs
    have habs' : |(n : ℚ)| ≤ (2 : ℚ) ^ (M - m) := by
      rw [← hpow]
      exact_mod_cast habs
    calc |(n : ℚ) * (2 : ℚ) ^ m| = |(n : ℚ)| * (2 : ℚ) ^ m := by rw [abs_mul, abs_of_pos hunit]
      _ ≤ (2 : ℚ) ^ (M - m) * (2 : ℚ) ^ m := by gcongr
      _ = (2 : ℚ) ^ M := by rw [← zpow_add₀ h2, Int.sub_add_cancel]
  have hexp := exponent_spec (abs_pos.mpr hw)
  generalize hE : exponent |(n : ℚ) * (2 : ℚ) ^ m| = E' at hexp
  have hEM : E' ≤ M := (zpow_le_zpow_iff_right₀ (by norm_num : (1 : ℚ) < 2)).mp (hexp.1.trans hle)
  by_cases hlast : E' = M
  · -- rounding has come out at that power
    have habs : |(n : ℚ) * (2 : ℚ) ^ m| = (2 : ℚ) ^ E' := le_antisymm (hlast ▸ hle) hexp.1
    have hpow : ((2 ^ (E' - max (E' - 52) (-1074)).toNat : Int) : ℚ) *
        (2 : ℚ) ^ max (E' - 52) (-1074) = (2 : ℚ) ^ E' := by
      push_cast
      rw [← zpow_natCast, Int.toNat_of_nonneg (by omega), ← zpow_add₀ h2, Int.sub_add_cancel]
    rcases abs_choice ((n : ℚ) * (2 : ℚ) ^ m) with hsign | hsign
    · refine float64_of_multiple (n := 2 ^ (E' - max (E' - 52) (-1074)).toNat) hw ?_ ?_
      · rw [hE, hpow, ← habs, hsign]
      · rwa [pow2_eq]
    · refine float64_of_multiple (n := -2 ^ (E' - max (E' - 52) (-1074)).toNat) hw ?_ ?_
      · rw [hE, Int.cast_neg, neg_mul, hpow, ← habs, hsign, neg_neg]
      · rwa [pow2_eq]
  · -- the unit has not grown
    refine float64_of_multiple (n := n * 2 ^ (m - max (E' - 52) (-1074)).toNat) hw ?_ ?_
    · rw [hE]
      push_cast
      rw [mul_assoc, ← zpow_natCast, Int.toNat_of_nonneg (by omega), ← zpow_add₀ h2,
        Int.sub_add_cancel]
    · rwa [pow2_eq]

/-- What is printed for a double reads as that double. -/
theorem float64_shortest {q w : ℚ} (h : float64 q = some w) : float64 (shortest w) = some w := by
  unfold shortest
  simp only
  cases hfind : (List.range 700).findSome? fun i : Nat =>
      if float64 (roundHalfEven (w / pow10 (310 - (i : Int))) * pow10 (310 - (i : Int))) = some w then
        some (roundHalfEven (w / pow10 (310 - (i : Int))) * pow10 (310 - (i : Int)))
      else none with
  | none => exact float64_idem h
  | some c =>
    obtain ⟨i, -, hi⟩ := List.exists_of_findSome?_eq_some hfind
    split at hi
    · rename_i hc
      cases hi
      exact hc
    · cases hi

/-! ## Small integers -/

/-- The integers below `2 ^ 53` are doubles. -/
theorem float64_intCast {n : Int} (hn : |n| < 2 ^ 53) : float64 (n : ℚ) = some (n : ℚ) := by
  by_cases hzero : n = 0
  · simp [hzero, float64]
  have h2 : (2 : ℚ) ≠ 0 := by norm_num
  have hne : (n : ℚ) ≠ 0 := Int.cast_ne_zero.mpr hzero
  have hbound : |(n : ℚ)| < (2 : ℚ) ^ (53 : Int) := by
    have hpow : ((2 : ℚ) ^ (53 : Int)) = ((2 ^ 53 : Int) : ℚ) := by norm_num
    rw [hpow]
    exact_mod_cast hn
  have hexp := exponent_spec (abs_pos.mpr hne)
  have hlt : exponent |(n : ℚ)| < 53 :=
    (zpow_lt_zpow_iff_right₀ (by norm_num : (1 : ℚ) < 2)).mp (hexp.1.trans_lt hbound)
  -- the unit in the last place is one or less
  have hunit : max (exponent |(n : ℚ)| - 52) (-1074) ≤ 0 := by omega
  refine float64_of_multiple
    (n := n * 2 ^ (-max (exponent |(n : ℚ)| - 52) (-1074)).toNat) hne ?_ ?_
  · generalize max (exponent |(n : ℚ)| - 52) (-1074) = m at hunit ⊢
    push_cast
    rw [mul_assoc, ← zpow_natCast, Int.toNat_of_nonneg (by omega), ← zpow_add₀ h2, neg_add_cancel,
      zpow_zero, mul_one]
  · rw [pow2_eq]
    exact hbound.trans ((zpow_lt_zpow_iff_right₀ (by norm_num : (1 : ℚ) < 2)).mpr (by omega))

/-- Rounding does not enter a range whose ends are integers. -/
theorem le_abs_roundHalfEven {x : ℚ} {n : Int} (h : (n : ℚ) ≤ |x|) : n ≤ |roundHalfEven x| := by
  have hcases := roundHalfEven_cases x
  rcases le_abs'.mp h with hneg | hpos
  · by_cases heq : x = ((-n : Int) : ℚ)
    · rw [heq, roundHalfEven_intCast, abs_neg]
      exact le_abs_self n
    · have hlt : x < ((-n : Int) : ℚ) := by
        refine lt_of_le_of_ne ?_ heq
        push_cast
        exact hneg
      have hfloor : x.floor < -n := by
        have h1 : (x.floor : ℚ) ≤ x := Rat.floor_le x
        exact_mod_cast h1.trans_lt hlt
      have hle : roundHalfEven x ≤ -n := by omega
      exact le_abs'.mpr (.inl hle)
  · have hfloor : n ≤ x.floor := Rat.le_floor_iff.mpr hpos
    have hle : n ≤ roundHalfEven x := by omega
    exact le_abs.mpr (.inl hle)

/-- The double nearest to an integer from `2 ^ 53` on is no smaller. -/
theorem le_abs_float64 {c : Int} (hc : 2 ^ 53 ≤ |c|) {v : ℚ} (h : float64 (c : ℚ) = some v) :
    (2 : ℚ) ^ (53 : Int) ≤ |v| := by
  have h2 : (2 : ℚ) ≠ 0 := by norm_num
  have hcast : (2 : ℚ) ^ (53 : Int) ≤ |(c : ℚ)| := by
    have hpow : ((2 : ℚ) ^ (53 : Int)) = ((2 ^ 53 : Int) : ℚ) := by norm_num
    rw [hpow]
    exact_mod_cast hc
  have hne : (c : ℚ) ≠ 0 := by
    intro h0
    rw [h0, abs_zero] at hcast
    exact absurd hcast (by norm_num)
  have hexp := exponent_spec (abs_pos.mpr hne)
  have hle : (53 : Int) < exponent |(c : ℚ)| + 1 :=
    (zpow_lt_zpow_iff_right₀ (by norm_num : (1 : ℚ) < 2)).mp (hcast.trans_lt hexp.2)
  unfold float64 at h
  rw [if_neg hne] at h
  simp only at h
  split at h
  case isFalse => cases h
  cases h
  generalize exponent |(c : ℚ)| = e at hexp hle ⊢
  have hm : max (e - 52) (-1074) = e - 52 := by omega
  rw [hm, pow2_eq]
  have hunit : (0 : ℚ) < (2 : ℚ) ^ (e - 52) := by positivity
  have hround : (2 ^ 52 : Int) ≤ |roundHalfEven ((c : ℚ) / (2 : ℚ) ^ (e - 52))| := by
    refine le_abs_roundHalfEven ?_
    rw [abs_div, abs_of_pos hunit, le_div_iff₀ hunit]
    have hsplit : ((2 ^ 52 : Int) : ℚ) * (2 : ℚ) ^ (e - 52) = (2 : ℚ) ^ e := by
      have hpow : ((2 ^ 52 : Int) : ℚ) = (2 : ℚ) ^ (52 : Int) := by norm_num
      rw [hpow, ← zpow_add₀ h2, add_sub_cancel]
    rw [hsplit]
    exact hexp.1
  rw [abs_mul, abs_of_pos hunit]
  calc (2 : ℚ) ^ (53 : Int) ≤ (2 : ℚ) ^ (52 + (e - 52)) :=
        zpow_le_zpow_right₀ (by norm_num) (by omega)
    _ = ((2 ^ 52 : Int) : ℚ) * (2 : ℚ) ^ (e - 52) := by
        rw [zpow_add₀ h2]
        norm_num
    _ ≤ |(roundHalfEven ((c : ℚ) / (2 : ℚ) ^ (e - 52)) : ℚ)| * (2 : ℚ) ^ (e - 52) := by
        gcongr
        exact_mod_cast hround

/-- They are printed as they are. -/
theorem shortest_intCast {n : Int} (hn : |n| < 2 ^ 53) : shortest (n : ℚ) = n := by
  unfold shortest
  simp only
  generalize hf : (fun i : Nat =>
      if float64 (roundHalfEven ((n : ℚ) / pow10 (310 - (i : Int))) * pow10 (310 - (i : Int))) =
        some (n : ℚ) then
        some (roundHalfEven ((n : ℚ) / pow10 (310 - (i : Int))) * pow10 (310 - (i : Int)))
      else none) = candidate
  -- a multiple of a power of ten that reads as the integer is the integer
  have hsame : ∀ i ∈ List.range 311, ∀ c, candidate i = some c → c = n := by
    intro i hi c hc
    have hi' : i < 311 := List.mem_range.mp hi
    subst hf
    simp only at hc
    split at hc
    case isFalse => cases hc
    rename_i hreads
    cases hc
    have hunit : pow10 (310 - (i : Int)) = ((10 ^ (310 - i) : Int) : ℚ) := by
      rw [pow10, if_pos (by omega)]
      push_cast
      congr 1
      omega
    rw [hunit, ← Int.cast_mul] at hreads ⊢
    generalize roundHalfEven ((n : ℚ) / ((10 ^ (310 - i) : Int) : ℚ)) * 10 ^ (310 - i) = k at hreads ⊢
    by_cases hk : |k| < 2 ^ 53
    · rw [float64_intCast hk] at hreads
      exact Option.some.inj hreads
    · have hle := le_abs_float64 (not_lt.mp hk) hreads
      have hpow : ((2 : ℚ) ^ (53 : Int)) = ((2 ^ 53 : Int) : ℚ) := by norm_num
      rw [hpow] at hle
      exact absurd (by exact_mod_cast hle) (not_le.mpr hn)
  -- and the integer is found when the unit has come down to one
  have hone : candidate 310 = some (n : ℚ) := by
    have hunit : pow10 (310 - ((310 : Nat) : Int)) = 1 := by decide +kernel
    subst hf
    simp only [hunit, div_one, mul_one, roundHalfEven_intCast, float64_intCast hn, if_true]
  have hsplit : List.range 700 = List.range 311 ++ (List.range 700).drop 311 := by decide +kernel
  rw [hsplit, List.findSome?_append]
  cases hfind : (List.range 311).findSome? candidate with
  | none =>
    rw [List.findSome?_eq_none_iff.mp hfind 310 (List.mem_range.mpr (by omega))] at hone
    cases hone
  | some c =>
    obtain ⟨i, hi, hc⟩ := List.exists_of_findSome?_eq_some hfind
    rw [hsame i hi c hc]
    rfl

end Rochallor.Float64
