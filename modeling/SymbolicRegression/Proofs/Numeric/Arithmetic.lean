import SymbolicRegression.Proofs.Numeric.Packing

/-!
What the operations on doubles compute: the exact result, rounded.

The mantissas that the operations hand to the rounding have all the digits it needs, so
`rounded_of_approximates` applies to each of them.
-/

namespace SymbolicRegression
namespace Binary64

open Float.Model Float.Model.UnpackedFloat

variable {s : Sign} {m m' : ℕ} {e e' : ℤ}

/-! ## Numbers that are given exactly -/

theorem log2_mul_two_pow (hm : 0 < m) (k : ℕ) : (m * 2 ^ k).log2 = m.log2 + k := by
  induction k with
  | zero => simp
  | succ k ih =>
    have hne : m * 2 ^ k ≠ 0 := by positivity
    rw [pow_succ, ← mul_assoc, mul_comm _ 2, Nat.log2_two_mul hne, ih, add_assoc]

/-- With 53 digits, or at the smallest exponent, a mantissa need not grow. -/
theorem le_target (h : 2 ^ 52 ≤ m ∨ e ≤ -1074) : e ≤ target m e := by
  rw [target_eq]
  rcases h with h | h
  · have := (Nat.le_log2 (by omega)).mpr h
    omega
  · omega

theorem rounded_exact (hm : 0 < m) (h : 2 ^ 52 ≤ m ∨ e ≤ -1074) :
    Rounded s (m * 2 ^ e) (roundWithAccuracy .binary64 s m e .exact) :=
  rounded_of_approximates rfl (by exact_mod_cast hm) (le_target h)

theorem rounded_round (hm : 0 < m) : Rounded s (m * 2 ^ e) (round .binary64 s m e) := by
  change Rounded s _ (roundWithAccuracy .binary64 s (m <<< (e - target m e).toNat)
    (e - ((e - target m e).toNat : ℤ)) .exact)
  rw [Nat.shiftLeft_eq]
  rcases le_or_gt e (target m e) with hle | hlt
  · have hk : (e - target m e).toNat = 0 := by omega
    rw [hk, pow_zero, mul_one, Nat.cast_zero, sub_zero]
    exact rounded_of_approximates rfl (by exact_mod_cast hm) hle
  · -- the mantissa is moved up until it has all its digits
    have hk : (((e - target m e).toNat : ℕ) : ℤ) = e - target m e := Int.toNat_of_nonneg (by omega)
    generalize (e - target m e).toNat = k at hk ⊢
    have hlog := log2_mul_two_pow hm k
    have hvalue : (m : ℚ) * 2 ^ e = ((m * 2 ^ k : ℕ) : ℚ) * 2 ^ (e - k) := by
      rw [zpow_sub₀ (by norm_num), zpow_natCast]
      push_cast
      field_simp
    rw [hvalue]
    refine rounded_of_approximates rfl (by positivity) ?_
    rw [target_eq, hlog]
    rw [target_eq] at hk hlt
    push_cast
    omega

/-! ## Quotients -/

theorem approximates_div (n : ℕ) {d : ℕ} (hd : 0 < d) :
    Approximates (n / d) (accuracyOfFraction (n % d) d) (n / d) := by
  have hdq : (0 : ℚ) < d := by exact_mod_cast hd
  have hx : (n : ℚ) / d = (n / d : ℕ) + (n % d : ℕ) / d := by
    have hn : (n : ℚ) = d * (n / d : ℕ) + (n % d : ℕ) := by exact_mod_cast (Nat.div_add_mod n d).symm
    rw [eq_comm, ← sub_eq_zero]
    field_simp
    linarith
  have hlt : ((n % d : ℕ) : ℚ) < d := by exact_mod_cast Nat.mod_lt n hd
  rw [hx, accuracyOfFraction]
  generalize n / d = q
  generalize n % d = r at hlt
  by_cases hr : r = 0
  · rw [if_pos hr, hr]
    simp [Approximates]
  · rw [if_neg hr]
    have hpos : (0 : ℚ) < r := by exact_mod_cast Nat.pos_of_ne_zero hr
    rcases hcmp : compare (2 * r) d
    · have : (2 : ℚ) * r < d := by exact_mod_cast Nat.compare_eq_lt.mp hcmp
      refine ⟨by have := div_pos hpos hdq; linarith, ?_⟩
      have : (r : ℚ) / d < 1 / 2 := by rw [div_lt_div_iff₀ hdq (by norm_num)]; linarith
      linarith
    · have : (2 : ℚ) * r = d := by exact_mod_cast Nat.compare_eq_eq.mp hcmp
      have : (r : ℚ) / d = 1 / 2 := by rw [div_eq_div_iff hdq.ne' (by norm_num)]; linarith
      rw [this]
      rfl
    · have : (d : ℚ) < 2 * r := by exact_mod_cast Nat.compare_eq_gt.mp hcmp
      have h1 : (1 : ℚ) / 2 < r / d := by rw [div_lt_div_iff₀ (by norm_num) hdq]; linarith
      have h2 : (r : ℚ) / d < 1 := by rw [div_lt_one hdq]; exact hlt
      exact ⟨by linarith, by linarith⟩

/-- The quotient of the shifted mantissa has 53 digits. -/
theorem le_shifted_div (hm : 0 < m) (hm' : 0 < m') {k : ℕ} (hk : m'.log2 + 53 ≤ m.log2 + k) :
    2 ^ 52 ≤ m * 2 ^ k / m' := by
  rw [Nat.le_div_iff_mul_le hm']
  calc 2 ^ 52 * m' ≤ 2 ^ 52 * 2 ^ (m'.log2 + 1) := Nat.mul_le_mul_left _ Nat.lt_log2_self.le
    _ = 2 ^ (m'.log2 + 53) := by rw [← pow_add]; congr 1; omega
    _ ≤ 2 ^ (m.log2 + k) := Nat.pow_le_pow_right (by norm_num) hk
    _ = 2 ^ m.log2 * 2 ^ k := pow_add _ _ _
    _ ≤ m * 2 ^ k := Nat.mul_le_mul_right _ (Nat.log2_self_le hm.ne')

theorem rounded_div (hm : 0 < m) (hm' : 0 < m') (s s' : Sign) :
    Rounded (s / s') (m * 2 ^ e / (m' * 2 ^ e'))
      (div .binary64 (.finite s m e hm) (.finite s' m' e' hm')) := by
  -- the exponent of the quotient, and how far the mantissa is moved up to reach it
  let t := min (e - e') (max ((m.log2 : ℤ) + e - ((m'.log2 : ℤ) + e') - 53) (-1074))
  have ht : t = min (e - e') (Format.targetExponent .binary64
      (totalExponent m e - totalExponent m' e')) := by
    have hbits : (Format.binary64.mantissaBits : ℤ) = 53 := rfl
    have hmin : Format.binary64.minExponent = -1074 := rfl
    have hexp : totalExponent m e - totalExponent m' e' - 53 =
        (m.log2 : ℤ) + e - ((m'.log2 : ℤ) + e') - 53 := by
      rw [totalExponent, totalExponent]
      ring
    rw [Format.targetExponent, hbits, hmin, hexp]
  have hk : (((e - e' - t).toNat : ℕ) : ℤ) = e - e' - t := Int.toNat_of_nonneg (by omega)
  change Rounded _ _ (roundWithAccuracy .binary64 _ (m <<< (e - e' - min _ _).toNat / m') (min _ _)
    (accuracyOfFraction (m <<< (e - e' - min _ _).toNat % m') m'))
  rw [← ht, Nat.shiftLeft_eq]
  generalize (e - e' - t).toNat = k at hk
  have hvalue : (m : ℚ) * 2 ^ e / (m' * 2 ^ e') = ((m * 2 ^ k : ℕ) : ℚ) / m' * 2 ^ t := by
    have he : (2 : ℚ) ^ e = 2 ^ k * 2 ^ t * 2 ^ e' := by
      rw [← zpow_natCast, ← zpow_add₀ (by norm_num), ← zpow_add₀ (by norm_num)]
      congr 1
      omega
    have hm'q : (m' : ℚ) ≠ 0 := by exact_mod_cast hm'.ne'
    rw [he]
    push_cast
    field_simp
  rw [hvalue]
  refine rounded_of_approximates (approximates_div _ hm') (by positivity) (le_target ?_)
  by_cases hlow : t ≤ -1074
  · exact .inr hlow
  · exact .inl (le_shifted_div hm hm' (by omega))

/-! ## Products -/

theorem rounded_mul (hm : 0 < m) (hm' : 0 < m') (h : 2 ^ 52 ≤ m * m' ∨ e + e' ≤ -1074)
    (s s' : Sign) :
    Rounded (s * s') (m * 2 ^ e * (m' * 2 ^ e'))
      (mul .binary64 (.finite s m e hm) (.finite s' m' e' hm')) := by
  have hvalue : (m : ℚ) * 2 ^ e * (m' * 2 ^ e') = ((m * m' : ℕ) : ℚ) * 2 ^ (e + e') := by
    rw [zpow_add₀ (by norm_num)]
    push_cast
    ring
  rw [hvalue]
  exact rounded_exact (Nat.mul_pos hm hm') h

theorem Canonical.rounded_mul (hm : Canonical m e) (hm' : Canonical m' e') (s s' : Sign) :
    Rounded (s * s') (m * 2 ^ e * (m' * 2 ^ e'))
      (mul .binary64 (.finite s m e hm.pos) (.finite s' m' e' hm'.pos)) := by
  refine Binary64.rounded_mul hm.pos hm'.pos ?_ s s'
  have h1 := Nat.le_mul_of_pos_right m hm'.pos
  have h2 := Nat.le_mul_of_pos_left m' hm.pos
  rcases hm.normal with h | h
  · exact .inl (by omega)
  · rcases hm'.normal with h' | h'
    · exact .inl (by omega)
    · exact .inr (by omega)

end Binary64
end SymbolicRegression
