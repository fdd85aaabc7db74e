import SymbolicRegression.Proofs.Numeric.Order
import SymbolicRegression.Decimal.Numeral

/-!
A decimal is read to the double it rounds to.

Small decimals are computed from two doubles that are exact, the digits and a power of ten
out of a table, the others from mantissas of any length.  Either way the exact value is
rounded once.
-/

namespace SymbolicRegression
namespace Binary64

open Float.Model Float.Model.UnpackedFloat

variable {m : ℕ} {e : ℤ}

/-! ## Exact doubles -/

/-- `x` is a positive double with just the value `r`. -/
def Exactly (x : Float) (r : ℚ) : Prop :=
  ∃ m e, ∃ hm : Canonical m e, view x = .finite .positive m e hm.pos ∧ (m : ℚ) * 2 ^ e = r

theorem exists_canonical (hm : 0 < m) (h : m < 2 ^ 53) :
    ∃ n e, Canonical n e ∧ e ≤ 971 ∧ (n : ℚ) * 2 ^ e = m := by
  have hlog : m.log2 ≤ 52 := Nat.lt_succ_iff.mp ((Nat.log2_lt hm.ne').mpr h)
  have hpow : 2 ^ m.log2 * 2 ^ (52 - m.log2) = 2 ^ 52 := by
    rw [← pow_add]
    congr 1
    omega
  have hlow := Nat.mul_le_mul_right (2 ^ (52 - m.log2)) (Nat.log2_self_le hm.ne')
  have hhigh := Nat.mul_lt_mul_of_pos_right (Nat.lt_log2_self (n := m)) (Nat.two_pow_pos (52 - m.log2))
  rw [pow_succ] at hhigh
  refine ⟨m * 2 ^ (52 - m.log2), (m.log2 : ℤ) - 52,
    ⟨by positivity, by nlinarith, by omega, .inl (by omega)⟩, by omega, ?_⟩
  have hexp : (m.log2 : ℤ) - 52 = -((52 - m.log2 : ℕ) : ℤ) := by omega
  rw [hexp, zpow_neg, zpow_natCast]
  push_cast
  field_simp

theorem exactly_toFloat (hm : 0 < m) (h : m < 2 ^ 53) : Exactly m.toUInt64.toFloat m := by
  obtain ⟨n, e, hn, he, hvalue⟩ := exists_canonical hm h
  refine ⟨n, e, hn, ?_, hvalue⟩
  have hword : m.toUInt64.toNat = m := by
    rw [Nat.toUInt64_eq, UInt64.toNat_ofNat', Nat.mod_eq_of_lt (by omega)]
  have hround : Rounded .positive ((m : ℚ) * 2 ^ (0 : ℤ)) (round .binary64 .positive m 0) :=
    rounded_round hm
  rw [zpow_zero, mul_one, ← hvalue] at hround
  have hview : normalize .binary64 (m : ℤ) 0 .positive = .finite .positive n e hn.pos := by
    rw [← hround.unique (rounded_self hn), UnpackedFloat.normalize, compare_gt_iff_gt.mpr (by omega)]
    rfl
  change view (ofView (normalize .binary64 (m.toUInt64.toNat : ℤ) 0 .positive)) = _
  rw [hword, hview, view_ofView (.finite hn he _)]

/-- Does a positive number that fits a double have the value `10 ^ k`? -/
def isPowerOfTen (k : ℕ) : UnpackedFloat → Bool
  | .finite .positive m e _ =>
    2 ^ 52 ≤ m && m < 2 ^ 53 && -1074 ≤ e && m * 2 ^ e.toNat == 10 ^ k * 2 ^ (-e).toNat
  | _ => false

theorem isPowerOfTen_table :
    ∀ k : Fin 23, isPowerOfTen k (view (Float.exactlyRepresentablePowersOfTen[(k : ℕ)])) := by
  decide

theorem exactly_of_isPowerOfTen {x : Float} {k : ℕ} (h : isPowerOfTen k (view x)) :
    Exactly x (10 ^ k) := by
  unfold isPowerOfTen at h
  split at h
  · next m e hpos hview =>
    simp only [Bool.and_eq_true, decide_eq_true_eq, beq_iff_eq] at h
    obtain ⟨⟨⟨h52, h53⟩, hlow⟩, hvalue⟩ := h
    refine ⟨m, e, ⟨hpos, h53, hlow, .inl h52⟩, hview, ?_⟩
    have hq : (m : ℚ) * 2 ^ e.toNat = 10 ^ k * 2 ^ (-e).toNat := by exact_mod_cast hvalue
    have hexp : (2 : ℚ) ^ e = 2 ^ e.toNat / 2 ^ (-e).toNat := by
      rw [← zpow_natCast, ← zpow_natCast, ← zpow_sub₀ (by norm_num)]
      congr 1
      omega
    rw [hexp, mul_div_assoc', hq]
    field_simp
  · contradiction

theorem exactly_powerOfTen {k : ℕ} (hk : k < 23) :
    Exactly Float.exactlyRepresentablePowersOfTen[k] (10 ^ k) :=
  exactly_of_isPowerOfTen (isPowerOfTen_table ⟨k, hk⟩)

/-! ## Scientific notation -/

/-- `x` is what the positive `r` is stored as. -/
def Stores (x : Float) (r : ℚ) : Prop := ∃ u, Rounded .positive r u ∧ x = ofView u

theorem stores_mul {x y : Float} {r t : ℚ} (hx : Exactly x r) (hy : Exactly y t) :
    Stores (x * y) (r * t) := by
  obtain ⟨m, e, hm, hvx, rfl⟩ := hx
  obtain ⟨m', e', hm', hvy, rfl⟩ := hy
  exact ⟨_, hm.rounded_mul hm' .positive .positive, by rw [mul_eq, hvx, hvy]⟩

theorem stores_div {x y : Float} {r t : ℚ} (hx : Exactly x r) (hy : Exactly y t) :
    Stores (x / y) (r / t) := by
  obtain ⟨m, e, hm, hvx, rfl⟩ := hx
  obtain ⟨m', e', hm', hvy, rfl⟩ := hy
  exact ⟨_, rounded_div hm.pos hm'.pos .positive .positive, by rw [div_eq, hvx, hvy]⟩

theorem zpow_natAbs_of_nonneg {k : ℤ} (hk : 0 ≤ k) : (10 : ℚ) ^ k = 10 ^ k.natAbs := by
  rw [← zpow_natCast, Int.natAbs_of_nonneg hk]

theorem zpow_natAbs_of_neg {k : ℤ} (hk : k < 0) : (10 : ℚ) ^ k = 1 / 10 ^ k.natAbs := by
  rw [← zpow_natCast, one_div, ← zpow_neg]
  congr 1
  omega

/-- The general way, by mantissas of any length.  Exponents far out of range are cut off
before a power is computed. -/
theorem rounded_ofScientific (hm : 0 < m) {k : ℤ} (hlow : -(2048 + (m.log2 : ℤ)) ≤ k)
    (hhigh : k ≤ 2048) :
    Rounded .positive (m * 10 ^ k) (UnpackedFloat.ofScientific .binary64 m k) := by
  have h1 : ¬ k > 2 ^ Format.binary64.exponentBits := by
    change ¬ k > 2 ^ 11
    omega
  have h2 : ¬ k < -((2 ^ Format.binary64.exponentBits : ℤ) + m.log2) := by
    change ¬ k < -(2 ^ 11 + (m.log2 : ℤ))
    omega
  unfold UnpackedFloat.ofScientific
  rw [dif_neg hm.ne', if_neg h1, if_neg h2]
  split
  · next hk =>
    have hvalue : (m : ℚ) * (10 : ℚ) ^ k =
        ((m <<< 53 : ℕ) : ℚ) * 2 ^ (-53 : ℤ) * (((10 ^ k.toNat : ℕ) : ℚ) * 2 ^ (0 : ℤ)) := by
      have hten : (10 : ℚ) ^ k = 10 ^ k.toNat := by rw [← zpow_natCast, Int.toNat_of_nonneg hk]
      rw [hten, Nat.shiftLeft_eq]
      push_cast
      norm_num
      ring
    rw [hvalue]
    refine rounded_mul _ _ (.inl ?_) .positive .positive
    rw [Nat.shiftLeft_eq]
    have : 0 < 10 ^ k.toNat := Nat.pow_pos (by norm_num)
    nlinarith
  · next hk =>
    have hvalue : (m : ℚ) * (10 : ℚ) ^ k =
        (m : ℚ) * 2 ^ (0 : ℤ) / (((10 ^ (-k).toNat : ℕ) : ℚ) * 2 ^ (0 : ℤ)) := by
      have hten : (10 : ℚ) ^ k = 1 / 10 ^ (-k).toNat := by
        rw [← zpow_natCast, Int.toNat_of_nonneg (by omega), zpow_neg, one_div, inv_inv]
      rw [hten]
      push_cast
      norm_num
      ring
    rw [hvalue]
    exact rounded_div _ _ .positive .positive

theorem stores_ofScientific (hm : 0 < m) {k : ℤ} (hlow : -(2048 + (m.log2 : ℤ)) ≤ k)
    (hhigh : k ≤ 2048) : Stores (Float.ofScientific m (k < 0) k.natAbs) (m * 10 ^ k) := by
  unfold Float.ofScientific
  split
  · next h =>
    -- digits and power of ten are exact
    have hx := exactly_toFloat hm h.1
    have hy := exactly_powerOfTen (Nat.lt_succ_of_le h.2)
    split
    · next hk =>
      rw [zpow_natAbs_of_neg (by simpa using hk), mul_one_div]
      exact stores_div hx hy
    · next hk =>
      rw [zpow_natAbs_of_nonneg (by simpa using hk)]
      exact stores_mul hx hy
  · have hexp : (if decide (k < 0) = true then Int.negOfNat k.natAbs else Int.ofNat k.natAbs) = k := by
      rcases lt_or_ge k 0 with hk | hk
      · rw [if_pos (by simpa using hk), Int.negOfNat_eq]
        change -((k.natAbs : ℕ) : ℤ) = k
        omega
      · rw [if_neg (by simpa using hk)]
        change ((k.natAbs : ℕ) : ℤ) = k
        omega
    refine ⟨_, rounded_ofScientific hm hlow hhigh, ?_⟩
    simp only [hexp]
    rfl

theorem stores_ofNat {n : ℕ} (hn : 0 < n) : Stores (Float.ofNat n) n := by
  have h := stores_ofScientific hn (k := 0) (by omega) (by omega)
  rw [zpow_zero, mul_one] at h
  exact h

theorem unsigned_ofNat (n : ℕ) : Unsigned (view (Float.ofNat n)) := by
  rcases Nat.eq_zero_or_pos n with rfl | hn
  · exact rfl
  · obtain ⟨u, hu, hx⟩ := stores_ofNat hn
    rw [hx]
    exact unsigned_view_of_rounded hu (by exact_mod_cast hn)

/-- Whole numbers are finite as far as words go, and one step beyond. -/
theorem isFinite_ofNat {n : ℕ} (h : n ≤ 2 ^ 64) : (Float.ofNat n).isFinite = true := by
  rcases Nat.eq_zero_or_pos n with rfl | hn
  · rfl
  · obtain ⟨u, hu, hx⟩ := stores_ofNat hn
    have hcanonical : Canonical (2 ^ 52) 12 := ⟨by decide, by decide, by decide, .inl le_rfl⟩
    have hle : (n : ℚ) ≤ (2 ^ 52 : ℕ) * 2 ^ (12 : ℤ) := by
      have h64 : (n : ℚ) ≤ 2 ^ 64 := by exact_mod_cast h
      norm_num at h64 ⊢
      exact h64
    rw [hx]
    exact isFinite_of_rounded hu (by exact_mod_cast hn) hcanonical (by decide) hle

end Binary64

namespace Decimal

open Binary64 Float.Model Float.Model.UnpackedFloat

variable {m d : ℕ} {e k : ℤ}

/-! ## The nearest double -/

theorem lt_pow_length (d : ℕ) : d < 10 ^ (Nat.toDigits 10 d).length :=
  (Nat.length_toDigits_le_iff (by norm_num) Nat.length_toDigits_pos).mp le_rfl

theorem pow_length_le (hd : 0 < d) : 10 ^ ((Nat.toDigits 10 d).length - 1) ≤ d := by
  by_contra hlt
  rcases Nat.eq_zero_or_pos ((Nat.toDigits 10 d).length - 1) with h0 | hpos
  · rw [h0] at hlt
    omega
  · have := (Nat.length_toDigits_le_iff (by norm_num) hpos).mpr (Nat.lt_of_not_le hlt)
    omega

theorem length_toDigits_le (d : ℕ) : (Nat.toDigits 10 d).length ≤ d.log2 + 1 := by
  refine (Nat.length_toDigits_le_iff (by norm_num) (Nat.succ_pos _)).mpr ?_
  exact lt_of_lt_of_le Nat.lt_log2_self (Nat.pow_le_pow_left (by norm_num) _)

/-- The place of the first digit gives the magnitude. -/
theorem scaled_bounds (hd : 0 < d) (k : ℤ) :
    (10 : ℚ) ^ (k + (Nat.toDigits 10 d).length - 1) ≤ d * (10 : ℚ) ^ k ∧
      d * (10 : ℚ) ^ k < 10 ^ (k + (Nat.toDigits 10 d).length) := by
  have hlow : ((10 ^ ((Nat.toDigits 10 d).length - 1) : ℕ) : ℚ) ≤ d := by
    exact_mod_cast pow_length_le hd
  have hhigh : (d : ℚ) < ((10 ^ (Nat.toDigits 10 d).length : ℕ) : ℚ) := by
    exact_mod_cast lt_pow_length d
  have hunit : (0 : ℚ) < 10 ^ k := by positivity
  have hlen := Nat.length_toDigits_pos (b := 10) (n := d)
  push_cast at hlow hhigh
  constructor
  · have hexp : k + (Nat.toDigits 10 d).length - 1 =
        (((Nat.toDigits 10 d).length - 1 : ℕ) : ℤ) + k := by omega
    rw [hexp, zpow_add₀ (by norm_num), zpow_natCast]
    exact mul_le_mul_of_nonneg_right hlow hunit.le
  · rw [add_comm, zpow_add₀ (by norm_num), zpow_natCast]
    exact mul_lt_mul_of_pos_right hhigh hunit

theorem two_zpow_le_ten_zpow (n : ℕ) : (2 : ℚ) ^ (3 * n : ℤ) ≤ 10 ^ (n : ℤ) := by
  rw [zpow_mul, zpow_natCast, zpow_natCast]
  exact pow_le_pow_left₀ (by norm_num) (by norm_num) n

/-- The numbers that round to a finite double have their first digit in range. -/
theorem leading_bounds (hm : Canonical m e) (he : e ≤ 971) (hd : 0 < d)
    (h : InInterval m e (d * (10 : ℚ) ^ k)) :
    -359 < k + (Nat.toDigits 10 d).length ∧ k + (Nat.toDigits 10 d).length < 343 := by
  obtain ⟨hlow, hhigh⟩ := scaled_bounds hd k
  have hm1 : (1 : ℚ) ≤ m := by exact_mod_cast hm.pos
  have hm53 : (m : ℚ) + 1 ≤ 2 ^ 53 := by exact_mod_cast hm.lt
  have hunit : (0 : ℚ) < 2 ^ e := by positivity
  constructor
  · have hsmall : (2 : ℚ) ^ (-1076 : ℤ) ≤ d * (10 : ℚ) ^ k := by
      refine le_trans ?_ h.lower
      have he' : (2 : ℚ) ^ (-1074 : ℤ) ≤ 2 ^ e := zpow_le_zpow_right₀ (by norm_num) hm.low
      have hquarter : (1 : ℚ) / 4 ≤ m - if m = 2 ^ 52 ∧ -1074 < e then 1 / 4 else 1 / 2 := by
        split <;> linarith
      calc (2 : ℚ) ^ (-1076 : ℤ) = 2 ^ (-2 : ℤ) * 2 ^ (-1074 : ℤ) :=
          zpow_add₀ two_ne_zero (-2) (-1074)
        _ = 1 / 4 * 2 ^ (-1074 : ℤ) := by rw [show (2 : ℚ) ^ (-2 : ℤ) = 1 / 4 by norm_num]
        _ ≤ _ := mul_le_mul hquarter he' (by positivity) (by linarith)
    have hten : (10 : ℚ) ^ (-(359 : ℕ) : ℤ) ≤ 2 ^ (-1076 : ℤ) := by
      calc (10 : ℚ) ^ (-(359 : ℕ) : ℤ) ≤ 2 ^ (-(3 * (359 : ℕ)) : ℤ) := by
            rw [zpow_neg, zpow_neg]
            exact inv_anti₀ (by positivity) (two_zpow_le_ten_zpow 359)
        _ ≤ 2 ^ (-1076 : ℤ) := zpow_le_zpow_right₀ (by norm_num) (by norm_num)
    exact (zpow_lt_zpow_iff_right₀ (by norm_num)).mp (hten.trans_lt (hsmall.trans_lt hhigh))
  · have hbig : d * (10 : ℚ) ^ k < 2 ^ (3 * (342 : ℕ) : ℤ) := by
      have he' : (2 : ℚ) ^ e ≤ 2 ^ (971 : ℤ) := zpow_le_zpow_right₀ (by norm_num) he
      calc d * (10 : ℚ) ^ k ≤ (m + 1 / 2) * 2 ^ e := h.upper
        _ < 2 ^ 53 * 2 ^ e := mul_lt_mul_of_pos_right (by linarith) hunit
        _ ≤ 2 ^ 53 * 2 ^ (971 : ℤ) := mul_le_mul_of_nonneg_left he' (by norm_num)
        _ = 2 ^ (53 : ℤ) * 2 ^ (971 : ℤ) := rfl
        _ = 2 ^ (1024 : ℤ) := (zpow_add₀ (by norm_num) _ _).symm
        _ ≤ 2 ^ (3 * (342 : ℕ) : ℤ) := zpow_le_zpow_right₀ (by norm_num) (by norm_num)
    have := (zpow_lt_zpow_iff_right₀ (by norm_num)).mp
      (hlow.trans_lt (hbig.trans_le (two_zpow_le_ten_zpow 342)))
    omega

/-- A decimal in the interval of a finite double is read as that double. -/
theorem nearest_of_inInterval (hm : Canonical m e) (he : e ≤ 971) (hd : 0 < d)
    (h : InInterval m e (d * (10 : ℚ) ^ k)) :
    nearest d k = ofView (.finite .positive m e hm.pos) := by
  obtain ⟨hlow, hhigh⟩ := leading_bounds hm he hd h
  have hlen := length_toDigits_le d
  unfold nearest
  rw [if_neg hd.ne']
  simp only
  rw [if_neg (by omega), if_neg (by omega)]
  obtain ⟨u, hu, hx⟩ := stores_ofScientific hd (k := k) (by omega) (by omega)
  rw [hx, hu.unique (rounded_of_inInterval hm h)]

end Decimal
end SymbolicRegression
