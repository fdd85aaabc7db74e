import SymbolicRegression.Proofs.Numeric.Order

/-!
How far a rounded result is from the exact one.

Doubles below 32 lie `2 ^ -48` apart or closer, so that an operation whose exact result is below
32 misses it by `2 ^ -49` at most, and never ends in infinity.
-/

namespace SymbolicRegression
namespace Binary64

open Float.Model Float.Model.UnpackedFloat

variable {s : Sign} {u v : UnpackedFloat} {r : ℚ} {x y : Float}

/-- Half the distance of the doubles below 32. -/
def halfStep : ℚ := 1 / 2 ^ 49

theorem Rounded.abs_magnitude_sub_le (h : Rounded s r u) (hr : 0 < r) (hlt : r < 32) :
    |magnitude u - r| ≤ halfStep := by
  obtain ⟨n, hn, rfl⟩ := h
  rw [magnitude_place (nearest_div_grid_le hn)]
  have hunit : (0 : ℚ) < 2 ^ grid r := by positivity
  have hgrid : (2 : ℚ) ^ grid r ≤ 2 ^ (-48 : ℤ) := by
    refine zpow_le_zpow_right₀ (by norm_num) (grid_le (k := 5) hr ?_ (by norm_num))
    norm_num
    exact hlt
  have hnear : |(n : ℚ) - r / 2 ^ grid r| ≤ 1 / 2 := by
    have hlower := hn.lower
    have hupper := hn.upper
    rw [abs_le]
    constructor
    · linarith
    · linarith
  calc
    |(n : ℚ) * 2 ^ grid r - r| = |(n : ℚ) - r / 2 ^ grid r| * 2 ^ grid r := by
      rw [← abs_of_pos hunit, ← abs_mul, abs_of_pos hunit, sub_mul, div_mul_cancel₀ _ hunit.ne']
    _ ≤ 1 / 2 * 2 ^ (-48 : ℤ) := by gcongr
    _ = halfStep := by
      unfold halfStep
      norm_num

/-- A magnitude with its sign. -/
def signed (s : Sign) (r : ℚ) : ℚ := match s with
  | .positive => r
  | .negative => -r

theorem abs_signed_sub (s : Sign) (a b : ℚ) : |signed s a - signed s b| = |a - b| := by
  cases s with
  | positive => rfl
  | negative => rw [signed, signed, neg_sub_neg, abs_sub_comm]

/-- A result below 32 can be stored, and it keeps its sign. -/
theorem Rounded.stored (h : Rounded s r u) (hr : 0 < r) (hlt : r < 32) :
    IsDouble u ∧ u.isFinite = true ∧ value u = signed s (magnitude u) := by
  have htop : Canonical (2 ^ 52) (-47) := ⟨by decide, by decide, by decide, .inl le_rfl⟩
  have hle : magnitude u ≤ ((2 ^ 52 : ℕ) : ℚ) * 2 ^ (-47 : ℤ) := by
    refine h.magnitude_le hr htop (hlt.le.trans_eq ?_)
    norm_num
  obtain rfl | ⟨m, e, hm, rfl, hc⟩ := h.cases hr
  · refine ⟨.zero s, rfl, ?_⟩
    cases s with
    | positive => rfl
    | negative => exact neg_zero.symm
  · have he : e ≤ -47 :=
      not_lt.mp fun hgt => absurd hle (not_le_of_gt (htop.lt_of_exponent_lt hc hgt))
    refine ⟨.finite hc (by omega) _, rfl, ?_⟩
    cases s with
    | positive => rfl
    | negative => rfl

/-- What is stored is near to what was to be stored. -/
theorem RoundsTo.stored (h : RoundsTo r u) (hr : |r| < 32) :
    (ofView u).isFinite = true ∧ |value (view (ofView u)) - r| ≤ halfStep := by
  rw [abs_lt] at hr
  have hall : IsDouble u ∧ u.isFinite = true ∧ |value u - r| ≤ halfStep := by
    cases h with
    | positive hpos h =>
      obtain ⟨hdouble, hfinite, hvalue⟩ := h.stored hpos hr.2
      refine ⟨hdouble, hfinite, ?_⟩
      rw [hvalue]
      exact h.abs_magnitude_sub_le hpos hr.2
    | negative hneg h =>
      have hpos := neg_pos.mpr hneg
      have hlt : -r < 32 := by linarith
      obtain ⟨hdouble, hfinite, hvalue⟩ := h.stored hpos hlt
      refine ⟨hdouble, hfinite, ?_⟩
      have hnear := h.abs_magnitude_sub_le hpos hlt
      rw [← abs_signed_sub .negative, ← hvalue] at hnear
      rwa [show signed .negative (-r) = r from neg_neg r] at hnear
    | zero hzero s =>
      refine ⟨.zero s, rfl, ?_⟩
      rw [hzero, show value (.zero s) = 0 from rfl, sub_zero, abs_zero, halfStep]
      positivity
  obtain ⟨hdouble, hfinite, hnear⟩ := hall
  rw [view_ofView hdouble]
  refine ⟨?_, hnear⟩
  show (view (ofView u)).isFinite = true
  rw [view_ofView hdouble]
  exact hfinite

/-! ## The ends of the line -/

/-- A result that is not above a double is finite. -/
theorem RoundsTo.isFinite_of_le (h : RoundsTo r u) (hr : 0 ≤ r) {m : ℕ} {e : ℤ}
    (hm : Canonical m e) (he : e ≤ 971) (hle : r ≤ m * 2 ^ e) : (ofView u).isFinite = true := by
  cases h with
  | positive hpos h => exact isFinite_of_rounded h hpos hm he hle
  | negative hneg h => exact absurd hr (not_le_of_gt hneg)
  | zero hzero s =>
    show (view (ofView (.zero s))).isFinite = true
    rw [view_ofView (.zero s)]
    rfl

/-- A result that needs an exponent beyond the greatest one is infinite. -/
theorem RoundsTo.not_isFinite_of_le (h : RoundsTo r u) (hle : 2 ^ 1024 ≤ r) :
    (ofView u).isFinite = false := by
  have hpos : 0 < r := lt_of_lt_of_le (by positivity) hle
  have hlimit : Canonical (2 ^ 52) 972 := ⟨by decide, by decide, by decide, .inl le_rfl⟩
  cases h with
  | positive _ h =>
    have hmagnitude : ((2 ^ 52 : ℕ) : ℚ) * 2 ^ (972 : ℤ) ≤ magnitude u := by
      have htop : ((2 ^ 52 : ℕ) : ℚ) * 2 ^ (972 : ℤ) = 2 ^ 1024 := by
        rw [Nat.cast_pow, Nat.cast_ofNat, ← zpow_natCast, ← zpow_natCast,
          ← zpow_add₀ (by norm_num)]
        norm_num
      exact h.le_magnitude hpos hlimit (htop.trans_le hle)
    obtain rfl | ⟨m, e, hm, rfl, hc⟩ := h.cases hpos
    · exact absurd hmagnitude (not_le_of_gt (units_pos hlimit.pos 972))
    · have he : 972 ≤ e := not_lt.mp fun hlt =>
        absurd hmagnitude (not_le_of_gt (hc.lt_of_exponent_lt hlimit hlt))
      rw [ofView_overflow hc (by omega)]
      show (view (ofView (.infinity .positive))).isFinite = false
      rw [view_ofView (.infinity _)]
      rfl
  | negative hneg h => exact absurd hpos (not_lt_of_gt hneg)
  | zero hzero s => exact absurd hzero hpos.ne'

/-! ## Products and quotients -/

theorem signed_mul (s s' : Sign) (a b : ℚ) :
    signed s a * signed s' b = signed (s * s') (a * b) := by
  cases s with
  | positive =>
    cases s' with
    | positive => rfl
    | negative => exact mul_neg a b
  | negative =>
    cases s' with
    | positive => exact neg_mul a b
    | negative => exact neg_mul_neg a b

theorem signed_div (s s' : Sign) (a b : ℚ) :
    signed s a / signed s' b = signed (s / s') (a / b) := by
  cases s with
  | positive =>
    cases s' with
    | positive => rfl
    | negative => exact div_neg a
  | negative =>
    cases s' with
    | positive => exact neg_div b a
    | negative => exact neg_div_neg_eq a b

theorem Rounded.roundsTo (h : Rounded s r u) (hr : 0 < r) : RoundsTo (signed s r) u := by
  cases s with
  | positive => exact .positive hr h
  | negative => exact .negative (neg_lt_zero.mpr hr) (by rwa [signed, neg_neg])

/-- A finite number is a zero or has a sign and a magnitude. -/
theorem IsDouble.cases_finite (hu : IsDouble u) (hfu : u.isFinite) :
    (∃ s, u = .zero s) ∨ ∃ s m e h, u = .finite s m e h ∧ Canonical m e ∧
      value u = signed s (m * 2 ^ e) := by
  cases hu with
  | nan => contradiction
  | infinity s => contradiction
  | zero s => exact .inl ⟨s, rfl⟩
  | @finite s m e hm he h =>
    refine .inr ⟨s, m, e, h, rfl, hm, ?_⟩
    cases s <;> rfl

/-- The product of finite numbers is the exact one, rounded. -/
theorem roundsTo_mul (hu : IsDouble u) (hv : IsDouble v) (hfu : u.isFinite) (hfv : v.isFinite) :
    RoundsTo (value u * value v) (mul .binary64 u v) := by
  obtain ⟨s, rfl⟩ | ⟨s, m, e, h, rfl, hm, hvalue⟩ := hu.cases_finite hfu
  · have hzero : value (.zero s) * value v = 0 := zero_mul _
    rw [hzero]
    obtain ⟨s', rfl⟩ | ⟨s', m', e', h', rfl, -, -⟩ := hv.cases_finite hfv
    · exact .zero rfl _
    · exact .zero rfl _
  · obtain ⟨s', rfl⟩ | ⟨s', m', e', h', rfl, hm', hvalue'⟩ := hv.cases_finite hfv
    · have hzero : value (.finite s m e h) * value (.zero s') = 0 := mul_zero _
      rw [hzero]
      exact .zero rfl _
    · rw [hvalue, hvalue', signed_mul]
      exact (hm.rounded_mul hm' s s').roundsTo (mul_pos (units_pos h e) (units_pos h' e'))

/-- So is the quotient, where the denominator is not zero. -/
theorem roundsTo_div (hu : IsDouble u) (hv : IsDouble v) (hfu : u.isFinite) (hfv : v.isFinite)
    (hne : value v ≠ 0) : RoundsTo (value u / value v) (div .binary64 u v) := by
  obtain ⟨s', rfl⟩ | ⟨s', m', e', h', rfl, hm', hvalue'⟩ := hv.cases_finite hfv
  · exact absurd rfl hne
  · obtain ⟨s, rfl⟩ | ⟨s, m, e, h, rfl, hm, hvalue⟩ := hu.cases_finite hfu
    · have hzero : value (.zero s) / value (.finite s' m' e' h') = 0 := zero_div _
      rw [hzero]
      exact .zero rfl _
    · rw [hvalue, hvalue', signed_div]
      exact (rounded_div h h' s s').roundsTo (div_pos (units_pos h e) (units_pos h' e'))

/-! ## Doubles -/

section

variable (hx : x.isFinite = true) (hy : y.isFinite = true)

include hx hy

theorem add_near (h : |value (view x) + value (view y)| < 32) : (x + y).isFinite = true ∧
    |value (view (x + y)) - (value (view x) + value (view y))| ≤ halfStep := by
  rw [add_eq]
  exact (roundsTo_add (isDouble_view x) (isDouble_view y) hx hy).stored h

theorem sub_near (h : |value (view x) - value (view y)| < 32) : (x - y).isFinite = true ∧
    |value (view (x - y)) - (value (view x) - value (view y))| ≤ halfStep := by
  have hround := roundsTo_add (isDouble_view x) (isDouble_view y).neg hx
    ((isFinite_neg _).trans hy)
  have hvalue : value (view x) + value (view y).neg = value (view x) - value (view y) := by
    rw [value_neg]
    ring
  rw [hvalue, ← sub_eq_add_neg] at hround
  rw [sub_eq]
  exact hround.stored h

omit hy in
/-- A number less itself is a zero. -/
theorem exists_view_sub_self : ∃ s, view (x - x) = .zero s := by
  have hround := roundsTo_add (isDouble_view x) (isDouble_view x).neg hx
    ((isFinite_neg _).trans hx)
  rw [value_neg, add_neg_cancel, ← sub_eq_add_neg] at hround
  rw [sub_eq]
  generalize UnpackedFloat.sub .binary64 (view x) (view x) = w at hround
  cases hround with
  | positive hr h => exact absurd hr (lt_irrefl 0)
  | negative hr h => exact absurd hr (lt_irrefl 0)
  | zero hr s => exact ⟨s, view_ofView (.zero s)⟩

omit hy in
theorem value_sub_zero (hzero : view y = .zero s) :
    (x - y).isFinite = true ∧ value (view (x - y)) = value (view x) := by
  show (view (x - y)).isFinite = true ∧ _
  rw [sub_eq, hzero]
  obtain ⟨s', hview⟩ | ⟨s', m, e, h, hview, -, -⟩ := (isDouble_view x).cases_finite hx
  · have hsum : UnpackedFloat.sub .binary64 (.zero s') (.zero s) =
        .zero (if s' == -s then s' else .positive) := by
      cases s <;> cases s' <;> rfl
    rw [hview, hsum, view_ofView (.zero _)]
    exact ⟨rfl, rfl⟩
  · have hsame : UnpackedFloat.sub .binary64 (view x) (.zero s) = view x := by
      rw [hview]
      rfl
    rw [hsame, ofView_view]
    exact ⟨hx, rfl⟩

theorem mul_near (h : |value (view x) * value (view y)| < 32) : (x * y).isFinite = true ∧
    |value (view (x * y)) - value (view x) * value (view y)| ≤ halfStep := by
  rw [mul_eq]
  exact (roundsTo_mul (isDouble_view x) (isDouble_view y) hx hy).stored h

theorem div_near (hne : value (view y) ≠ 0) (h : |value (view x) / value (view y)| < 32) :
    (x / y).isFinite = true ∧
      |value (view (x / y)) - value (view x) / value (view y)| ≤ halfStep := by
  rw [div_eq]
  exact (roundsTo_div (isDouble_view x) (isDouble_view y) hx hy hne).stored h

end

/-- A quotient by one or more is not greater than the numerator. -/
theorem isFinite_div (hx : x.isFinite = true) (hy : y.isFinite = true)
    (hnonneg : 0 ≤ value (view x)) (hone : 1 ≤ value (view y)) : (x / y).isFinite = true := by
  have hpos : 0 < value (view y) := lt_of_lt_of_le one_pos hone
  have hround := roundsTo_div (isDouble_view x) (isDouble_view y) hx hy hpos.ne'
  have hle : value (view x) / value (view y) ≤ value (view x) := div_le_self hnonneg hone
  have hquotient : 0 ≤ value (view x) / value (view y) := div_nonneg hnonneg hpos.le
  rw [div_eq]
  have hdouble := isDouble_view x
  change (view x).isFinite = true at hx
  generalize view x = u at hround hle hquotient hnonneg hdouble hx
  cases hdouble with
  | nan => contradiction
  | infinity s => contradiction
  | zero s =>
    have hm : Canonical (2 ^ 52) 0 := ⟨by decide, by decide, by decide, .inl le_rfl⟩
    exact hround.isFinite_of_le hquotient hm (by decide) (hle.trans (by positivity))
  | @finite s m e hm he h =>
    cases s with
    | positive => exact hround.isFinite_of_le hquotient hm he hle
    | negative => exact absurd hnonneg (not_le_of_gt (neg_lt_zero.mpr (units_pos h e)))

theorem IsDouble.abs (h : IsDouble u) : IsDouble u.abs := by
  cases h with
  | nan => exact .nan
  | infinity s => exact .infinity _
  | zero s => exact .zero _
  | finite hm he h => exact .finite hm he h

theorem view_abs (x : Float) : view x.abs = (view x).abs := view_ofView (isDouble_view x).abs

theorem isFinite_abs (x : Float) : x.abs.isFinite = x.isFinite := by
  show (view x.abs).isFinite = (view x).isFinite
  rw [view_abs]
  cases view x <;> rfl

theorem value_abs (x : Float) : value (view x.abs) = |value (view x)| := by
  rw [view_abs]
  cases view x with
  | notANumber => exact abs_zero.symm
  | infinity s => exact abs_zero.symm
  | zero s => exact abs_zero.symm
  | finite s m e h =>
    cases s with
    | positive => exact (abs_of_pos (units_pos h e)).symm
    | negative => exact ((abs_neg _).trans (abs_of_pos (units_pos h e))).symm

end Binary64
end SymbolicRegression
