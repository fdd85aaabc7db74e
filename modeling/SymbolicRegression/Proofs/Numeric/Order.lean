import SymbolicRegression.Proofs.Numeric.Arithmetic

/-!
The order of doubles, and sums.

On finite doubles the comparison is that of the rationals they stand for, and a sum is the
exact sum, rounded.  Rounding keeps the order, so that adding what is not negative never
leads below where one started.
-/

namespace SymbolicRegression
namespace Binary64

open Float.Model Float.Model.UnpackedFloat

variable {s : Sign} {m m' : ℕ} {e e' : ℤ} {u v : UnpackedFloat} {r : ℚ}

/-- The rational that a finite number stands for. -/
def value : UnpackedFloat → ℚ
  | .finite .positive m e _ => m * 2 ^ e
  | .finite .negative m e _ => -(m * 2 ^ e)
  | _ => 0

/-! ## Comparisons -/

theorem units_pos (h : 0 < m) (e : ℤ) : (0 : ℚ) < m * 2 ^ e :=
  mul_pos (by exact_mod_cast h) (by positivity)

theorem Canonical.lt_of_exponent_lt (hm : Canonical m e) (hm' : Canonical m' e') (h : e < e') :
    (m : ℚ) * 2 ^ e < m' * 2 ^ e' := by
  have hlow := hm.low
  have h52 : (2 : ℚ) ^ 52 ≤ m' := by exact_mod_cast hm'.normal.resolve_right (by omega)
  calc (m : ℚ) * 2 ^ e < 2 ^ (e + 53) := hm.lt_zpow
    _ ≤ 2 ^ (52 + e') := zpow_le_zpow_right₀ (by norm_num) (by omega)
    _ = 2 ^ 52 * 2 ^ e' := by rw [zpow_add₀ (by norm_num)]; norm_num
    _ ≤ m' * 2 ^ e' := mul_le_mul_of_nonneg_right h52 (by positivity)

theorem compare_canonical (hm : Canonical m e) (hm' : Canonical m' e') :
    (compare e e').then (compare m m') = compare ((m : ℚ) * 2 ^ e) (m' * 2 ^ e') := by
  rcases lt_trichotomy e e' with h | rfl | h
  · rw [compare_lt_iff_lt.mpr h, compare_lt_iff_lt.mpr (hm.lt_of_exponent_lt hm' h)]
    rfl
  · have hunit : (0 : ℚ) < 2 ^ e := by positivity
    rw [compare_eq_iff_eq.mpr rfl]
    change compare m m' = _
    rcases lt_trichotomy m m' with h | rfl | h
    · have hlt : (m : ℚ) * 2 ^ e < m' * 2 ^ e :=
        mul_lt_mul_of_pos_right (by exact_mod_cast h) hunit
      rw [compare_lt_iff_lt.mpr h, compare_lt_iff_lt.mpr hlt]
    · rw [compare_eq_iff_eq.mpr rfl, compare_eq_iff_eq.mpr rfl]
    · have hlt : (m' : ℚ) * 2 ^ e < m * 2 ^ e :=
        mul_lt_mul_of_pos_right (by exact_mod_cast h) hunit
      rw [compare_gt_iff_gt.mpr h, compare_gt_iff_gt.mpr hlt]
  · rw [compare_gt_iff_gt.mpr h, compare_gt_iff_gt.mpr (hm'.lt_of_exponent_lt hm h)]
    rfl

theorem swap_compare_neg (x y : ℚ) : (compare x y).swap = compare (-x) (-y) := by
  rcases lt_trichotomy x y with h | rfl | h
  · rw [compare_lt_iff_lt.mpr h, compare_gt_iff_gt.mpr (neg_lt_neg h)]
    rfl
  · rw [compare_eq_iff_eq.mpr rfl, compare_eq_iff_eq.mpr rfl]
    rfl
  · rw [compare_gt_iff_gt.mpr h, compare_lt_iff_lt.mpr (neg_lt_neg h)]
    rfl

/-- Finite doubles compare like the rationals they stand for. -/
theorem compare_eq (hu : IsDouble u) (hv : IsDouble v) (hfu : u.isFinite) (hfv : v.isFinite) :
    u.compare v = some (compare (value u) (value v)) := by
  cases hu with
  | nan => contradiction
  | infinity s => contradiction
  | zero s =>
    cases hv with
    | nan => contradiction
    | infinity s' => contradiction
    | zero s' => rfl
    | @finite s' m' e' hm' he' h' =>
      have hpos := units_pos h' e'
      cases s' with
      | positive => exact congrArg some (compare_lt_iff_lt.mpr hpos).symm
      | negative => exact congrArg some (compare_gt_iff_gt.mpr (neg_lt_zero.mpr hpos)).symm
  | @finite s m e hm he h =>
    have hpos := units_pos h e
    cases hv with
    | nan => contradiction
    | infinity s' => contradiction
    | zero s' =>
      cases s with
      | positive => exact congrArg some (compare_gt_iff_gt.mpr hpos).symm
      | negative => exact congrArg some (compare_lt_iff_lt.mpr (neg_lt_zero.mpr hpos)).symm
    | @finite s' m' e' hm' he' h' =>
      have hpos' := units_pos h' e'
      cases s with
      | positive =>
        cases s' with
        | positive => exact congrArg some (compare_canonical hm hm')
        | negative =>
          exact congrArg some (compare_gt_iff_gt.mpr (by simp only [value]; linarith)).symm
      | negative =>
        cases s' with
        | positive =>
          exact congrArg some (compare_lt_iff_lt.mpr (by simp only [value]; linarith)).symm
        | negative =>
          refine congrArg some ?_
          rw [compare_canonical hm hm', swap_compare_neg]
          rfl

theorem isLE_compare_iff (hu : IsDouble u) (hv : IsDouble v) (hfu : u.isFinite)
    (hfv : v.isFinite) : (u.compare v).any (·.isLE) = true ↔ value u ≤ value v := by
  rw [compare_eq hu hv hfu hfv, Option.any_some, Ordering.isLE_iff_ne_gt,
    compare_gt_iff_gt]
  exact not_lt

theorem lt_iff_value {x y : Float} (hx : x.isFinite = true) (hy : y.isFinite = true) :
    x < y ↔ value (view x) < value (view y) := by
  rw [lt_iff, compare_eq (isDouble_view x) (isDouble_view y) hx hy, Option.some_inj,
    compare_lt_iff_lt]

theorem le_iff_value {x y : Float} (hx : x.isFinite = true) (hy : y.isFinite = true) :
    x ≤ y ↔ value (view x) ≤ value (view y) := by
  rw [le_iff, isLE_compare_iff (isDouble_view x) (isDouble_view y) hx hy]

theorem lt_of_not_le {x y : Float} (hx : x.isFinite = true) (hy : y.isFinite = true)
    (h : ¬x ≤ y) : y < x := by
  rw [le_iff_value hx hy] at h
  exact (lt_iff_value hy hx).mpr (lt_of_not_ge h)

theorem le_of_not_lt {x y : Float} (hx : x.isFinite = true) (hy : y.isFinite = true)
    (h : ¬x < y) : y ≤ x := by
  rw [lt_iff_value hx hy] at h
  exact (le_iff_value hy hx).mpr (not_lt.mp h)

theorem compare_infinity (hfu : u.isFinite) : u.compare (.infinity .positive) = some .lt := by
  cases u with
  | notANumber => contradiction
  | infinity s => contradiction
  | zero s => rfl
  | finite s m e h => cases s <;> rfl

/-- A number is at most itself, unless it is no number. -/
theorem le_refl {x : Float} (h : view x ≠ .notANumber) : x ≤ x := by
  rw [le_iff]
  have hd := isDouble_view x
  generalize view x = u at h hd
  cases u with
  | notANumber => exact absurd rfl h
  | infinity s => cases s <;> rfl
  | _ => rw [isLE_compare_iff hd hd rfl rfl]

theorem ne_nan_of_le {x y : Float} (h : x ≤ y) : view x ≠ .notANumber := by
  intro hx
  rw [le_iff, hx] at h
  contradiction

theorem le_of_lt {x y : Float} (h : x < y) : x ≤ y := by
  rw [lt_iff] at h
  rw [le_iff, h]
  rfl

theorem beq_or_lt_of_le {x y : Float} (h : x ≤ y) : (x == y) = true ∨ x < y := by
  rw [le_iff] at h
  rw [lt_iff]
  cases hcompare : (view x).compare (view y) with
  | none =>
    rw [hcompare] at h
    contradiction
  | some o =>
    rw [hcompare] at h
    cases o with
    | lt => exact .inr rfl
    | eq =>
      left
      show ((view x).compare (view y) == some .eq) = true
      rw [hcompare]
      rfl
    | gt => contradiction

theorem ne_nan_of_lt {x y : Float} (h : x < y) : view x ≠ .notANumber := by
  intro hx
  rw [lt_iff, hx] at h
  contradiction

/-! ## Rounding a number of any sign -/

/-- `u` is nearest to `r`.  The sign of a zero is left open if `r` is zero itself. -/
inductive RoundsTo (r : ℚ) : UnpackedFloat → Prop where
  | positive {u : UnpackedFloat} (hr : 0 < r) (h : Rounded .positive r u) : RoundsTo r u
  | negative {u : UnpackedFloat} (hr : r < 0) (h : Rounded .negative (-r) u) : RoundsTo r u
  | zero (hr : r = 0) (s : Sign) : RoundsTo r (.zero s)

theorem roundsTo_value (hu : IsDouble u) (hfu : u.isFinite) : RoundsTo (value u) u := by
  cases hu with
  | nan => contradiction
  | infinity s => contradiction
  | zero s => exact .zero rfl s
  | @finite s m e hm he h =>
    have hpos := units_pos h e
    cases s with
    | positive => exact .positive hpos (rounded_self hm)
    | negative => exact .negative (neg_lt_zero.mpr hpos) (by simpa [value] using rounded_self hm)

theorem magnitude_nonneg (u : UnpackedFloat) : 0 ≤ magnitude u := by
  cases u with
  | finite s m e h => exact mul_nonneg (Nat.cast_nonneg m) (by positivity)
  | _ => exact le_rfl

theorem Rounded.value_le (h : Rounded s r u) (hr : 0 < r) (hv : IsDouble v) (hle : value v ≤ r) :
    value v ≤ magnitude u := by
  cases hv with
  | @finite s' m e hm he h' =>
    cases s' with
    | positive => exact h.le_magnitude hr hm hle
    | negative =>
      exact le_trans (neg_nonpos.mpr (units_pos h' e).le) (magnitude_nonneg u)
  | _ => exact magnitude_nonneg u

/-- A double that is at most `r` is at most what `r` is stored as. -/
theorem RoundsTo.le_view (h : RoundsTo r u) (hv : IsDouble v) (hfv : v.isFinite)
    (hle : value v ≤ r) : (v.compare (view (ofView u))).any (·.isLE) = true := by
  cases h with
  | positive hr h =>
    have hmag := h.value_le hr hv hle
    obtain rfl | ⟨m, e, hpos, rfl, hm⟩ := h.cases hr
    · rw [view_ofView (.zero _), isLE_compare_iff hv (.zero _) hfv rfl]
      exact hmag
    · rcases le_or_gt e 971 with he | he
      · rw [view_ofView (.finite hm he _), isLE_compare_iff hv (.finite hm he _) hfv rfl]
        exact hmag
      · rw [ofView_overflow hm he, view_ofView (.infinity _), compare_infinity hfv]
        rfl
  | negative hr h =>
    -- `v` is negative as well and bounds the size of `r`
    cases hv with
    | @finite s m e hm he hpos =>
      cases s with
      | positive =>
        exact absurd (le_trans (units_pos hpos e).le hle) (not_le.mpr hr)
      | negative =>
        have hmag := h.magnitude_le (neg_pos.mpr hr) hm (neg_le.mp hle)
        obtain rfl | ⟨m', e', hpos', rfl, hm'⟩ := h.cases (neg_pos.mpr hr)
        · rw [view_ofView (.zero _), isLE_compare_iff (.finite hm he _) (.zero _) rfl rfl]
          exact le_trans hle hr.le
        · have he' : e' ≤ e := not_lt.mp fun hlt =>
            not_le.mpr (hm.lt_of_exponent_lt hm' hlt) hmag
          have hd : IsDouble (.finite .negative m' e' hpos') := .finite hm' (he'.trans he) _
          rw [view_ofView hd, isLE_compare_iff (.finite hm he _) hd rfl rfl]
          exact neg_le_neg hmag
    | _ => exact absurd hle (not_le.mpr hr)
  | zero hr s =>
    rw [view_ofView (.zero _), isLE_compare_iff hv (.zero _) hfv rfl]
    exact hle.trans hr.le

/-! ## Sums and differences -/

theorem roundsTo_normalize (n : ℤ) (e : ℤ) :
    RoundsTo (n * 2 ^ e) (normalize .binary64 n e .positive) := by
  have hunit : (0 : ℚ) < 2 ^ e := by positivity
  unfold UnpackedFloat.normalize
  rcases lt_trichotomy n 0 with hn | rfl | hn
  · rw [compare_lt_iff_lt.mpr hn]
    refine .negative (mul_neg_of_neg_of_pos (by exact_mod_cast hn) hunit) ?_
    have hcast : (((-n).toNat : ℕ) : ℚ) = -n := by
      exact_mod_cast congrArg (Int.cast (R := ℚ)) (Int.toNat_of_nonneg (by omega : 0 ≤ -n))
    rw [← neg_mul, ← hcast]
    exact rounded_round (by omega)
  · exact .zero (by simp) .positive
  · rw [compare_gt_iff_gt.mpr hn]
    refine .positive (mul_pos (by exact_mod_cast hn) hunit) ?_
    have hcast : ((n.toNat : ℕ) : ℚ) = n := by
      exact_mod_cast congrArg (Int.cast (R := ℚ)) (Int.toNat_of_nonneg (by omega : 0 ≤ n))
    rw [← hcast]
    exact rounded_round (by omega)

/-- A mantissa that is moved to a smaller exponent keeps its value. -/
theorem apply_decreaseExponent (h : 0 < m) {t : ℤ} (ht : t ≤ e) :
    ((s.apply (decreaseExponent m e t).1 : ℤ) : ℚ) * 2 ^ t = value (.finite s m e h) := by
  have hk : (((e - t).toNat : ℕ) : ℤ) = e - t := Int.toNat_of_nonneg (by omega)
  have hmove : ((m <<< (e - t).toNat : ℕ) : ℚ) * 2 ^ t = m * 2 ^ e := by
    rw [Nat.shiftLeft_eq]
    push_cast
    rw [← zpow_natCast, hk, zpow_sub₀ (by norm_num)]
    field_simp
  cases s with
  | positive =>
    change (((m <<< (e - t).toNat : ℕ) : ℤ) : ℚ) * _ = _
    rw [Int.cast_natCast]
    exact hmove
  | negative =>
    change ((-((m <<< (e - t).toNat : ℕ) : ℤ) : ℤ) : ℚ) * _ = -_
    rw [Int.cast_neg, Int.cast_natCast, neg_mul, hmove]

/-- Two finite numbers add up to their exact sum, rounded. -/
theorem roundsTo_add (hu : IsDouble u) (hv : IsDouble v) (hfu : u.isFinite) (hfv : v.isFinite) :
    RoundsTo (value u + value v) (add .binary64 u v) := by
  cases hu with
  | nan => contradiction
  | infinity s => contradiction
  | zero s =>
    cases hv with
    | nan => contradiction
    | infinity s' => contradiction
    | zero s' =>
      have hsum :
          add .binary64 (.zero s) (.zero s') = .zero (if s == s' then s else .positive) := by
        cases s <;> cases s' <;> rfl
      rw [hsum]
      exact .zero (by simp [value]) _
    | finite hm' he' h' =>
      rw [show value (.zero s) = 0 from rfl, zero_add]
      exact roundsTo_value (.finite hm' he' h') rfl
  | @finite s m e hm he h =>
    cases hv with
    | nan => contradiction
    | infinity s' => contradiction
    | zero s' =>
      rw [show value (.zero s') = 0 from rfl, add_zero]
      exact roundsTo_value (.finite hm he h) rfl
    | @finite s' m' e' hm' he' h' =>
      rw [← apply_decreaseExponent h (min_le_left e e'),
        ← apply_decreaseExponent h' (min_le_right e e'), ← add_mul, ← Int.cast_add]
      exact roundsTo_normalize _ _

theorem sub_eq_add_neg (u v : UnpackedFloat) : sub .binary64 u v = add .binary64 u v.neg := by
  cases u with
  | notANumber => rfl
  | infinity s => cases v <;> rfl
  | zero s => cases v <;> rfl
  | finite s m e h =>
    cases v with
    | finite s' m' e' h' =>
      have happly (n : ℤ) : (-s').apply n = -s'.apply n := by
        cases s' with
        | positive => rfl
        | negative => exact (neg_neg n).symm
      simp only [UnpackedFloat.sub, UnpackedFloat.add, UnpackedFloat.neg, happly,
        Int.sub_eq_add_neg]
    | _ => rfl

/-! ## What is not negative -/

/-- A number that is not below zero, or no number at all. -/
def Unsigned : UnpackedFloat → Prop
  | .notANumber => True
  | .infinity s => s = .positive
  | .zero s => s = .positive
  | .finite s _ _ _ => s = .positive

/-- What is stored is a zero, finite or infinite, and it has the sign of the rounding. -/
theorem Rounded.view_cases (h : Rounded s r u) (hr : 0 < r) :
    view (ofView u) = .zero s ∨ view (ofView u) = .infinity s ∨
      ∃ m e hm, view (ofView u) = .finite s m e hm := by
  obtain rfl | ⟨m, e, hpos, rfl, hm⟩ := h.cases hr
  · exact .inl (view_ofView (.zero s))
  · rcases le_or_gt e 971 with he | he
    · exact .inr (.inr ⟨m, e, hpos, view_ofView (.finite hm he hpos)⟩)
    · rw [ofView_overflow hm he]
      exact .inr (.inl (view_ofView (.infinity s)))

theorem unsigned_view_of_rounded (h : Rounded .positive r u) (hr : 0 < r) :
    Unsigned (view (ofView u)) := by
  rcases h.view_cases hr with hview | hview | ⟨m, e, hm, hview⟩
  · rw [hview]
    rfl
  · rw [hview]
    rfl
  · rw [hview]
    rfl

/-- A number that is not above a double is not rounded to infinity. -/
theorem isFinite_of_rounded (h : Rounded s r u) (hr : 0 < r) (hm : Canonical m e) (he : e ≤ 971)
    (hle : r ≤ m * 2 ^ e) : (ofView u).isFinite = true := by
  have hmagnitude := h.magnitude_le hr hm hle
  show (view (ofView u)).isFinite = true
  obtain rfl | ⟨m', e', hpos, rfl, hm'⟩ := h.cases hr
  · rw [view_ofView (.zero _)]
    rfl
  · have he' : e' ≤ 971 := by
      by_contra hgt
      have hlt := hm.lt_of_exponent_lt hm' (by omega)
      exact absurd hmagnitude (not_le_of_gt hlt)
    rw [view_ofView (.finite hm' he' _)]
    rfl

theorem unsigned_view_ofView (hu : IsDouble u) (h : Unsigned u) : Unsigned (view (ofView u)) := by
  rw [view_ofView hu]
  exact h

theorem Unsigned.cases (h : Unsigned u) (hu : IsDouble u) :
    u = .notANumber ∨ u = .infinity .positive ∨ u = .zero .positive ∨
      ∃ m e hm, u = .finite .positive m e hm ∧ Canonical m e := by
  cases hu with
  | nan => exact .inl rfl
  | infinity s => exact .inr (.inl (congrArg _ h))
  | zero s => exact .inr (.inr (.inl (congrArg _ h)))
  | @finite s m e hm he hpos =>
    obtain rfl : s = .positive := h
    exact .inr (.inr (.inr ⟨m, e, hpos, rfl, hm⟩))

theorem unsigned_mul {x y : Float} (hx : Unsigned (view x)) (hy : Unsigned (view y)) :
    Unsigned (view (x * y)) := by
  have hnan := unsigned_view_ofView .nan trivial
  have hinfinity := unsigned_view_ofView (.infinity .positive) rfl
  have hzero := unsigned_view_ofView (.zero .positive) rfl
  have hy' := hy.cases (isDouble_view y)
  rw [mul_eq]
  generalize view y = v at hy'
  rcases hx.cases (isDouble_view x) with hx | hx | hx | ⟨m, e, h, hx, hm⟩
  · rw [hx]
    exact hnan
  · rw [hx]
    rcases hy' with rfl | rfl | rfl | ⟨m', e', h', rfl, hm'⟩
    · exact hnan
    · exact hinfinity
    · exact hnan
    · exact hinfinity
  · rw [hx]
    rcases hy' with rfl | rfl | rfl | ⟨m', e', h', rfl, hm'⟩
    · exact hnan
    · exact hnan
    · exact hzero
    · exact hzero
  · rw [hx]
    rcases hy' with rfl | rfl | rfl | ⟨m', e', h', rfl, hm'⟩
    · exact hnan
    · exact hinfinity
    · exact hzero
    · exact unsigned_view_of_rounded (hm.rounded_mul hm' .positive .positive)
        (mul_pos (units_pos h e) (units_pos h' e'))

theorem IsDouble.neg (h : IsDouble u) : IsDouble u.neg := by
  cases h with
  | nan => exact .nan
  | infinity s => exact .infinity _
  | zero s => exact .zero _
  | finite hm he h => exact .finite hm he h

theorem value_neg (u : UnpackedFloat) : value u.neg = -value u := by
  cases u with
  | finite s m e h =>
    cases s with
    | positive => rfl
    | negative => exact (neg_neg _).symm
  | _ => exact neg_zero.symm

theorem isFinite_neg (u : UnpackedFloat) : u.neg.isFinite = u.isFinite := by
  cases u <;> rfl

theorem isFinite_double_neg (x : Float) : (-x).isFinite = x.isFinite := by
  show (view (-x)).isFinite = (view x).isFinite
  rw [neg_eq, view_ofView (isDouble_view x).neg, isFinite_neg]

theorem sub_special (h : ¬ (u.isFinite ∧ v.isFinite)) :
    UnpackedFloat.sub .binary64 u v = .notANumber ∨
      ∃ s, UnpackedFloat.sub .binary64 u v = .infinity s := by
  cases u with
  | notANumber => exact .inl rfl
  | infinity s =>
    cases v with
    | notANumber => exact .inl rfl
    | infinity s' =>
      by_cases hs : (s == -s') = true
      · exact .inr ⟨s, if_pos hs⟩
      · exact .inl (if_neg hs)
    | _ => exact .inr ⟨s, rfl⟩
  | zero s =>
    cases v with
    | notANumber => exact .inl rfl
    | infinity s' => exact .inr ⟨-s', rfl⟩
    | _ => exact absurd ⟨rfl, rfl⟩ h
  | finite s m e hm =>
    cases v with
    | notANumber => exact .inl rfl
    | infinity s' => exact .inr ⟨-s', rfl⟩
    | _ => exact absurd ⟨rfl, rfl⟩ h

/-- A finite difference is one of finite numbers. -/
theorem isFinite_of_sub {x y : Float} (h : (y - x).isFinite) :
    (view y).isFinite ∧ (view x).isFinite := by
  by_contra hfin
  change (view (y - x)).isFinite = true at h
  rw [sub_eq] at h
  rcases sub_special hfin with hsub | ⟨s, hsub⟩
  · rw [hsub, view_ofView .nan] at h
    contradiction
  · rw [hsub, view_ofView (.infinity s)] at h
    contradiction

/-- From a number to a greater one leads a step that is not negative. -/
theorem unsigned_sub {x y : Float} (hlt : x < y) (hfin : (y - x).isFinite) :
    Unsigned (view (y - x)) := by
  have hdx := isDouble_view x
  have hdy := isDouble_view y
  obtain ⟨hfy, hfx⟩ := isFinite_of_sub hfin
  rw [lt_iff, compare_eq hdx hdy hfx hfy, Option.some_inj, compare_lt_iff_lt] at hlt
  have hround := roundsTo_add hdy hdx.neg hfy ((isFinite_neg _).trans hfx)
  rw [value_neg, ← sub_eq_add_neg] at hround
  rw [sub_eq]
  generalize UnpackedFloat.sub .binary64 (view y) (view x) = w at hround
  cases hround with
  | positive hr h => exact unsigned_view_of_rounded h hr
  | negative hr h => linarith
  | zero hr s => linarith

/-- Numbers that are equal are not too far apart. -/
theorem isFinite_sub_of_le_of_le {x y : Float} (hfx : x.isFinite = true) (hfy : y.isFinite = true)
    (hxy : x ≤ y) (hyx : y ≤ x) : (y - x).isFinite = true := by
  have hround := roundsTo_add (isDouble_view y) (isDouble_view x).neg hfy
    ((isFinite_neg _).trans hfx)
  have hvalue : value (view y) + value (view x).neg = 0 := by
    rw [le_iff_value hfx hfy] at hxy
    rw [le_iff_value hfy hfx] at hyx
    rw [value_neg]
    linarith
  rw [hvalue, ← sub_eq_add_neg] at hround
  show (view (y - x)).isFinite = true
  rw [sub_eq]
  generalize UnpackedFloat.sub .binary64 (view y) (view x) = w at hround
  cases hround with
  | positive hr h => exact absurd hr (lt_irrefl 0)
  | negative hr h => exact absurd hr (lt_irrefl 0)
  | zero hr s =>
    rw [view_ofView (.zero s)]
    rfl

/-- Adding what is not negative does not lead below where one started. -/
theorem le_add_of_unsigned {x y : Float} (hx : Unsigned (view x)) (hfy : (view y).isFinite)
    (hnan : view (x + y) ≠ .notANumber) : y ≤ x + y := by
  have hdx := isDouble_view x
  have hdy := isDouble_view y
  rw [le_iff]
  rw [add_eq] at hnan ⊢
  generalize view x = u at hx hdx hnan
  generalize view y = v at hfy hdy hnan
  cases hdx with
  | nan => exact absurd (view_ofView .nan) hnan
  | infinity s =>
    obtain rfl : s = .positive := hx
    have hsum : UnpackedFloat.add .binary64 (.infinity .positive) v = .infinity .positive := by
      cases v with
      | finite s m e h => rfl
      | zero s => rfl
      | _ => contradiction
    rw [hsum, view_ofView (.infinity _), compare_infinity hfy]
    rfl
  | zero s =>
    refine (roundsTo_add (.zero s) hdy rfl hfy).le_view hdy hfy ?_
    simp [value]
  | @finite s m e hm he h =>
    obtain rfl : s = .positive := hx
    refine (roundsTo_add (.finite hm he h) hdy rfl hfy).le_view hdy hfy ?_
    exact le_add_of_nonneg_left (units_pos h e).le

/-! ## The sign of a difference -/

theorem canonical_one : Canonical 1 (-1074) :=
  ⟨by decide, by decide, le_rfl, .inr rfl⟩

/-- Finite doubles are whole numbers of the smallest of them. -/
theorem exists_smallest_units (hu : IsDouble u) (hfu : u.isFinite) :
    ∃ n : ℤ, value u = n * 2 ^ (-1074 : ℤ) := by
  cases hu with
  | nan => contradiction
  | infinity s => contradiction
  | zero s => exact ⟨0, by simp [value]⟩
  | finite hm he h => exact ⟨_, (apply_decreaseExponent h hm.low).symm⟩

/-- What is not smaller than the smallest double does not vanish. -/
theorem RoundsTo.zero_lt_iff (h : RoundsTo r u) (hr : 0 < r → 2 ^ (-1074 : ℤ) ≤ r) :
    0.0 < ofView u ↔ 0 < r := by
  have hzero : view 0.0 = .zero .positive := rfl
  rw [lt_iff, hzero]
  cases h with
  | positive hpos h =>
    refine iff_of_true ?_ hpos
    have hmag := h.le_magnitude hpos canonical_one (by simpa using hr hpos)
    obtain rfl | ⟨m, e, hm, rfl, hcanonical⟩ := h.cases hpos
    · exact absurd hmag (not_le.mpr (units_pos Nat.one_pos _))
    · by_cases he : e ≤ 971
      · rw [view_ofView (.finite hcanonical he hm)]
        rfl
      · rw [ofView_overflow hcanonical (by omega) hm, view_ofView (.infinity _)]
        rfl
  | negative hneg h =>
    refine iff_of_false ?_ (not_lt.mpr hneg.le)
    obtain rfl | ⟨m, e, hm, rfl, hcanonical⟩ := h.cases (neg_pos.mpr hneg)
    · rw [view_ofView (.zero _)]
      nofun
    · by_cases he : e ≤ 971
      · rw [view_ofView (.finite hcanonical he hm)]
        nofun
      · rw [ofView_overflow hcanonical (by omega) hm, view_ofView (.infinity _)]
        nofun
  | zero hr s =>
    refine iff_of_false ?_ (by rw [hr]; exact lt_irrefl 0)
    rw [view_ofView (.zero s)]
    nofun

theorem isDouble_sub_special (h : ¬(u.isFinite ∧ v.isFinite)) :
    IsDouble (UnpackedFloat.sub .binary64 u v) := by
  rcases sub_special h with hsub | ⟨s, hsub⟩
  · rw [hsub]
    exact .nan
  · rw [hsub]
    exact .infinity s

theorem zero_compare_sub_special (h : ¬(u.isFinite ∧ v.isFinite)) :
    (UnpackedFloat.zero .positive).compare (UnpackedFloat.sub .binary64 u v) = some .lt ↔
      v.compare u = some .lt := by
  cases u with
  | notANumber => exact iff_of_false nofun (by cases v <;> nofun)
  | infinity s =>
    cases v with
    | notANumber => exact iff_of_false nofun nofun
    | infinity s' => cases s <;> cases s' <;> decide
    | zero s' => cases s <;> exact Iff.rfl
    | finite s' m e hm => cases s <;> exact Iff.rfl
  | zero s =>
    cases v with
    | notANumber => exact iff_of_false nofun nofun
    | infinity s' => cases s' <;> exact Iff.rfl
    | _ => exact absurd ⟨rfl, rfl⟩ h
  | finite s m e hm =>
    cases v with
    | notANumber => exact iff_of_false nofun nofun
    | infinity s' => cases s' <;> exact Iff.rfl
    | _ => exact absurd ⟨rfl, rfl⟩ h

/-- A difference is positive just if it leads to a greater number, infinities included: a
difference of two doubles that are not equal is not too small for a double. -/
theorem zero_lt_sub {x y : Float} : 0.0 < x - y ↔ y < x := by
  have hdx := isDouble_view x
  have hdy := isDouble_view y
  by_cases hfin : (view x).isFinite = true ∧ (view y).isFinite = true
  · obtain ⟨hfx, hfy⟩ := hfin
    have hround := roundsTo_add hdx hdy.neg hfx ((isFinite_neg _).trans hfy)
    have hvalue : value (view x) + value (view y).neg = value (view x) - value (view y) := by
      rw [value_neg]
      ring
    rw [hvalue, ← sub_eq_add_neg] at hround
    rw [sub_eq, lt_iff_value hfy hfx]
    refine (hround.zero_lt_iff fun hpos => ?_).trans sub_pos
    obtain ⟨n, hn⟩ := exists_smallest_units hdx hfx
    obtain ⟨k, hk⟩ := exists_smallest_units hdy hfy
    rw [hn, hk, ← sub_mul] at hpos ⊢
    have hone : (1 : ℤ) ≤ n - k := by
      have hunit : (0 : ℚ) < 2 ^ (-1074 : ℤ) := by positivity
      have hcount : (0 : ℚ) < n - k := pos_of_mul_pos_left hpos hunit.le
      exact_mod_cast hcount
    have hone : (1 : ℚ) ≤ n - k := by exact_mod_cast hone
    exact le_mul_of_one_le_left (by positivity) hone
  · have hzero : view 0.0 = .zero .positive := rfl
    rw [lt_iff, lt_iff, sub_eq, hzero]
    generalize view x = u at hfin hdx
    generalize view y = v at hfin hdy
    rw [view_ofView (isDouble_sub_special hfin)]
    exact zero_compare_sub_special hfin

end Binary64
end SymbolicRegression
