import SymbolicRegression.Proofs.Numeric.Error
import SymbolicRegression.Proofs.Numeric.Ordinal
import SymbolicRegression.Proofs.Numeric.Whole

/-!
Rounding keeps the order.

The units of a grid count on where those of the finer grids end, so that the ordinals of the nearest
doubles grow with the numbers, up to that of infinity.  The sign of a zero is open only where the
exact result is zero.  Of two exact results that differ the stored ones are therefore in the total
order as well, so that adding to a finite number and multiplying by a positive one keep it.
-/

namespace SymbolicRegression
namespace Binary64

open Float.Model Float.Model.UnpackedFloat

variable {s s' : Sign} {m n : ℕ} {e t : ℤ} {r r' : ℚ} {u u' : UnpackedFloat} {x y z : Float}

/-! ## Rounding -/

theorem grid_mono (hr : 0 < r) (h : r ≤ r') : grid r ≤ grid r' :=
  max_le_max (Int.sub_le_sub_right (Int.log_mono_right hr h) 52) le_rfl

theorem ordinal_ofView (hm : Canonical m e) (h : 0 < m) :
    ordinal (view (ofView (.finite s m e h))) =
      s.apply (min ((e + 1074) * 2 ^ 52 + m) (2047 * 2 ^ 52)) := by
  rcases le_or_gt e 971 with he | he
  · rw [view_ofView (.finite hm he h), min_eq_left (hm.ordinal_lt he).le]
    rfl
  · have hnormal := hm.normal
    rw [ofView_overflow hm he, view_ofView (.infinity s), min_eq_right (by omega)]
    rfl

/-- Past a carry the count goes on. -/
theorem ordinal_place (hn : n ≤ 2 ^ 53) (ht : -1074 ≤ t) (hnormal : 2 ^ 52 ≤ n ∨ t = -1074) :
    ordinal (view (ofView (place s n t))) =
      s.apply (min ((t + 1074) * 2 ^ 52 + n) (2047 * 2 ^ 52)) := by
  rcases lt_or_eq_of_le hn with hlt | rfl
  · rcases Nat.eq_zero_or_pos n with rfl | hpos
    · obtain rfl : t = -1074 := hnormal.resolve_left (by decide)
      show ordinal (view (ofView (.zero s))) = _
      rw [view_ofView (.zero s)]
      cases s <;> rfl
    · rw [place_of_lt hpos hlt]
      exact ordinal_ofView ⟨hpos, hlt, ht, hnormal⟩ hpos
  · rw [place_carry, ordinal_ofView ⟨by decide, by decide, by omega, .inl le_rfl⟩]
    congr 2
    push_cast
    ring

/-- A greater number is rounded to a double of no smaller ordinal, the signs apart. -/
theorem Rounded.exists_ordinals (h : Rounded s r u) (h' : Rounded s' r' u') (hr : 0 < r)
    (hle : r ≤ r') : ∃ a b : ℤ, 0 ≤ a ∧ a ≤ b ∧ ordinal (view (ofView u)) = s.apply a ∧
      ordinal (view (ofView u')) = s'.apply b := by
  have hr' := hr.trans_le hle
  have hgrid := grid_mono hr hle
  have hlow := le_grid r
  obtain ⟨n, hn, rfl⟩ := h
  obtain ⟨k, hk, rfl⟩ := h'
  have hn53 := nearest_div_grid_le hn
  have hk52 := le_nearest_div_grid hr' hk
  refine ⟨_, _, ?_, ?_, ordinal_place hn53 hlow (le_nearest_div_grid hr hn),
    ordinal_place (nearest_div_grid_le hk) (le_grid r') hk52⟩
  · omega
  · rcases lt_or_eq_of_le hgrid with hlt | heq
    · omega
    · have hnk : n ≤ k := by
        rw [heq] at hn
        exact hn.mono hk (div_le_div_of_nonneg_right hle (by positivity))
      omega

theorem Rounded.exists_ordinal (h : Rounded s r u) (hr : 0 < r) :
    ∃ a : ℤ, 0 ≤ a ∧ ordinal (view (ofView u)) = s.apply a := by
  obtain ⟨a, -, ha, -, hu, -⟩ := h.exists_ordinals h hr le_rfl
  exact ⟨a, ha, hu⟩

theorem RoundsTo.ordinal_le (h : RoundsTo r u) (h' : RoundsTo r' u') (hle : r ≤ r') :
    ordinal (view (ofView u)) ≤ ordinal (view (ofView u')) := by
  have hzero (s : Sign) : ordinal (view (ofView (.zero s))) = 0 := by
    rw [view_ofView (.zero s)]
    rfl
  cases h with
  | positive hr h =>
    cases h' with
    | positive hr' h' =>
      obtain ⟨a, b, -, hab, hu, hu'⟩ := h.exists_ordinals h' hr hle
      rw [hu, hu']
      exact hab
    | negative hr' h' => exact absurd (hr.trans_le hle) (not_lt_of_gt hr')
    | zero hr' s => exact absurd (hr.trans_le hle) (not_lt_of_ge hr'.le)
  | negative hr h =>
    obtain ⟨a, ha, hu⟩ := h.exists_ordinal (neg_pos.mpr hr)
    cases h' with
    | positive hr' h' =>
      obtain ⟨b, hb, hu'⟩ := h'.exists_ordinal hr'
      rw [hu, hu']
      exact (neg_nonpos.mpr ha).trans hb
    | negative hr' h' =>
      obtain ⟨a, b, -, hab, hu', hu⟩ := h'.exists_ordinals h (neg_pos.mpr hr') (neg_le_neg hle)
      rw [hu, hu']
      exact neg_le_neg hab
    | zero hr' s =>
      rw [hu, hzero]
      exact neg_nonpos.mpr ha
  | zero hr s =>
    rw [hzero]
    cases h' with
    | positive hr' h' =>
      obtain ⟨b, hb, hu'⟩ := h'.exists_ordinal hr'
      rw [hu']
      exact hb
    | negative hr' h' => exact absurd (hr.ge.trans hle) (not_le_of_gt hr')
    | zero hr' s' => rw [hzero]

/-- What is rounded to a zero keeps its sign. -/
theorem Rounded.view_ne_zero (h : Rounded s r u) (hr : 0 < r) (hs : s ≠ s') :
    view (ofView u) ≠ .zero s' := by
  rcases h.view_cases hr with hview | hview | ⟨m, e, hm, hview⟩
  · rw [hview]
    exact fun hzero => hs (UnpackedFloat.zero.inj hzero)
  · rw [hview]
    nofun
  · rw [hview]
    nofun

/-- Results that differ are stored in their order, the zeros included. -/
theorem RoundsTo.rank_isLE (h : RoundsTo r u) (h' : RoundsTo r' u') (hlt : r < r') :
    (rank (ofView u) (ofView u')).isLE := by
  rw [Ordering.isLE_iff_ne_gt]
  intro hgt
  rcases lt_or_zeros_of_rank (isNaN_of_ne_nan h'.ne_nan) (isNaN_of_ne_nan h.ne_nan)
    (Std.OrientedCmp.gt_iff_lt.mp hgt) with hless | ⟨hu', hu⟩
  · rw [lt_iff_ordinal h'.ne_nan h.ne_nan] at hless
    exact absurd (h.ordinal_le h' hlt.le) (not_le_of_gt hless)
  · -- Zero is not the nearest to a negative number, nor minus zero to a positive one.
    have hzero : view (ofView u) = .zero .positive := by
      rw [hu]
      rfl
    have hminus : view (ofView u') = .zero .negative := by
      rw [hu']
      rfl
    have hr : 0 ≤ r := by
      cases h with
      | positive hr h => exact hr.le
      | negative hr h => exact absurd hzero (h.view_ne_zero (neg_pos.mpr hr) nofun)
      | zero hr s => exact hr.ge
    have hr' : r' ≤ 0 := by
      cases h' with
      | positive hr' h' => exact absurd hminus (h'.view_ne_zero hr' nofun)
      | negative hr' h' => exact hr'.le
      | zero hr' s => exact hr'.le
    exact absurd (hr.trans_lt hlt) (not_lt_of_ge hr')

/-! ## Operations -/

theorem infinity_eq : infinity = ofView (.infinity .positive) := rfl

theorem view_infinity : view infinity = .infinity .positive :=
  view_ofView (.infinity .positive)

theorem not_infinity_lt (x : Float) : ¬infinity < x := by
  rw [lt_iff, view_infinity]
  cases view x with
  | notANumber => nofun
  | infinity s => cases s <;> nofun
  | _ =>
    rw [infinity_compare rfl]
    nofun

theorem rank_infinity_isLE (hx : view x ≠ .notANumber) : (rank x infinity).isLE := by
  rw [Ordering.isLE_iff_ne_gt]
  intro hgt
  have hinfinity : infinity.isNaN = false := isNaN_of_ne_nan (by rw [view_infinity]; nofun)
  rcases lt_or_zeros_of_rank hinfinity (isNaN_of_ne_nan hx) (Std.OrientedCmp.gt_iff_lt.mp hgt) with
    hless | ⟨hminus, -⟩
  · exact not_infinity_lt x hless
  · have hview := congrArg view hminus
    rw [view_infinity] at hview
    contradiction

theorem add_infinity (hx : x.isFinite = true) : x + infinity = infinity := by
  change (view x).isFinite = true at hx
  rw [add_eq, view_infinity]
  cases hview : view x with
  | notANumber =>
    rw [hview] at hx
    contradiction
  | infinity s =>
    rw [hview] at hx
    contradiction
  | _ => rfl

/-- What is above a finite number is finite or infinity. -/
theorem eq_infinity_of_lt (hx : x.isFinite = true) (h : x < y) (hy : y.isFinite = false) :
    y = infinity := by
  change (view x).isFinite = true at hx
  change (view y).isFinite = false at hy
  rw [lt_iff] at h
  rw [← ofView_view y, infinity_eq]
  generalize view x = u at hx h
  generalize view y = v at hy h
  cases v with
  | notANumber => cases u <;> contradiction
  | infinity s =>
    cases s with
    | positive => rfl
    | negative =>
      rw [compare_neg_infinity hx] at h
      contradiction
  | _ => contradiction

theorem rank_add_isLE (hz : z.isFinite = true) (hx : x.isFinite = true) (h : x < y) :
    (rank (z + x) (z + y)).isLE := by
  by_cases hy : y.isFinite = true
  · have hlt := (lt_iff_value hx hy).mp h
    rw [add_eq, add_eq]
    exact (roundsTo_add (isDouble_view z) (isDouble_view x) hz hx).rank_isLE
      (roundsTo_add (isDouble_view z) (isDouble_view y) hz hy) (add_lt_add_right hlt _)
  · rw [eq_infinity_of_lt hx h (Bool.eq_false_of_not_eq_true hy), add_infinity hz]
    exact rank_infinity_isLE (add_ne_nan hz hx)

theorem rank_mul_isLE (hz : z.isFinite = true) (hpos : 0.0 < z) (hx : x.isFinite = true)
    (hy : y.isFinite = true) (h : x < y) : (rank (z * x) (z * y)).isLE := by
  have hlt := (lt_iff_value hx hy).mp h
  have hpos := (lt_iff_value rfl hz).mp hpos
  rw [mul_eq, mul_eq]
  exact (roundsTo_mul (isDouble_view z) (isDouble_view x) hz hx).rank_isLE
    (roundsTo_mul (isDouble_view z) (isDouble_view y) hz hy) (mul_lt_mul_of_pos_left hlt hpos)

theorem rank_ofNat_isLE (hm : 0 < m) (h : m < n) :
    (rank (Float.ofNat m) (Float.ofNat n)).isLE := by
  obtain ⟨u, hu, hx⟩ := stores_ofNat hm
  obtain ⟨v, hv, hy⟩ := stores_ofNat (hm.trans h)
  have hm' : (0 : ℚ) < m := by exact_mod_cast hm
  have h' : (m : ℚ) < n := by exact_mod_cast h
  rw [hx, hy]
  exact (RoundsTo.positive hm' hu).rank_isLE (.positive (hm'.trans h') hv) h'

/-! ## Factors that are not negative -/

theorem zero_or_pos_of_le (hz : z.isFinite = true) (h : 0.0 ≤ z) :
    (∃ s, view z = .zero s) ∨ 0.0 < z := by
  rw [lt_iff_value rfl hz]
  rw [le_iff_value rfl hz] at h
  obtain hzero | ⟨s, m, e, hm, hview, -, -⟩ := (isDouble_view z).cases_finite hz
  · exact .inl hzero
  · refine .inr (lt_of_le_of_ne h fun heq => ?_)
    have hpos := units_pos hm e
    rw [hview] at heq
    cases s with
    | positive => exact hpos.ne heq
    | negative => exact hpos.ne' (zero_eq_neg.mp heq)

theorem unsigned_of_pos (h : 0.0 < z) : Unsigned (view z) := by
  have hzero : view 0.0 = .zero .positive := rfl
  rw [lt_iff, hzero] at h
  cases hview : view z with
  | notANumber => exact trivial
  | _ s =>
    rw [hview] at h
    cases s with
    | positive => rfl
    | negative => exact absurd h nofun

theorem mul_eq_self_of_zero (hz : view z = .zero s) (hx : x.isFinite = true)
    (hsign : Unsigned (view x)) : z * x = z := by
  change (view x).isFinite = true at hx
  rw [mul_eq, ← ofView_view z, hz, view_ofView (.zero s)]
  congr 1
  rcases hsign.cases (isDouble_view x) with h | h | h | ⟨m, e, hm, h, -⟩
  · rw [h] at hx
    contradiction
  · rw [h] at hx
    contradiction
  · rw [h]
    cases s <;> rfl
  · rw [h]
    cases s <;> rfl

/-- Among numbers that are not negative the total order is the usual one, so that what keeps the
latter keeps the former. -/
theorem Unsigned.rank_isLE (hx : Unsigned (view x)) (hnx : view x ≠ .notANumber)
    (hny : view y ≠ .notANumber) (h : (rank x y).isLE) {f : Float → Float}
    (hf : x < y → (rank (f x) (f y)).isLE) : (rank (f x) (f y)).isLE := by
  rcases Ordering.isLE_iff_eq_lt_or_eq_eq.mp h with hlt | heq
  · rcases lt_or_zeros_of_rank (isNaN_of_ne_nan hnx) (isNaN_of_ne_nan hny) hlt with hless | ⟨rfl, -⟩
    · exact hf hless
    · exact absurd hx nofun
  · rw [rank_eq_iff.mp heq]
    exact Std.ReflCmp.isLE_rfl

theorem Unsigned.isFinite_or_eq_infinity (hx : Unsigned (view x)) (hnan : view x ≠ .notANumber) :
    x.isFinite = true ∨ x = infinity := by
  rcases hx.cases (isDouble_view x) with hview | hview | hview | ⟨m, e, hm, hview, -⟩
  · exact absurd hview hnan
  · refine .inr ?_
    rw [← ofView_view x, hview, infinity_eq]
  · refine .inl ?_
    show (view x).isFinite = true
    rw [hview]
    rfl
  · refine .inl ?_
    show (view x).isFinite = true
    rw [hview]
    rfl

theorem Unsigned.isFinite_of_lt (hx : Unsigned (view x)) (h : x < y) : x.isFinite = true := by
  rcases hx.isFinite_or_eq_infinity (ne_nan_of_lt h) with hfinite | rfl
  · exact hfinite
  · exact absurd h (not_infinity_lt y)

theorem add_ne_nan_of_unsigned (hz : z.isFinite = true) (hx : Unsigned (view x))
    (hnan : view x ≠ .notANumber) : view (z + x) ≠ .notANumber := by
  rcases hx.isFinite_or_eq_infinity hnan with hfinite | rfl
  · exact add_ne_nan hz hfinite
  · rw [add_infinity hz, view_infinity]
    nofun

end Binary64
end SymbolicRegression
