import SymbolicRegression.Numeric.Binary64
import SymbolicRegression.Proofs.Decimal.Nearest

/-!
Whole numbers near a double.

A positive number is cut off to its floor.  Sizes that are shares of other sizes rest on two
consequences: a number that is not below one stays at least one, and the whole number above a
number is a number.
-/

namespace SymbolicRegression
namespace Binary64

open Float.Model Float.Model.UnpackedFloat

variable {s : Sign} {m : ℕ} {e : ℤ} {r : ℚ} {u : UnpackedFloat} {x y : Float}

/-! ## Cutting off -/

theorem roundToInt_eq_floor : roundToInt .positive m e = ⌊(m : ℚ) * 2 ^ e⌋ := by
  -- The mantissa is moved up by `k` and down by `j` places, and one of the two is zero.
  set k := (e - 0).toNat with hk
  set j := (0 - (e - (k : ℤ))).toNat with hj
  obtain ⟨hmantissa, haccuracy⟩ := accuracy_ofMantissaAndAccuracy (m <<< k) .exact
  have hexact : Approximates (ExtendedMantissa.ofMantissaAndAccuracy (m <<< k) .exact).mantissa
      (ExtendedMantissa.ofMantissaAndAccuracy (m <<< k) .exact).accuracy ((m <<< k : ℕ) : ℚ) := by
    rw [hmantissa, haccuracy]
    rfl
  have hbounds := (approximates_shiftRight hexact j).bounds
  have hvalue : ((m <<< k : ℕ) : ℚ) / 2 ^ j = m * 2 ^ e := by
    have hexponent : e = (k : ℤ) - j := by omega
    rw [Nat.shiftLeft_eq, hexponent, zpow_sub₀ (by norm_num), zpow_natCast, zpow_natCast]
    push_cast
    ring
  rw [hvalue] at hbounds
  exact (Int.floor_eq_iff.mpr ⟨by exact_mod_cast hbounds.1, by exact_mod_cast hbounds.2⟩).symm

theorem one_le_toNat_ofNatClamp {n : ℕ} (h : 1 ≤ n) : 1 ≤ (UInt64.ofNatClamp n).toNat := by
  unfold UInt64.ofNatClamp
  split
  · rw [UInt64.toNat_ofNatLT]
    exact h
  · rw [UInt64.toNat_ofNatLT]
    decide

theorem view_one : view 1.0 = .finite .positive (2 ^ 52) (-52) (by decide) := rfl

theorem value_one : value (view 1.0) = 1 := by
  rw [view_one]
  norm_num [value]

/-- A number that is not below one is cut off to one at least. -/
theorem one_le_toWord (hnan : view x ≠ .notANumber) (h : ¬x < 1.0) : 1 ≤ toWord x := by
  suffices hint : 1 ≤ UnpackedFloat.toInt 0 (UInt64.size - 1) (view x) from
    one_le_toNat_ofNatClamp (Int.le_toNat (Int.one_pos.le.trans hint) |>.mpr hint)
  have hle : (view x).isFinite = true → 1 ≤ value (view x) := fun hfinite => by
    rw [← value_one, ← le_iff_value (by rfl) hfinite]
    exact le_of_not_lt hfinite (by rfl) h
  rw [lt_iff, view_one] at h
  generalize view x = u at hnan h hle
  cases u with
  | notANumber => exact absurd rfl hnan
  | infinity s =>
    cases s with
    | positive => decide
    | negative => exact absurd rfl h
  | zero s => exact absurd (hle rfl) (by norm_num [value])
  | finite s m e hm =>
    have hle := hle rfl
    cases s with
    | positive =>
      show 1 ≤ roundToInt .positive m e
      rw [roundToInt_eq_floor, Int.le_floor]
      exact_mod_cast hle
    | negative =>
      have hpos := units_pos hm e
      exact absurd hle (by simp only [value]; linarith)

/-! ## What is a number -/

theorem ne_nan_of_isFinite (h : x.isFinite = true) : view x ≠ .notANumber := by
  intro hx
  change (view x).isFinite = true at h
  rw [hx] at h
  contradiction

theorem Rounded.ne_nan (h : Rounded s r u) (hr : 0 < r) : view (ofView u) ≠ .notANumber := by
  rcases h.view_cases hr with hview | hview | ⟨m, e, hm, hview⟩
  · rw [hview]
    nofun
  · rw [hview]
    nofun
  · rw [hview]
    nofun

theorem RoundsTo.ne_nan (h : RoundsTo r u) : view (ofView u) ≠ .notANumber := by
  cases h with
  | positive hr h => exact h.ne_nan hr
  | negative hr h => exact h.ne_nan (neg_pos.mpr hr)
  | zero hr s =>
    rw [view_ofView (.zero s)]
    nofun

theorem add_ne_nan (hx : x.isFinite = true) (hy : y.isFinite = true) :
    view (x + y) ≠ .notANumber :=
  (roundsTo_add (isDouble_view x) (isDouble_view y) hx hy).ne_nan

/-- A product is a number if one factor is neither zero nor infinite and the other a number. -/
theorem mul_ne_nan (hx : view x ≠ .notANumber) (hy : y.isFinite = true) (hpos : 0.0 < y) :
    view (x * y) ≠ .notANumber := by
  rw [lt_iff_value rfl hy] at hpos
  change (view y).isFinite = true at hy
  rw [mul_eq]
  have hdx := isDouble_view x
  have hdy := isDouble_view y
  generalize view x = u at hx hdx
  generalize view y = v at hy hpos hdy
  cases hdy with
  | nan => contradiction
  | infinity s => contradiction
  | zero s => exact absurd hpos (lt_irrefl 0)
  | @finite s m e hm he h =>
    cases hdx with
    | nan => exact absurd rfl hx
    | infinity s' =>
      show view (ofView (.infinity (s' * s))) ≠ _
      rw [view_ofView (.infinity _)]
      nofun
    | zero s' =>
      show view (ofView (.zero (s' * s))) ≠ _
      rw [view_ofView (.zero _)]
      nofun
    | @finite s' m' e' hm' he' h' =>
      exact (hm'.rounded_mul hm s' s).ne_nan (mul_pos (units_pos h' e') (units_pos h e))

theorem ofNat_ne_nan {n : ℕ} (hn : 0 < n) : view (Float.ofNat n) ≠ .notANumber := by
  obtain ⟨u, hu, hx⟩ := stores_ofNat hn
  rw [hx]
  exact hu.ne_nan (by exact_mod_cast hn)

theorem ceiling_ne_nan (h : view x ≠ .notANumber) : view (ceiling x) ≠ .notANumber := by
  have hfinite (z : Float) : (Float.ofNat (toWord z)).isFinite = true :=
    isFinite_ofNat (UInt64.toNat_lt _).le
  unfold ceiling
  split
  · split
    · exact ne_nan_of_isFinite ((isFinite_double_neg _).trans (hfinite (-x)))
    · dsimp only
      split
      · exact add_ne_nan (hfinite x) rfl
      · exact h
  · exact h

/-! ## Comparisons with one -/

theorem infinity_compare (h : u.isFinite) :
    (UnpackedFloat.infinity .positive).compare u = some .gt := by
  cases u with
  | finite s m e h => cases s <;> rfl
  | zero s => rfl
  | _ => contradiction

theorem compare_neg_infinity (h : u.isFinite) : u.compare (.infinity .negative) = some .gt := by
  cases u with
  | finite s m e h => cases s <;> rfl
  | zero s => rfl
  | _ => contradiction

theorem not_lt_of_le (hx : x.isFinite = true) (h : x ≤ y) : ¬y < x := by
  intro hlt
  have hy := (ne_nan_of_lt hlt)
  change (view x).isFinite = true at hx
  rw [le_iff] at h
  rw [lt_iff] at hlt
  have hdx := isDouble_view x
  have hdy := isDouble_view y
  generalize view x = u at hx h hlt hdx
  generalize view y = v at hy h hlt hdy
  by_cases hfinite : v.isFinite = true
  · rw [isLE_compare_iff hdx hdy hx hfinite] at h
    rw [compare_eq hdy hdx hfinite hx, Option.some_inj, compare_lt_iff_lt] at hlt
    exact absurd h (not_le_of_gt hlt)
  · cases v with
    | notANumber => exact hy rfl
    | infinity s =>
      cases s with
      | positive =>
        rw [infinity_compare hx] at hlt
        contradiction
      | negative =>
        rw [compare_neg_infinity hx] at h
        contradiction
    | _ => exact hfinite rfl

theorem isFinite_of_between {lo hi : Float} (hlo : lo.isFinite = true) (hhi : hi.isFinite = true)
    (h : lo ≤ x) (hle : x ≤ hi) : x.isFinite = true := by
  show (view x).isFinite = true
  have hnan := ne_nan_of_le hle
  change (view lo).isFinite = true at hlo
  change (view hi).isFinite = true at hhi
  rw [le_iff] at h hle
  generalize view x = u at h hle hnan
  cases u with
  | notANumber => exact absurd rfl hnan
  | infinity s =>
    cases s with
    | positive =>
      rw [infinity_compare hhi] at hle
      contradiction
    | negative =>
      rw [compare_neg_infinity hlo] at h
      contradiction
  | _ => rfl

/-- What has something above it is not infinite. -/
theorem isFinite_of_le_of_lt {lo : Float} (hlo : lo.isFinite = true) (h : lo ≤ x) (hlt : x < y) :
    x.isFinite = true := by
  show (view x).isFinite = true
  have hnan := ne_nan_of_lt hlt
  change (view lo).isFinite = true at hlo
  rw [le_iff] at h
  rw [lt_iff] at hlt
  generalize view x = u at h hlt hnan
  generalize view y = v at hlt
  cases u with
  | notANumber => exact absurd rfl hnan
  | infinity s =>
    cases s with
    | positive =>
      cases v with
      | notANumber => contradiction
      | infinity s => cases s <;> contradiction
      | zero s =>
        rw [infinity_compare rfl] at hlt
        contradiction
      | finite s m e h =>
        rw [infinity_compare rfl] at hlt
        contradiction
    | negative =>
      rw [compare_neg_infinity hlo] at h
      contradiction
  | _ => rfl

theorem isFinite_of_le_of_le (h : 0.0 ≤ x) (hle : x ≤ 1.0) : x.isFinite = true :=
  isFinite_of_between rfl rfl h hle

theorem isFinite_of_lt_of_le (h : 0.0 < x) (hle : x ≤ 1.0) : x.isFinite = true :=
  isFinite_of_le_of_le (le_of_lt h) hle

theorem one_le_ofNat {n : ℕ} (hn : 0 < n) : 1.0 ≤ Float.ofNat n := by
  obtain ⟨u, hu, hx⟩ := stores_ofNat hn
  have hle : value (view 1.0) ≤ n := by
    rw [value_one]
    exact_mod_cast hn
  rw [le_iff, hx]
  exact (RoundsTo.positive (by exact_mod_cast hn) hu).le_view (isDouble_view 1.0) rfl hle

end Binary64
end SymbolicRegression
