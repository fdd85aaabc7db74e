import Mathlib
import SymbolicRegression.Proofs.Metric.Totals

/-!
Slopes belong to their losses.

The error of a row is convex in the prediction, so that the line with the slope at one prediction
stays below the error at every other one.  That is a fact of a single row (`Supports`); weights that
are not negative carry it over to the mean, although the slopes themselves know no weights.  Where
the weighted slopes add up to zero no other constant is better, and for squared errors this is the
weighted mean that boosting starts from.
-/

namespace SymbolicRegression
namespace Metric

open Comparable

variable {K ι : Type} [Field K] {w : ι → K} {rows : List ι} {n : ℕ}

/-! ## Totals -/

theorem total_add (f g : ι → K) :
    total w rows (fun i => f i + g i) = total w rows f + total w rows g := by
  unfold total
  simp only [mul_add, List.sum_map_add]

theorem total_mul_const (f : ι → K) (c : K) :
    total w rows (fun i => f i * c) = total w rows f * c := by
  unfold total
  simp only [← mul_assoc, List.sum_map_mul_right]

theorem total_finRange (w f : Fin n → K) : total w (List.finRange n) f = ∑ i, w i * f i :=
  (Fin.sum_univ_def _).symm

/-- The weight of each row, which is one if there are no weights. -/
def weightOf (w : Option (Fin n → K)) : Fin n → K := w.getD fun _ => 1

theorem weighs_weightOf (w : Option (Fin n → K)) :
    Weighs (weightOf w) (List.finRange n) (w.map List.ofFn) := by
  cases w with
  | none => rfl
  | some w => exact List.ofFn_eq_map

variable [LinearOrder K]

section

variable [IsStrictOrderedRing K]

theorem total_le_total {f g : ι → K} (hw : ∀ i ∈ rows, 0 ≤ w i) (h : ∀ i ∈ rows, f i ≤ g i) :
    total w rows f ≤ total w rows g :=
  List.sum_le_sum fun i hi => mul_le_mul_of_nonneg_left (h i hi) (hw i hi)

theorem sum_weightOf_pos {w : Option (Fin n → K)} (hn : 0 < n)
    (hw : ∀ v ∈ w, (∀ i, 0 ≤ v i) ∧ 0 < ∑ i, v i) :
    (∀ i, 0 ≤ weightOf w i) ∧ 0 < ∑ i, weightOf w i := by
  cases w with
  | none => exact ⟨fun _ => zero_le_one, by simpa [weightOf] using hn⟩
  | some v => exact hw v rfl

end

/-! ## Slopes -/

/-- The line with the slope at a prediction is nowhere above the error. -/
def Supports (slope error : K → K → K) : Prop :=
  ∀ t p q, error t p + slope t p * (q - p) ≤ error t q

variable [Elementary K]

theorem gradient?_ofFn {m : Metric} {slope : K → K → K} (h : m.slope? = some slope)
    (y p : Fin n → K) : m.gradient? (List.ofFn y) (List.ofFn p) =
      some (List.ofFn fun i => slope (y i) (p i)) := by
  unfold gradient?
  rw [h, Option.map_some, List.ofFn_eq_map, List.ofFn_eq_map, List.ofFn_eq_map, List.zipWith_map,
    List.zipWith_self]

theorem meanOfTotals_eq (hpos : 0 < total w rows fun _ => 1) (f : ι → K) :
    meanOfTotals (total w rows) f = total w rows f / total w rows fun _ => 1 :=
  if_neg (not_le_of_gt hpos)

/-- At the mean the slopes of the squared errors add up to zero. -/
theorem total_squaredSlope_mean (hpos : 0 < total w rows fun _ => 1) (y : ι → K) :
    total w rows (fun i => squaredSlope (y i) (meanOfTotals (total w rows) y)) = 0 := by
  have htwo : (Scalar.ofNat 2 : K) = 2 := Nat.cast_ofNat
  have hsplit (c : K) : (fun i => squaredSlope (y i) c) = fun i => 1 * (2 * c) + y i * (-2) := by
    funext i
    unfold squaredSlope
    rw [htwo]
    ring
  rw [hsplit, total_add, total_mul_const, total_mul_const, meanOfTotals_eq hpos]
  field_simp
  ring

variable [IsStrictOrderedRing K]

theorem supports_absoluteSlope : Supports absoluteSlope fun t p : K => Scalar.abs (t - p) := by
  intro t p q
  show |t - p| + absoluteSlope t p * (q - p) ≤ |t - q|
  have hless (a b : K) : less a b = true ↔ a < b := decide_eq_true_iff
  have hright := le_abs_self (t - q)
  have hleft := neg_le_abs (t - q)
  unfold absoluteSlope
  simp only [hless, Exact.ofNat_one, Exact.ofNat_zero]
  rcases lt_trichotomy t p with h | rfl | h
  · rw [if_pos h, abs_of_neg (sub_neg.mpr h)]
    linarith
  · rw [if_neg (lt_irrefl t), if_neg (lt_irrefl t), sub_self, abs_zero, zero_mul, add_zero]
    exact abs_nonneg _
  · rw [if_neg (not_lt_of_gt h), if_pos h, abs_of_pos (sub_pos.mpr h)]
    linarith

theorem supports_squaredSlope : Supports squaredSlope (squaredError : K → K → K) := by
  intro t p q
  have hsquare := mul_self_nonneg (q - p)
  have htwo : (Scalar.ofNat 2 : K) = 2 := Nat.cast_ofNat
  unfold squaredSlope squaredError Scalar.square
  rw [htwo]
  linarith

/-! ## Losses -/

/-- What holds in every row holds of the means. -/
theorem Supports.mean_le {slope error : K → K → K} (h : Supports slope error)
    (hw : ∀ i ∈ rows, 0 ≤ w i) (hpos : 0 < total w rows fun _ => 1) (y p q : ι → K) :
    meanOfTotals (total w rows) (fun i => error (y i) (p i)) +
        total w rows (fun i => slope (y i) (p i) * (q i - p i)) / total w rows (fun _ => 1) ≤
      meanOfTotals (total w rows) fun i => error (y i) (q i) := by
  rw [meanOfTotals_eq hpos, meanOfTotals_eq hpos, ← add_div, ← total_add]
  exact div_le_div_of_nonneg_right (total_le_total hw fun i _ => h (y i) (p i) (q i)) hpos.le

theorem loss_ofFn {m : Metric} (hm : m.biggerIsBetter = false) (y p : Fin n → K)
    (w : Option (Fin n → K)) : m.loss (List.ofFn y) (List.ofFn p) (w.map List.ofFn) =
      .ok (m.scoreOf (total (weightOf w) (List.finRange n)) y p) := by
  have hscore : m.score ((List.finRange n).map y) ((List.finRange n).map p) (w.map List.ofFn) =
      .ok (m.scoreOf (total (weightOf w) (List.finRange n)) y p) :=
    m.score_eq (weighs_weightOf w)
  unfold loss
  rw [List.ofFn_eq_map, List.ofFn_eq_map, hscore, hm]
  rfl

/-- The gradient at one list of predictions is a subgradient of the weighted loss, though it does
not know the weights.  No other constant has a smaller squared loss than the one that boosting
starts from, and there the weighted gradient adds up to zero. -/
theorem gradient_supports_loss (hn : 0 < n) (y : Fin n → K) (w : Option (Fin n → K))
    (hw : ∀ v ∈ w, (∀ i, 0 ≤ v i) ∧ 0 < ∑ i, v i) :
    (∀ m ∈ [mae, mse], ∀ p q : Fin n → K, ∃ (g : Fin n → K) (before after : K),
      m.gradient? (List.ofFn y) (List.ofFn p) = some (List.ofFn g) ∧
      m.loss (List.ofFn y) (List.ofFn p) (w.map List.ofFn) = .ok before ∧
      m.loss (List.ofFn y) (List.ofFn q) (w.map List.ofFn) = .ok after ∧
      before + (∑ i, weightOf w i * (g i * (q i - p i))) / ∑ i, weightOf w i ≤ after) ∧
    ∃ (base least : K) (g : Fin n → K), mse.base (List.ofFn y) (w.map List.ofFn) = base ∧
      mse.loss (List.ofFn y) (List.replicate n base) (w.map List.ofFn) = .ok least ∧
      mse.gradient? (List.ofFn y) (List.replicate n base) = some (List.ofFn g) ∧
      ∑ i, weightOf w i * g i = 0 ∧
      ∀ c, ∃ other, mse.loss (List.ofFn y) (List.replicate n c) (w.map List.ofFn) = .ok other ∧
        least ≤ other := by
  obtain ⟨hnonneg, hsum⟩ := sum_weightOf_pos hn hw
  have hweight : total (weightOf w) (List.finRange n) (fun _ => 1) = ∑ i, weightOf w i := by
    rw [total_finRange]
    simp only [mul_one]
  have hpos : 0 < total (weightOf w) (List.finRange n) fun _ => 1 := hweight ▸ hsum
  have hsupports {slope error : K → K → K} (h : Supports slope error) (p q : Fin n → K) :
      meanOfTotals (total (weightOf w) (List.finRange n)) (fun i => error (y i) (p i)) +
          (∑ i, weightOf w i * (slope (y i) (p i) * (q i - p i))) / ∑ i, weightOf w i ≤
        meanOfTotals (total (weightOf w) (List.finRange n)) fun i => error (y i) (q i) := by
    rw [← hweight, ← total_finRange]
    exact h.mean_le (fun i _ => hnonneg i) hpos y p q
  refine ⟨?_, ?_⟩
  · intro m hm p q
    rw [List.mem_pair] at hm
    rcases hm with rfl | rfl
    · exact ⟨_, _, _, gradient?_ofFn rfl y p, loss_ofFn rfl y p w, loss_ofFn rfl y q w,
        hsupports supports_absoluteSlope p q⟩
    · exact ⟨_, _, _, gradient?_ofFn rfl y p, loss_ofFn rfl y p w, loss_ofFn rfl y q w,
        hsupports supports_squaredSlope p q⟩
  · have hbase : mse.base (List.ofFn y) (w.map List.ofFn) =
        meanOfTotals (total (weightOf w) (List.finRange n)) y := by
      rw [List.ofFn_eq_map]
      exact weightedMean_eq (weighs_weightOf w) y
    have hzero := total_squaredSlope_mean hpos y
    rw [total_finRange] at hzero
    simp only [← List.ofFn_const]
    refine ⟨_, _, _, hbase, loss_ofFn rfl _ _ w, gradient?_ofFn rfl _ _, hzero, fun c => ?_⟩
    refine ⟨_, loss_ofFn rfl _ _ w, ?_⟩
    -- The line at the base is level, because its slope is zero.
    have hline := hsupports supports_squaredSlope
      (fun _ => meanOfTotals (total (weightOf w) (List.finRange n)) y) fun _ => c
    simp only [← mul_assoc, ← Finset.sum_mul, hzero, zero_mul, zero_div, add_zero] at hline
    exact hline

/-- The second row does not count.  The slopes at the first predictions say that the second ones
miss by two thirds at least, and no constant has a smaller squared loss than two. -/
theorem gradient_supports_loss_rationals :
    letI := Roc.unasked
    (∃ after, mae.loss [1, 5, 4] [2, 2, 2] (some [2, 0, 1]) = .ok (after : ℚ) ∧ 2 / 3 ≤ after) ∧
      ∀ c : ℚ, ∃ other, mse.loss [1, 5, 4] [c, c, c] (some [2, 0, 1]) = .ok other ∧ 2 ≤ other := by
  let := Roc.unasked
  have hweights : ∀ v ∈ some (![2, 0, 1] : Fin 3 → ℚ), (∀ i, 0 ≤ v i) ∧ 0 < ∑ i, v i := by
    intro v hv
    cases hv
    exact ⟨by decide +kernel, by decide +kernel⟩
  obtain ⟨hslopes, base, least, -, hbase, hleast, -, -, hbest⟩ :=
    gradient_supports_loss (by decide) (![1, 5, 4] : Fin 3 → ℚ) (some ![2, 0, 1]) hweights
  refine ⟨?_, fun c => ?_⟩
  · obtain ⟨g, before, after, hg, hbefore, hafter, hle⟩ :=
      hslopes mae (by decide) ![1, 0, 3] ![2, 2, 2]
    have hslope : [0, -1, -1] = List.ofFn g := Option.some.inj hg
    have hloss : meanAbsoluteError [1, 5, 4] [1, 0, 3] (some [2, 0, 1]) = (1 / 3 : ℚ) := by
      decide +kernel
    obtain rfl : g = ![0, -1, -1] := List.ofFn_injective hslope.symm
    obtain rfl : before = 1 / 3 := (Except.ok.inj hbefore).symm.trans hloss
    refine ⟨after, hafter, le_trans (le_of_eq ?_) hle⟩
    decide +kernel
  · have hstart : weightedMean [1, 5, 4] (some [2, 0, 1]) = (2 : ℚ) := by decide +kernel
    have hloss : meanSquaredError [1, 5, 4] [2, 2, 2] (some [2, 0, 1]) = (2 : ℚ) := by
      decide +kernel
    obtain rfl : base = 2 := hbase.symm.trans hstart
    obtain rfl : least = 2 := (Except.ok.inj hleast).symm.trans hloss
    exact hbest c

end Metric
end SymbolicRegression
