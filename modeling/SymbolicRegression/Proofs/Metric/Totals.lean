import Mathlib
import SymbolicRegression.Metric.Basic
import SymbolicRegression.Proofs.Metric.RocCurve

/-!
Weights are repetitions.

In exact arithmetic a score knows its rows only by weighted totals of quantities of a row:
`scoreOf` writes every metric as a function of the totals, and `score_eq` says that this is the
score, with weights and without.  A total stays the same when a row of weight `k` is put into the
list `k` times, and when the rows change places.  So a score does too, also where all weights are
zero and nothing is left to score.
-/

namespace SymbolicRegression
namespace Metric

open Comparable

variable {K ι : Type} [Field K]

/-! ## Totals -/

/-- The weighted total of a quantity over a list of rows. -/
def total (w : ι → K) (rows : List ι) (f : ι → K) : K := (rows.map fun i => w i * f i).sum

theorem total_perm {w : ι → K} {rows rows' : List ι} (h : rows.Perm rows') :
    total w rows = total w rows' := by
  funext f
  exact (h.map fun i => w i * f i).sum_eq

/-- A list in which every row stands as often as its weight says. -/
def repeated (w : ι → ℕ) (rows : List ι) : List ι := rows.flatMap fun i => List.replicate (w i) i

theorem total_repeated (w : ι → ℕ) (rows : List ι) :
    total (fun _ => 1) (repeated w rows) = total (fun i => (w i : K)) rows := by
  funext f
  unfold total repeated
  induction rows with
  | nil => rfl
  | cons i rows ih =>
    rw [List.flatMap_cons, List.map_append, List.sum_append, ih, List.map_cons, List.sum_cons,
      List.map_replicate, List.sum_replicate, nsmul_eq_mul, one_mul]

/-- The weights that a metric is given are those of the rows; without weights all are one. -/
def Weighs (w : ι → K) (rows : List ι) : Option (List K) → Prop
  | some ws => ws = rows.map w
  | none => w = fun _ => 1

variable {w y pred : ι → K} {rows : List ι} {ws : Option (List K)} [LinearOrder K] [Elementary K]

theorem rowWeights_eq (hw : Weighs w rows ws) : rowWeights rows.length ws = .ok (rows.map w) := by
  cases ws with
  | some ws =>
    obtain rfl := hw
    show (if rows.length ≤ (rows.map w).length then Except.ok ((rows.map w).take rows.length)
      else _) = _
    rw [List.length_map, if_pos le_rfl, ← List.length_map w, List.take_length]
  | none =>
    obtain rfl := hw
    show Except.ok (List.replicate rows.length (Scalar.ofNat 1 : K)) = _
    rw [Exact.ofNat_one, List.map_const']

/-! ## Confusion -/

/-- One for a target of one class with a prediction of one class, and zero for others. -/
def cell (actual predicted : Bool) (t p : K) : K :=
  if isPositive t = actual ∧ less (Scalar.ofNat 0) p = predicted then 1 else 0

/-- The weights by target and prediction. -/
def confusionOf (T : (ι → K) → K) (y pred : ι → K) : Confusion K where
  truePositive := T fun i => cell true true (y i) (pred i)
  falsePositive := T fun i => cell false true (y i) (pred i)
  falseNegative := T fun i => cell true false (y i) (pred i)
  trueNegative := T fun i => cell false false (y i) (pred i)

theorem Confusion.add_eq (c : Confusion K) (t p v : K) :
    c.add ((t, p), v) = {
      truePositive := c.truePositive + v * cell true true t p
      falsePositive := c.falsePositive + v * cell false true t p
      falseNegative := c.falseNegative + v * cell true false t p
      trueNegative := c.trueNegative + v * cell false false t p } := by
  unfold add cell
  dsimp only
  cases isPositive t <;> cases less (Scalar.ofNat 0) p <;> simp

theorem Confusion.foldl_add (c : Confusion K) :
    (rows.map fun i => ((y i, pred i), w i)).foldl add c = {
      truePositive := c.truePositive + (confusionOf (total w rows) y pred).truePositive
      falsePositive := c.falsePositive + (confusionOf (total w rows) y pred).falsePositive
      falseNegative := c.falseNegative + (confusionOf (total w rows) y pred).falseNegative
      trueNegative := c.trueNegative + (confusionOf (total w rows) y pred).trueNegative } := by
  induction rows generalizing c with
  | nil => simp [confusionOf, total]
  | cons i rows ih =>
    rw [List.map_cons, List.foldl_cons, ih, add_eq]
    simp only [confusionOf, total, List.map_cons, List.sum_cons, add_assoc]

theorem Confusion.tally_eq (hw : Weighs w rows ws) :
    tally (rows.map y) (rows.map pred) ws = .ok (confusionOf (total w rows) y pred) := by
  have hrows : List.zip (List.zip (rows.map y) (rows.map pred)) (rows.map w) =
      rows.map fun i => ((y i, pred i), w i) := by
    rw [List.zip_map', List.zip_map']
  have hlength : (List.zip (rows.map y) (rows.map pred)).length = rows.length := by
    rw [List.zip_map', List.length_map]
  unfold tally
  dsimp only
  rw [hlength, rowWeights_eq hw]
  refine congrArg Except.ok ?_
  rw [hrows, foldl_add]
  simp only [none, Exact.ofNat_zero, zero_add]

/-! ## Means -/

/-- The mean of a quantity, zero if there is no weight at all. -/
def meanOfTotals (T : (ι → K) → K) (f : ι → K) : K :=
  if T (fun _ => 1) ≤ 0 then 0 else T f / T fun _ => 1

section

variable [IsStrictOrderedRing K]

theorem weightedMean_eq (hw : Weighs w rows ws) (f : ι → K) :
    weightedMean (rows.map f) ws = meanOfTotals (total w rows) f := by
  cases ws with
  | some ws =>
    obtain rfl := hw
    have hweight : total w rows (fun _ => 1) = (rows.map w).sum := by
      simp only [total, mul_one]
    have hsum : total w rows f = (List.zipWith (· * ·) (rows.map f) (rows.map w)).sum := by
      simp only [total, List.zipWith_map, List.zipWith_self, mul_comm]
    unfold weightedMean meanOfTotals
    simp only [Exact.sum_eq, Exact.ofNat_zero, Exact.atMost_iff, hweight, hsum]
  | none =>
    obtain rfl := hw
    have hweight : total (fun _ => 1) rows (fun _ => 1) = (rows.length : K) := by
      simp [total]
    have hsum : total (fun _ => 1) rows f = (rows.map f).sum := by
      simp only [total, one_mul]
    have hempty : (rows.map f).isEmpty = true ↔ (rows.length : K) ≤ 0 := by
      rw [List.isEmpty_iff, List.map_eq_nil_iff, ← Nat.cast_zero, Nat.cast_le, Nat.le_zero,
        List.length_eq_zero_iff]
    unfold weightedMean meanOfTotals
    simp only [hempty, Exact.sum_eq, Exact.ofNat_zero, hweight, hsum, List.length_map]
    rfl

theorem meanOf_eq (hw : Weighs w rows ws) (f : K → K → K) :
    meanOf f (rows.map y) (rows.map pred) ws =
      meanOfTotals (total w rows) fun i => f (y i) (pred i) := by
  unfold meanOf
  rw [List.zipWith_map, List.zipWith_self, weightedMean_eq hw]

end

/-- The coefficient of determination. -/
def determinationOf (T : (ι → K) → K) (y pred : ι → K) : K :=
  let mean := meanOfTotals T y
  let residual := meanOfTotals T fun i => squaredError (y i) (pred i)
  let spread := meanOfTotals T fun i => Scalar.square (y i - mean)
  if spread = 0 then if residual = 0 then 1 else 0 else 1 - residual / spread

theorem determination_eq [IsStrictOrderedRing K] (hw : Weighs w rows ws) :
    determination (rows.map y) (rows.map pred) ws = determinationOf (total w rows) y pred := by
  unfold determination determinationOf
  dsimp only
  rw [weightedMean_eq hw, meanOf_eq hw, meanOf_eq hw]
  simp only [Exact.same_iff, Exact.ofNat_zero, Exact.ofNat_one]

/-! ## Pairs -/

/-- One for the rows of a class, and zero for others. -/
def inClass (y : ι → K) (positive : Bool) (i : ι) : K := if isPositive (y i) = positive then 1 else 0

/-- What the pairs of a positive row and a negative one count, each with the weights of both. -/
def pairsOf (T : (ι → K) → K) (y pred : ι → K) : K :=
  T fun i => inClass y true i * T fun j => inClass y false j *
    Roc.credit (fun x => x) ⟨pred i, true, 1⟩ ⟨pred j, false, 1⟩

namespace Roc

/-- The row with an index. -/
def rowAt (y pred w : ι → K) (i : ι) : Row K K := ⟨pred i, isPositive (y i), w i⟩

theorem rows_map (hw : Weighs w rows ws) :
    Roc.rows (rows.map y) (rows.map pred) ws = .ok (rows.map (rowAt y pred w)) := by
  unfold Roc.rows
  rw [List.length_map, List.length_map, if_neg (lt_irrefl _), rowWeights_eq hw]
  refine congrArg Except.ok ?_
  rw [List.zip_map', List.zipWith_map, List.zipWith_self]
  rfl

/-- A sum over the rows of a class. -/
theorem sum_ofClass (positive : Bool) (g : Row K K → K) :
    ((ofClass positive (rows.map (rowAt y pred w))).map g).sum =
      (rows.map fun i => inClass y positive i * g (rowAt y pred w i)).sum := by
  rw [ofClass, Exact.sum_filter, List.map_map]
  refine congrArg List.sum (List.map_congr_left fun i _ => ?_)
  show (if (isPositive (y i) == positive) = true then _ else _) = _
  unfold inClass
  by_cases h : isPositive (y i) = positive
  · rw [if_pos (beq_iff_eq.mpr h), if_pos h, one_mul]
  · rw [if_neg (mt beq_iff_eq.mp h), if_neg h, zero_mul]

theorem classWeight_map (positive : Bool) :
    classWeight positive (rows.map (rowAt y pred w)) = total w rows (inClass y positive) := by
  rw [classWeight_eq, sum_ofClass]
  simp only [total, rowAt, mul_comm]

theorem pairs_map :
    pairs (fun x : K => x) (rows.map (rowAt y pred w)) (rows.map (rowAt y pred w)) =
      pairsOf (total w rows) y pred := by
  unfold pairs pairsOf
  rw [sum_ofClass]
  simp only [sum_ofClass]
  unfold total
  refine congrArg List.sum (List.map_congr_left fun i _ => ?_)
  dsimp only
  rw [← List.sum_map_mul_left, ← List.sum_map_mul_left, ← List.sum_map_mul_left]
  refine congrArg List.sum (List.map_congr_left fun j _ => ?_)
  have hcredit : (credit (fun x => x) (rowAt y pred w i) (rowAt y pred w j) : K) =
      credit (fun x => x) ⟨pred i, true, 1⟩ ⟨pred j, false, 1⟩ := rfl
  rw [hcredit]
  simp only [rowAt]
  ring

theorem keyed_self : Keyed (fun x : K => x) fun _ => True where
  same_iff _ _ := Exact.same_iff
  le_of_rank _ _ h := not_lt.mp fun hlt => h (compare_gt_iff_gt.mpr hlt)

instance : Std.TransCmp (rank : K → K → Ordering) :=
  inferInstanceAs (Std.TransCmp (compare : K → K → Ordering))

theorem score_map [IsStrictOrderedRing K] (hw : Weighs w rows ws) :
    Roc.score (rows.map y) (rows.map pred) ws = .ok
      (Scalar.ratio (pairsOf (total w rows) y pred)
        (total w rows (inClass y true) * total w rows (inClass y false))) := by
  have hnone : ¬(rows.map pred).any isNaN = true := by
    rw [List.any_eq_true]
    intro ⟨p, _, hnan⟩
    cases hnan
  unfold Roc.score
  rw [if_neg hnone, rows_map hw]
  refine congrArg Except.ok ?_
  rw [area_eq keyed_self fun _ _ => trivial, classWeight_map, classWeight_map, pairs_map,
    Exact.ratio_eq]

end Roc

/-! ## Scores -/

/-- The score by the totals of quantities of a row. -/
def scoreOf (m : Metric) (T : (ι → K) → K) (y pred : ι → K) : K :=
  match m with
  | mae => meanOfTotals T fun i => Scalar.abs (y i - pred i)
  | mse => meanOfTotals T fun i => squaredError (y i) (pred i)
  | rmse => Scalar.sqrt (meanOfTotals T fun i => squaredError (y i) (pred i))
  | r2 => determinationOf T y pred
  | logLoss => meanOfTotals T fun i => crossEntropy (y i) (pred i)
  | accuracy => (confusionOf T y pred).accuracy
  | precision => (confusionOf T y pred).precision
  | sensitivity => (confusionOf T y pred).sensitivity
  | f1 => (confusionOf T y pred).f1
  | rocAuc => Scalar.ratio (pairsOf T y pred) (T (inClass y true) * T (inClass y false))

variable [IsStrictOrderedRing K]

theorem score_eq (m : Metric) (hw : Weighs w rows ws) :
    m.score (rows.map y) (rows.map pred) ws = .ok (m.scoreOf (total w rows) y pred) := by
  cases m with
  | mae | mse | logLoss => exact congrArg Except.ok (meanOf_eq hw _)
  | rmse => exact congrArg (Except.ok ∘ Scalar.sqrt) (meanOf_eq hw _)
  | r2 => exact congrArg Except.ok (determination_eq hw)
  | accuracy | precision | sensitivity | f1 =>
    rw [score, Confusion.tally_eq hw]
    rfl
  | rocAuc => exact Roc.score_map hw

/-- Of natural weights every score is the score without weights of the rows in which row `i` stands
`w i` times, and a score with any weights or none stays the same when targets, predictions and
weights change places together. -/
theorem weights_are_repetitions (m : Metric) {n : ℕ} (y pred : Fin n → K) :
    (∀ w : Fin n → ℕ, ∃ s,
      m.score (List.ofFn y) (List.ofFn pred) (some (List.ofFn fun i => (w i : K))) = .ok s ∧
      m.score ((repeated w (List.finRange n)).map y) ((repeated w (List.finRange n)).map pred)
        none = .ok s) ∧
    ∀ (w : Option (Fin n → K)) (σ : Equiv.Perm (Fin n)), ∃ s,
      m.score (List.ofFn y) (List.ofFn pred) (w.map List.ofFn) = .ok s ∧
      m.score (List.ofFn (y ∘ σ)) (List.ofFn (pred ∘ σ)) (w.map fun w => List.ofFn (w ∘ σ)) =
        .ok s := by
  refine ⟨fun w => ?_, fun w σ => ?_⟩
  · rw [List.ofFn_eq_map, List.ofFn_eq_map, List.ofFn_eq_map]
    refine ⟨_, m.score_eq rfl, ?_⟩
    rw [← total_repeated]
    exact m.score_eq rfl
  · have hperm := σ.map_finRange_perm
    cases w with
    | none =>
      simp only [Option.map_none, List.ofFn_eq_map, ← List.map_map]
      refine ⟨_, m.score_eq rfl, ?_⟩
      rw [← total_perm hperm]
      exact m.score_eq rfl
    | some w =>
      simp only [Option.map_some, List.ofFn_eq_map, ← List.map_map]
      refine ⟨_, m.score_eq rfl, ?_⟩
      rw [← total_perm hperm]
      exact m.score_eq rfl

/-- One row counts twice and one does not count, and the last one misses its target by one. -/
theorem weights_are_repetitions_rationals :
    letI := Roc.unasked
    r2.score [1, 5, 4] [1, 0, 3] (some [2, 0, 1]) = .ok (5 / 6 : ℚ) ∧
      r2.score [1, 1, 4] [1, 1, 3] none = .ok (5 / 6 : ℚ) := by
  let := Roc.unasked
  obtain ⟨s, hs, hrepeated⟩ :=
    (weights_are_repetitions r2 (![1, 5, 4] : Fin 3 → ℚ) ![1, 0, 3]).1 ![2, 0, 1]
  have hweights : (List.ofFn fun i => ((![2, 0, 1] i : ℕ) : ℚ)) = [2, 0, 1] := by decide +kernel
  have hvalue : determination [1, 1, 4] [1, 1, 3] none = (5 / 6 : ℚ) := by decide +kernel
  have hscore : s = 5 / 6 := (Except.ok.inj hrepeated).symm.trans hvalue
  rw [hweights] at hs
  rw [hscore] at hs hrepeated
  exact ⟨hs, hrepeated⟩

end Metric
end SymbolicRegression
