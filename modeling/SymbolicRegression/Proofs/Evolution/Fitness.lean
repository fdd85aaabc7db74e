import SymbolicRegression.Proofs.Evolution.Ranking
import SymbolicRegression.Proofs.Metric.Scores
import SymbolicRegression.Proofs.Numeric.Monotone
import SymbolicRegression.Proofs.Program.Paths
import SymbolicRegression.Proofs.Program.Rows

/-!
Of programs that predict alike the smaller wins.

Such programs are both unfit, or they have one loss and differ in the penalty.  The penalty of a
smaller program is not greater, and neither is its sum with the loss; that the sums may still be the
same number, infinity among others, is what the comparison of sizes is for.  A coefficient that is
a zero, of either sign, leaves all penalties the same.
-/

namespace SymbolicRegression

open Binary64

/-! ## Penalties -/

namespace LossFitness

variable {f : LossFitness} {loss : Float} {m n : ℕ}

theorem penalised_eq_of_zero (hzero : ∃ s, view f.parsimony = .zero s) (hn : n < 2 ^ 64) :
    f.penalised loss n = loss + f.parsimony := by
  obtain ⟨s, hzero⟩ := hzero
  unfold penalised
  rw [mul_eq_self_of_zero hzero (isFinite_ofNat hn.le) (unsigned_ofNat n)]

theorem unsigned_penalty (hpos : 0.0 < f.parsimony) (n : ℕ) :
    Unsigned (view (f.parsimony * Float.ofNat n)) :=
  unsigned_mul (unsigned_of_pos hpos) (unsigned_ofNat n)

theorem penalty_ne_nan (hc : f.parsimony.isFinite = true) (hn : n < 2 ^ 64) :
    view (f.parsimony * Float.ofNat n) ≠ .notANumber := by
  rw [mul_eq]
  exact (roundsTo_mul (isDouble_view _) (isDouble_view _) hc (isFinite_ofNat hn.le)).ne_nan

theorem penalised_ne_nan (hc : f.parsimony.isFinite = true) (hnonneg : 0.0 ≤ f.parsimony)
    (hloss : loss.isFinite = true) (hn : n < 2 ^ 64) :
    view (f.penalised loss n) ≠ .notANumber := by
  rcases zero_or_pos_of_le hc hnonneg with hzero | hpos
  · rw [penalised_eq_of_zero hzero hn]
    exact add_ne_nan hloss hc
  · exact add_ne_nan_of_unsigned hloss (unsigned_penalty hpos n) (penalty_ne_nan hc hn)

/-- The smaller one of two sizes is not punished harder. -/
theorem rank_penalised_isLE (hc : f.parsimony.isFinite = true) (hnonneg : 0.0 ≤ f.parsimony)
    (hloss : loss.isFinite = true) (hm : 0 < m) (hle : m ≤ n) (hn : n < 2 ^ 64) :
    (rank (f.penalised loss m) (f.penalised loss n)).isLE := by
  have hm64 := hle.trans_lt hn
  rcases zero_or_pos_of_le hc hnonneg with hzero | hpos
  · rw [penalised_eq_of_zero hzero hm64, penalised_eq_of_zero hzero hn]
    exact Std.ReflCmp.isLE_rfl
  · rcases hle.eq_or_lt with rfl | hlt
    · exact Std.ReflCmp.isLE_rfl
    · have hfinite := isFinite_ofNat hm64.le
      have hfinite' := isFinite_ofNat hn.le
      have hpenalty : (rank (f.parsimony * Float.ofNat m) (f.parsimony * Float.ofNat n)).isLE :=
        (unsigned_ofNat m).rank_isLE (ne_nan_of_isFinite hfinite) (ne_nan_of_isFinite hfinite')
          (rank_ofNat_isLE hm hlt) (rank_mul_isLE hc hpos hfinite hfinite')
      exact (unsigned_penalty hpos m).rank_isLE (penalty_ne_nan hc hm64) (penalty_ne_nan hc hn)
        hpenalty fun hless =>
          rank_add_isLE hloss ((unsigned_penalty hpos m).isFinite_of_lt hless) hless

/-! ## Comparisons -/

variable {p : Program} {pred : List Float}

theorem evaluate_eq (hpred : p.evaluate f.dataset = .ok pred)
    (hloss : f.metric.loss f.dataset.target pred f.dataset.weights = .ok loss) :
    f.evaluate p = .ok (if pred.any (!·.isFinite) || !loss.isFinite then .unfit
      else ⟨f.penalised loss p.size, loss⟩) := by
  unfold evaluate
  rw [hpred]
  show (if pred.any (!·.isFinite) then _ else
    f.metric.loss f.dataset.target pred f.dataset.weights >>= _) = _
  rw [hloss]
  show (if pred.any (!·.isFinite) then Except.ok Evaluation.unfit else if !loss.isFinite then
    Except.ok Evaluation.unfit else Except.ok (Evaluation.mk (f.penalised loss p.size) loss)) = _
  cases pred.any (!·.isFinite) <;> cases loss.isFinite <;> rfl

end LossFitness

/-- Where the smaller one of two individuals has no greater fitness, size decides. -/
theorem Individual.isBetterThan_iff_of_rank {a b : Individual}
    (hab : a.program.size ≤ b.program.size → (rank a.fitnessOrWorst b.fitnessOrWorst).isLE)
    (hba : b.program.size ≤ a.program.size → (rank b.fitnessOrWorst a.fitnessOrWorst).isLE) :
    a.isBetterThan b = true ↔ a.program.size < b.program.size := by
  rw [isBetterThan_iff, compare, Ordering.then_eq_lt, Nat.compare_eq_lt]
  refine ⟨fun h => ?_, fun hsize => ?_⟩
  · rcases h with hlt | ⟨-, hsize⟩
    · by_contra hnot
      have hle := hba (Nat.le_of_not_lt hnot)
      rw [Std.OrientedCmp.gt_iff_lt.mpr hlt] at hle
      contradiction
    · exact hsize
  · rcases Ordering.isLE_iff_eq_lt_or_eq_eq.mp (hab hsize.le) with hlt | heq
    · exact .inl hlt
    · exact .inr ⟨heq, hsize⟩

/-- Of two programs with the same predictions the smaller one is better, and only the smaller one,
whatever the metric and the coefficient are.  Sizes are counted in words. -/
theorem LossFitness.smaller_of_alike_wins {f : LossFitness} (hd : f.dataset.WellFormed)
    (hc : f.parsimony.isFinite = true) (hnonneg : 0.0 ≤ f.parsimony) {i j : Individual}
    {pred : List Float} (hi : i.program.evaluate f.dataset = .ok pred)
    (hj : j.program.evaluate f.dataset = .ok pred) (hisize : i.program.size < 2 ^ 64)
    (hjsize : j.program.size < 2 ^ 64) :
    ∃ a b, f.evaluate i.program = .ok a ∧ f.evaluate j.program = .ok b ∧
      a.fitness.isNaN = false ∧ b.fitness.isNaN = false ∧
      ((i.withEvaluation a).isBetterThan (j.withEvaluation b) = true ↔
        i.program.size < j.program.size) := by
  have hlength := Program.length_evaluate hd.rectangular hi
  obtain ⟨loss, hloss⟩ := f.metric.exists_loss hlength fun w hw => (hd.weights w hw).1
  refine ⟨_, _, evaluate_eq hi hloss, evaluate_eq hj hloss, ?_⟩
  by_cases hunfit : (pred.any (!·.isFinite) || !loss.isFinite) = true
  · have hinfinite : Binary64.infinity.isNaN = false := by decide +kernel
    rw [if_pos hunfit, if_pos hunfit]
    exact ⟨hinfinite, hinfinite, Individual.isBetterThan_iff_of_rank
      (fun _ => Std.ReflCmp.isLE_rfl) fun _ => Std.ReflCmp.isLE_rfl⟩
  · have hfinite : loss.isFinite = true := by
      rw [Bool.or_eq_true, not_or, Bool.not_eq_true', Bool.not_eq_false] at hunfit
      exact hunfit.2
    rw [if_neg hunfit, if_neg hunfit]
    exact ⟨isNaN_of_ne_nan (penalised_ne_nan hc hnonneg hfinite hisize),
      isNaN_of_ne_nan (penalised_ne_nan hc hnonneg hfinite hjsize),
      Individual.isBetterThan_iff_of_rank
        (fun hle => rank_penalised_isLE hc hnonneg hfinite i.program.size_pos hle hjsize)
        fun hle => rank_penalised_isLE hc hnonneg hfinite j.program.size_pos hle hisize⟩

/-- A penalty that three nodes are enough to make infinite. -/
def punishing : LossFitness := ⟨⟨[[1.0, 2.0]], [2.0, 2.0], none⟩, .mae, 1e308⟩

/-- The first feature with its sign changed `n` times. -/
def turned : ℕ → Program
  | 0 => .feature 0
  | n + 1 => .call .neg [turned n]

/-- After two and four changes of sign both fitnesses are infinite. -/
theorem LossFitness.smaller_of_alike_wins_punishing :
    ∃ a b, punishing.evaluate (turned 2) = .ok a ∧ punishing.evaluate (turned 4) = .ok b ∧
      a.isFit = false ∧ b.isFit = false ∧
      ((Individual.ofProgram (turned 2) 0).withEvaluation a).isBetterThan
        ((Individual.ofProgram (turned 4) 0).withEvaluation b) = true := by
  have hmade : Dataset.ofColumns [[1.0, 2.0]] [2.0, 2.0] none = .ok punishing.dataset := rfl
  obtain ⟨a, b, ha, hb, -, -, hbetter⟩ := smaller_of_alike_wins (f := punishing)
    (i := .ofProgram (turned 2) 0) (j := .ofProgram (turned 4) 0)
    (Dataset.wellFormed_of_ofColumns hmade) (by decide +kernel) (by decide +kernel) rfl rfl
    (by decide) (by decide)
  have hunfit {n : ℕ} {e : Evaluation} (h : punishing.evaluate (turned n) = .ok e)
      (hvalue : (punishing.evaluate (turned n)).toOption.map (·.isFit) = some false) :
      e.isFit = false := by
    rw [h] at hvalue
    exact Option.some.inj hvalue
  exact ⟨a, b, ha, hb, hunfit ha (by decide +kernel), hunfit hb (by decide +kernel),
    hbetter.mpr (by decide)⟩

end SymbolicRegression
