import SymbolicRegression.Metric.Basic
import SymbolicRegression.Proofs.Outcomes

/-!
When a metric has a score.

Metrics stop with the shorter of two lists, but the weights have to reach as far as the rows, and
the area under the curve asks for a prediction for every row.  A prediction and a weight for each
row of the target are enough for every metric, whatever the numbers are.
-/

namespace SymbolicRegression
namespace Metric

variable {α : Type} [Scalar α] {y pred : List α} {w : Option (List α)}

theorem exists_rowWeights {n : Nat} (h : ∀ ws ∈ w, n ≤ ws.length) :
    ∃ weights, rowWeights n w = .ok weights := by
  cases w with
  | none => exact ⟨_, rfl⟩
  | some ws => exact ⟨_, if_pos (h ws rfl)⟩

theorem Confusion.exists_tally (hw : ∀ ws ∈ w, ws.length = y.length) :
    ∃ c, Confusion.tally y pred w = .ok c := by
  have hle : ∀ ws ∈ w, (List.zip y pred).length ≤ ws.length := by
    intro ws hws
    rw [hw ws hws, List.length_zip]
    exact Nat.min_le_left _ _
  obtain ⟨weights, hweights⟩ := exists_rowWeights hle
  unfold tally
  dsimp only
  rw [hweights]
  exact ⟨_, rfl⟩

theorem Roc.exists_score (hpred : pred.length = y.length)
    (hw : ∀ ws ∈ w, ws.length = y.length) : ∃ s, Roc.score y pred w = .ok s := by
  obtain ⟨weights, hweights⟩ := exists_rowWeights fun ws hws => Nat.le_of_eq (hw ws hws).symm
  unfold Roc.score
  split
  · exact ⟨_, rfl⟩
  · obtain ⟨rows, hrows⟩ : ∃ rows, Roc.rows y pred w = .ok rows := by
      unfold Roc.rows
      rw [hweights, if_neg (by omega)]
      exact ⟨_, rfl⟩
    rw [hrows]
    exact ⟨_, rfl⟩

theorem exists_score (m : Metric) (hpred : pred.length = y.length)
    (hw : ∀ ws ∈ w, ws.length = y.length) : ∃ s, m.score y pred w = .ok s := by
  obtain ⟨c, hc⟩ : ∃ c, Confusion.tally y pred w = .ok c := Confusion.exists_tally hw
  cases m with
  | rocAuc => exact Roc.exists_score hpred hw
  | accuracy | precision | sensitivity | f1 =>
    rw [score, hc]
    exact ⟨_, rfl⟩
  | _ => exact ⟨_, rfl⟩

theorem exists_loss (m : Metric) (hpred : pred.length = y.length)
    (hw : ∀ ws ∈ w, ws.length = y.length) : ∃ s, m.loss y pred w = .ok s := by
  obtain ⟨s, hs⟩ := m.exists_score hpred hw
  unfold loss
  rw [hs]
  exact ⟨_, rfl⟩

end Metric
end SymbolicRegression
