import SymbolicRegression.Evolution.Individual
import SymbolicRegression.Metric.Basic
import SymbolicRegression.Program.Evaluation

/-!
Fitness of programs.
-/

namespace SymbolicRegression

/-- A way of scoring programs.  It draws nothing at random, so individuals may be
evaluated in any order. -/
abbrev Fitness := Program → Except Misuse Evaluation

/-- The loss on a table, with a penalty for each node.  A program with a prediction
or a loss that is not finite is unfit. -/
structure LossFitness where
  dataset : Dataset
  metric : Metric
  parsimony : Float

namespace LossFitness

def penalised (f : LossFitness) (loss : Float) (size : Nat) : Float :=
  loss + f.parsimony * Float.ofNat size

def evaluate (f : LossFitness) : Fitness := fun p => do
  let pred ← p.evaluate f.dataset
  if pred.any (!·.isFinite) then return .unfit
  let loss ← f.metric.loss f.dataset.target pred f.dataset.weights
  if !loss.isFinite then return .unfit
  return { fitness := f.penalised loss p.size, loss }

end LossFitness

end SymbolicRegression
