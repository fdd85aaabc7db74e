import SymbolicRegression.Error
import SymbolicRegression.Metric.Regression
import SymbolicRegression.Metric.RocCurve
import SymbolicRegression.Numeric.Binary64

/-!
The metrics of the library.  All of them score predictions; the three that also have
a slope with respect to the predictions can drive boosting.
-/

namespace SymbolicRegression

inductive Metric where
  | mae
  | mse
  | rmse
  | r2
  | logLoss
  | accuracy
  | precision
  | sensitivity
  | f1
  | rocAuc
deriving DecidableEq, Repr

namespace Metric

def all : List Metric :=
  [mae, mse, rmse, r2, logLoss, accuracy, precision, sensitivity, f1, rocAuc]

def name : Metric → String
  | mae => "mae"
  | mse => "mse"
  | rmse => "rmse"
  | r2 => "r2"
  | logLoss => "logloss"
  | accuracy => "accuracy"
  | precision => "precision"
  | sensitivity => "recall"
  | f1 => "f1"
  | rocAuc => "roc_auc"

/-- The metric of a name, in any case and with blanks around it; two of them have a
second name. -/
def ofName? (s : String) : Option Metric :=
  match Text.fold s with
  | "log_loss" => some logLoss
  | "auc" => some rocAuc
  | folded => all.find? fun m => m.name = folded

def parse (s : String) : Except Error Metric :=
  match ofName? s with
  | some m => .ok m
  | none => .error (.unknownMetric s)

def biggerIsBetter : Metric → Bool
  | mae | mse | rmse | logLoss => false
  | r2 | accuracy | precision | sensitivity | f1 | rocAuc => true

def isDifferentiable : Metric → Bool
  | mae | mse | logLoss => true
  | _ => false

section

variable {α : Type} [Scalar α]

/-- The score of predictions against targets, with a weight for each row if there are
weights. -/
def score (m : Metric) (y pred : List α) (w : Option (List α)) : Except Misuse α :=
  match m with
  | mae => .ok (meanAbsoluteError y pred w)
  | mse => .ok (meanSquaredError y pred w)
  | rmse => .ok (rootMeanSquaredError y pred w)
  | r2 => .ok (determination y pred w)
  | logLoss => .ok (meanCrossEntropy y pred w)
  | accuracy => do return (← Confusion.tally y pred w).accuracy
  | precision => do return (← Confusion.tally y pred w).precision
  | sensitivity => do return (← Confusion.tally y pred w).sensitivity
  | f1 => do return (← Confusion.tally y pred w).f1
  | rocAuc => Roc.score y pred w

/-- The score turned so that less is better. -/
def loss (m : Metric) (y pred : List α) (w : Option (List α)) : Except Misuse α := do
  let s ← m.score y pred w
  return if m.biggerIsBetter then -s else s

/-- The slope of the loss of one row with respect to its prediction. -/
def slope? (m : Metric) : Option (α → α → α) :=
  match m with
  | mae => some absoluteSlope
  | mse => some squaredSlope
  | logLoss => some entropySlope
  | _ => none

def gradient? (m : Metric) (y pred : List α) : Option (List α) :=
  m.slope?.map fun f => List.zipWith f y pred

/-- The constant prediction that boosting starts from. -/
def base (m : Metric) (y : List α) (w : Option (List α)) : α :=
  match m with
  | logLoss => priorLogOdds y w
  | _ => weightedMean y w

end

end Metric

end SymbolicRegression
