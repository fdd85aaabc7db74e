import SymbolicRegression.Metric.Mean

/-!
Metrics for predictions of one of two classes.  A raw prediction is read as
log-odds: it says `positive` when it is above zero, and a target is positive when it
is above one half.
-/

namespace SymbolicRegression
namespace Metric

open Comparable Scalar

variable {α : Type} [Scalar α]

def half : α := ofDecimal 5 1

/-- The distance that probabilities keep from zero and one. -/
def margin : α := ofDecimal 1 15

def sigmoid (x : α) : α := ofNat 1 / (ofNat 1 + exp (-x))

def isPositive (y : α) : Bool := less half y

def keepOff (p : α) : α := clamp margin (ofNat 1 - margin) p

def surprise (y p : α) : α := -(y * log p + (ofNat 1 - y) * log (ofNat 1 - p))

/-- The cross-entropy of a target and the probability of a raw prediction. -/
def crossEntropy (y raw : α) : α := surprise y (keepOff (sigmoid raw))

def meanCrossEntropy (y pred : List α) (w : Option (List α)) : α := meanOf crossEntropy y pred w

def entropySlope (y raw : α) : α := sigmoid raw - y

def priorLogOdds (y : List α) (w : Option (List α)) : α :=
  let p := keepOff (weightedMean y w)
  log (p / (ofNat 1 - p))

/-- Weights of the rows by target and prediction. -/
structure Confusion (α : Type) where
  truePositive : α
  falsePositive : α
  falseNegative : α
  trueNegative : α

namespace Confusion

def none : Confusion α := ⟨ofNat 0, ofNat 0, ofNat 0, ofNat 0⟩

def add (c : Confusion α) (row : (α × α) × α) : Confusion α :=
  let ((y, pred), w) := row
  match isPositive y, less (ofNat 0) pred with
  | true, true => { c with truePositive := c.truePositive + w }
  | false, true => { c with falsePositive := c.falsePositive + w }
  | true, false => { c with falseNegative := c.falseNegative + w }
  | false, false => { c with trueNegative := c.trueNegative + w }

def tally (y pred : List α) (w : Option (List α)) : Except Misuse (Confusion α) := do
  let rows := List.zip y pred
  return (List.zip rows (← rowWeights rows.length w)).foldl add none

def accuracy (c : Confusion α) : α :=
  ratio (c.truePositive + c.trueNegative)
    (c.truePositive + c.falsePositive + c.falseNegative + c.trueNegative)

def precision (c : Confusion α) : α :=
  ratio c.truePositive (c.truePositive + c.falsePositive)

def sensitivity (c : Confusion α) : α :=
  ratio c.truePositive (c.truePositive + c.falseNegative)

def f1 (c : Confusion α) : α :=
  ratio (ofNat 2 * c.truePositive)
    (ofNat 2 * c.truePositive + c.falsePositive + c.falseNegative)

end Confusion

end Metric
end SymbolicRegression
