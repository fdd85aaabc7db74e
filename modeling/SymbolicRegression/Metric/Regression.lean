import SymbolicRegression.Metric.Mean

/-!
Metrics for predictions of a number.
-/

namespace SymbolicRegression
namespace Metric

open Comparable Scalar

variable {α : Type} [Scalar α]

def squaredError (y pred : α) : α := square (y - pred)

def meanAbsoluteError (y pred : List α) (w : Option (List α)) : α :=
  meanOf (fun t p => abs (t - p)) y pred w

def meanSquaredError (y pred : List α) (w : Option (List α)) : α :=
  meanOf squaredError y pred w

def rootMeanSquaredError (y pred : List α) (w : Option (List α)) : α :=
  sqrt (meanSquaredError y pred w)

/-- The coefficient of determination.  A target without spread scores one when it is
met exactly and zero otherwise. -/
def determination (y pred : List α) (w : Option (List α)) : α :=
  let mean := weightedMean y w
  let residual := meanOf squaredError y pred w
  let spread := meanOf (fun t _ => square (t - mean)) y y w
  if same spread (ofNat 0) then
    if same residual (ofNat 0) then ofNat 1 else ofNat 0
  else ofNat 1 - residual / spread

/-- The slope of the absolute error: the side on which a prediction misses. -/
def absoluteSlope (y pred : α) : α :=
  if less y pred then ofNat 1 else if less pred y then -ofNat 1 else ofNat 0

def squaredSlope (y pred : α) : α := ofNat 2 * (pred - y)

end Metric
end SymbolicRegression
