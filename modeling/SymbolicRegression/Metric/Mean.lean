import SymbolicRegression.Misuse
import SymbolicRegression.Numeric.Scalar

/-!
Weighted means, on which most metrics rest, and the weights of single rows.
-/

namespace SymbolicRegression
namespace Metric

open Comparable Scalar

variable {α : Type} [Scalar α]

/-- The weighted mean, or the plain mean without weights.  Values without a partner
do not count, and a total weight that is not positive gives zero. -/
def weightedMean (values : List α) : Option (List α) → α
  | some w =>
    let total := sum w
    if atMost total (ofNat 0) then ofNat 0
    else sum (List.zipWith (· * ·) values w) / total
  | none =>
    if values.isEmpty then ofNat 0 else sum values / ofNat values.length

/-- The weighted mean of a quantity of each row; rows end with the shorter list. -/
def meanOf (f : α → α → α) (y pred : List α) (w : Option (List α)) : α :=
  weightedMean (List.zipWith f y pred) w

/-- One weight for each of the first `n` rows, one where there are no weights. -/
def rowWeights (n : Nat) : Option (List α) → Except Misuse (List α)
  | none => .ok (List.replicate n (ofNat 1))
  | some w => if n ≤ w.length then .ok (w.take n) else .error (.outOfRange w.length w.length)

end Metric
end SymbolicRegression
