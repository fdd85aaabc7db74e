import SymbolicRegression.Numeric.Binary64
import SymbolicRegression.Random.Sample

/-!
Random selections of rows and columns.
-/

namespace SymbolicRegression
namespace Dataset

/-- The size of a share of `n`: rounded up, at least one and at most all. -/
def shareSize (n : Nat) (fraction : Float) : Except Misuse Nat :=
  let all := Float.ofNat n
  if all < 1.0 then .error (.tooFew n 1)
  else .ok (Binary64.toWord (Comparable.clamp 1.0 all (Binary64.ceiling (all * fraction))))

/-- A share of the numbers below `n`, in ascending order.  The whole is taken without
a draw. -/
def sampleIndices {σ : Type} [RandomSource σ] (n : Nat) (fraction : Float) :
    Draw σ (List Nat) := do
  if 1.0 ≤ fraction then return List.range n
  let amount ← (shareSize n fraction : Except Misuse Nat)
  return (← Draw.sample n amount).mergeSort

end Dataset
end SymbolicRegression
