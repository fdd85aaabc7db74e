import SymbolicRegression.Evolution.Individual
import SymbolicRegression.Random.Sample

/-!
Tournament selection: the best of a few members of a pool drawn at random.
-/

namespace SymbolicRegression
namespace Tournament

def usualSize : Nat := 3

/-- The number of contestants of a tournament for `n`: there is always one. -/
def sizeFor (n : Nat) : Nat := max n 1

/-- The first of the best entries of a list of numbered individuals. -/
def winner : List (Nat × Individual) → Option Nat
  | [] => none
  | e :: es =>
    some (es.foldl (fun best f => if best.2.compare f.2 == .gt then f else best) e).1

/-- The position of the winner of a tournament of `size` contestants, or of all members
if the pool is smaller. -/
def select {σ : Type} [RandomSource σ] (size : Nat) (pool : List Individual) : Draw σ Nat := do
  let picks ← Draw.sample pool.length (min size pool.length)
  let entries ← (picks.mapM fun i => do return (i, ← memberAt pool i) : Except Misuse _)
  return (winner entries).getD 0

end Tournament
end SymbolicRegression
