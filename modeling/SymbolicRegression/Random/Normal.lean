import SymbolicRegression.Random.Draw
import SymbolicRegression.Random.Ziggurat

/-!
Standard normal draws by the ziggurat method: a point is drawn in a random layer and
accepted if it lies under the density, which most points do at a glance.
-/

namespace SymbolicRegression
namespace Draw

variable {σ : Type} [RandomSource σ]

open Ziggurat

/-- A real strictly between zero and one. -/
def openUnit : Draw σ Float := do
  return ((← coarseUnit) + 1.0) - (1.0 - Float.ofScientific 11102230246251565 true 32)

/-- The distance of a point of the tail from its edge; `xx` and `yy` are the last candidate,
which is taken when the attempts are used up. -/
def tailFrom (xx yy : Float) : Nat → Draw σ Float
  | 0 => return xx
  | fuel + 1 => do
    if -2.0 * yy < xx * xx then
      let a ← openUnit
      let c ← openUnit
      tailFrom (Float.log a / tailEdge) (Float.log c) fuel
    else return xx

/-- Points are drawn until one lies under the density.  When the attempts are used up, the
middle is taken. -/
def normalFrom : Nat → Draw σ Float
  | 0 => return 0.0
  | fuel + 1 => do
    let bits ← word64
    let i := (bits &&& 255).toNat
    let fraction := Float.ofNat (bits >>> 12).toNat * Float.ofScientific 2220446049250313 true 31
    let u := (fraction + 1.0) * 2.0 - 3.0
    let x := u * edges.getD i 0.0
    if x.abs < edges.getD (i + 1) 0.0 then return x
    else if i = 0 then
      let xx ← tailFrom 1.0 0.0 attempts
      return if u < 0.0 then xx - tailEdge else tailEdge - xx
    else
      let low := heights.getD (i + 1) 0.0
      let y := low + (heights.getD i 0.0 - low) * (← unit)
      if y < Float.exp (-x * x / 2.0) then return x else normalFrom fuel

def normal : Draw σ Float := normalFrom attempts

end Draw
end SymbolicRegression
