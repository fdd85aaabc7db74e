import SymbolicRegression.Program.Basic
import SymbolicRegression.Random.Draw

/-!
Random programs.

A tree is given a target height, drawn from the allowed range.  A full tree has all
leaves at that height; in the other trees a branch may end in a leaf as soon as the
least height is reached.
-/

namespace SymbolicRegression

/-- What random programs are made of. -/
structure Generator where
  functions : FunctionSet
  featureCount : Nat
  constMin : Float
  constMax : Float
  /-- The probability that a leaf is a constant. -/
  pConst : Float
  /-- The probability that a tree is full. -/
  pFull : Float
  /-- The probability that a branch ends once it is long enough. -/
  pLeaf : Float
  minHeight : Nat
  maxHeight : Nat

namespace FunctionSet

variable {σ : Type} [RandomSource σ]

def draw (fs : FunctionSet) : Draw σ Operator := Draw.choose fs.ops

/-- An operator of the given arity, if the set has one. -/
def drawOfArity (fs : FunctionSet) (arity : Nat) : Draw σ (Option Operator) :=
  match fs.ops.filter (·.arity == arity) with
  | [] => return none
  | ops => do return some (← Draw.choose ops)

end FunctionSet

namespace Generator

/-- A generator with the usual shapes and constants. -/
def ofFunctions (functions : FunctionSet) (featureCount : Nat) : Generator where
  functions
  featureCount
  constMin := -5.0
  constMax := 5.0
  pConst := 0.5
  pFull := 0.5
  pLeaf := 0.3
  minHeight := 3
  maxHeight := 5

variable {σ : Type} [RandomSource σ]

/-- A constant of the range, or its lower end if the range holds nothing else. -/
def drawConstant (g : Generator) : Draw σ Float :=
  if g.constMax ≤ g.constMin then return g.constMin else Draw.real g.constMin g.constMax

/-- A constant or a feature; without features always a constant. -/
def leaf (g : Generator) : Draw σ Program := do
  if g.featureCount = 0 then return .constant (← g.drawConstant)
  if ← Draw.bool g.pConst then return .constant (← g.drawConstant)
  return .feature (← Draw.below g.featureCount)

/-- A tree with all leaves at the given height. -/
def full (g : Generator) : (height : Nat) → Draw σ Program
  | 0 => g.leaf
  | height + 1 => do
    let op ← g.functions.draw
    return .call op (← Draw.times op.arity (full g height))

/-- A tree with all leaves between two heights, the least and the greatest. -/
def grow (g : Generator) : (required height : Nat) → Draw σ Program
  | _, 0 => g.leaf
  | 0, height + 1 => do
    if ← Draw.bool g.pLeaf then g.leaf
    else
      let op ← g.functions.draw
      return .call op (← Draw.times op.arity (grow g 0 height))
  | required + 1, height + 1 => do
    let op ← g.functions.draw
    return .call op (← Draw.times op.arity (grow g required height))

def tree (g : Generator) (required height : Nat) (isFull : Bool) : Draw σ Program :=
  if isFull then g.full height else g.grow required height

/-- A random program. -/
def draw (g : Generator) : Draw σ Program := do
  let height ← Draw.range g.minHeight (max g.maxHeight g.minHeight)
  g.tree (min g.minHeight height) height (← Draw.bool g.pFull)

/-- A random subtree that is not higher than the room there is for it. -/
def subtree (g : Generator) (room : Nat) : Draw σ Program := do
  let height ← Draw.range 0 room
  g.tree 0 height (← Draw.bool g.pFull)

end Generator

end SymbolicRegression
