import SymbolicRegression.Evolution.Selection
import SymbolicRegression.Evolution.Variation
import SymbolicRegression.Logged

/-!
Offspring.  Every slot of the next generation selects a parent and draws one way of
reproduction; the rest of the probability copies the parent.  Variation is tried
until the child's height lies within bounds, and after a set number of attempts the
parent is copied instead.  A child is logged when it is born, so that a later misuse
leaves the log of its elder siblings.
-/

namespace SymbolicRegression

/-- Inclusive bounds on the height of programs. -/
structure HeightBounds where
  min : Nat
  max : Nat

namespace HeightBounds

def contains (b : HeightBounds) (p : Program) : Bool := b.min ≤ p.height && p.height ≤ b.max

end HeightBounds

def variationAttempts : Nat := 8

/-- No attempt of a variation gave a child within bounds. -/
inductive VariationFault where
  | crossover (bounds : HeightBounds)
  | mutation (bounds : HeightBounds)

def VariationFault.message : VariationFault → String
  | crossover b => "Crossover failed: " ++ text b
  | mutation b => "Mutation failed: " ++ text b
where
  text (b : HeightBounds) : String :=
    s!"no offspring within heights {b.min}..={b.max} after {variationAttempts} attempts"

section

variable {σ : Type} [RandomSource σ]

/-- The first of at most `n` draws that lies within bounds. -/
def HeightBounds.firstWithin (b : HeightBounds) (draw : Draw σ Program) :
    Nat → Draw σ (Option Program)
  | 0 => return none
  | n + 1 => do
    let child ← draw
    if b.contains child then return some child else b.firstWithin draw n

def HeightBounds.mutate (b : HeightBounds) (mutation : Draw σ Program) :
    Draw σ (Except VariationFault Program) := do
  match ← b.firstWithin mutation variationAttempts with
  | some child => return .ok child
  | none => return .error (.mutation b)

def HeightBounds.cross (b : HeightBounds) (recipient donor : Program) :
    Draw σ (Except VariationFault Program) := do
  match ← b.firstWithin (Variation.crossover recipient donor) variationAttempts with
  | some child => return .ok child
  | none => return .error (.crossover b)

end

inductive Reproduction where
  | point
  | subtree
  | hoist
  | crossover
  | copy
deriving DecidableEq, Repr

def Reproduction.label : Reproduction → String
  | point => "PointMutation"
  | subtree => "SubtreeMutation"
  | hoist => "HoistMutation"
  | crossover => "SubtreeCrossover"
  | copy => "Copy"

/-- The probability of each way that changes the program. -/
structure ReproductionOdds where
  point : Float
  subtree : Float
  hoist : Float
  crossover : Float

namespace ReproductionOdds

def table (o : ReproductionOdds) : List (Float × Reproduction) :=
  [(o.point, .point), (o.subtree, .subtree), (o.hoist, .hoist), (o.crossover, .crossover)]

/-- The way whose share of the line holds `r`; a copy lies behind all shares. -/
def pick (r : Float) : (below : Float) → List (Float × Reproduction) → Reproduction
  | _, [] => .copy
  | below, (p, way) :: rest => if r < below + p then way else pick r (below + p) rest

/-- Draws a way of reproduction.  If the probabilities add up to more than one, the
draw is stretched over all of them, and nothing is copied. -/
def draw {σ : Type} [RandomSource σ] (o : ReproductionOdds) : Draw σ Reproduction := do
  let total := Scalar.sum (o.table.map (·.1))
  return pick ((← Draw.unit) * Comparable.greater total 1.0) 0.0 o.table

end ReproductionOdds

structure Offspring where
  individual : Individual
  way : Reproduction
  /-- Why the parent was copied although another way was drawn. -/
  fault : Option VariationFault

namespace Offspring

/-- The child came about in the way that was drawn. -/
def isApplied (o : Offspring) : Bool := o.fault.isNone

def log (o : Offspring) : List LogRecord :=
  match o.fault with
  | some fault => [.debug s!"{o.way.label} fell back to a copy: {fault.message}"]
  | none => []

end Offspring

structure Breeder where
  generator : Generator
  pointRate : Float
  odds : ReproductionOdds

namespace Breeder

def bounds (b : Breeder) : HeightBounds := ⟨b.generator.minHeight, b.generator.maxHeight⟩

variable {σ : Type} [RandomSource σ]

/-- The individual that a tournament selects from a pool. -/
def parent (pool : List Individual) : Draw σ Individual := do
  memberAt pool (← Tournament.select Tournament.usualSize pool)

/-- A child of a parent in a way that changes the program, or why there is none. -/
def vary (b : Breeder) (pool : List Individual) (p : Program) :
    Reproduction → Draw σ (Except VariationFault Program)
  | .point => b.bounds.mutate (Variation.point b.pointRate b.generator p)
  | .subtree => b.bounds.mutate (Variation.subtree b.generator p)
  | .hoist => b.bounds.mutate (Variation.hoist p)
  | .crossover => do
    let donor ← parent pool
    b.bounds.cross p donor.program
  | .copy => return .ok p

/-- A child of a selected parent in a way that is drawn. -/
def child (b : Breeder) (pool : List Individual) (generation : Nat) : Draw σ Offspring := do
  let chosen ← parent pool
  let way ← b.odds.draw
  if way = .copy then return { individual := chosen, way, fault := none }
  match ← b.vary pool chosen.program way with
  | .ok child => return { individual := .ofProgram child generation, way, fault := none }
  | .error fault => return { individual := chosen, way, fault := some fault }

def breed (b : Breeder) (pool : List Individual) (generation : Nat) :
    LoggedDraw σ Offspring := do
  let o ← (b.child pool generation : Draw σ Offspring)
  Logged.write o.log
  return o

/-- As many children as the pool has members. -/
def nextGeneration (b : Breeder) (pool : List Individual) (generation : Nat) :
    LoggedDraw σ (List Offspring) :=
  Draw.times pool.length (b.breed pool generation)

end Breeder

end SymbolicRegression
