import SymbolicRegression.Evolution.Fitness
import SymbolicRegression.Program.Generator

/-!
Populations: individuals that live at the same time, and the number of generations
that came before them.
-/

namespace SymbolicRegression

structure Population where
  individuals : List Individual
  generation : Nat

namespace Population

def ofIndividuals (individuals : List Individual) : Population := ⟨individuals, 0⟩

def random {σ : Type} [RandomSource σ] (size : Nat) (g : Generator) : Draw σ Population := do
  return ofIndividuals ((← Draw.times size g.draw).map (Individual.ofProgram · 0))

def size (p : Population) : Nat := p.individuals.length

def best? (p : Population) : Option Individual :=
  Individual.best? (p.individuals.filter (·.isEvaluated))

def isEvaluated (p : Population) : Bool := p.individuals.all (·.isEvaluated)

def unfitCount (p : Population) : Nat :=
  p.individuals.countP fun i => i.fitness.any (!·.isFinite)

section

variable {m : Type → Type} [Monad m] (ask : Program → m Evaluation)

/-- An individual with its evaluation, which is asked for only if it is missing. -/
def evaluateOne (i : Individual) : m Individual :=
  if i.isEvaluated then return i else return i.withEvaluation (← ask i.program)

/-- The individuals are evaluated in their order. -/
def evaluateM (p : Population) : m Population := do
  return { p with individuals := ← p.individuals.mapM (evaluateOne ask) }

end

/-- An evaluation with the answers of a fitness. -/
def evaluate (f : Fitness) (p : Population) : Except Misuse Population := p.evaluateM f

def pendingCount (p : Population) : Nat := p.individuals.countP (!·.isEvaluated)

def succeed (p : Population) (offspring : List Individual) : Population :=
  { individuals := offspring, generation := p.generation + 1 }

def meanSize (p : Population) : Float :=
  if p.individuals.isEmpty then 0.0
  else Scalar.sum (p.individuals.map fun i => Float.ofNat i.program.size) / Float.ofNat p.size

end Population

end SymbolicRegression
