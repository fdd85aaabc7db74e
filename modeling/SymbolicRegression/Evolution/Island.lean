import SymbolicRegression.Evolution.Breeding
import SymbolicRegression.Evolution.Population

/-!
Islands: populations that evolve side by side and never exchange individuals.  Every
island has a random stream of its own, seeded from a master stream when the islands
are made, so a run does not depend on the order in which islands move.
-/

namespace SymbolicRegression

inductive IslandPhase where
  | initialized
  /-- So many generations have been completed. -/
  | evolving (generation : Nat)
  /-- The run is over, and the island changes no more. -/
  | converged
deriving DecidableEq, Repr

/-- The phase in words, with the number of generations as a field. -/
def IslandPhase.text : IslandPhase → String
  | initialized => "Initialized"
  | evolving generation => "Evolving \x7b generation: " ++ toString generation ++ " \x7d"
  | converged => "Converged"

structure Island (τ : Type) where
  index : Nat
  population : Population
  best : Option Individual
  phase : IslandPhase
  evaluations : Nat
  stream : τ

namespace Island

variable {τ : Type} [RandomSource τ]

/-- An island with a random population drawn from a stream. -/
def create (index size : Nat) (g : Generator) (stream : τ) : Except Misuse (Island τ) := do
  let (population, stream) ← (Population.random size g).run stream
  return { index, population, best := none, phase := .initialized, evaluations := 0, stream }

section

-- Evaluations are asked for in `n`.  A generation also draws and keeps a log, and so it runs
-- in a monad that holds both.
variable {n m : Type → Type} [Monad n] (ask : Program → n Evaluation)

/-- Evaluates what has not been evaluated and keeps the best individual. -/
def evaluateM (i : Island τ) : n (Island τ) := do
  let population ← i.population.evaluateM ask
  let best := match population.best? with
    | some candidate => some (Individual.improve i.best candidate)
    | none => i.best
  return { i with population, best, evaluations := i.evaluations + i.population.pendingCount }

variable [Monad m] [MonadLiftT n m] [MonadLiftT Logged m] (b : Breeder)

/-- A generation of an evaluated island: the offspring take the place of the whole population.
Gives the offspring as well. -/
def renewM (i : Island τ) : m (Island τ × List Offspring) := do
  let generation := i.population.generation + 1
  let (offspring, stream) ←
    ((b.nextGeneration i.population.individuals generation).run i.stream : Logged _)
  let population := i.population.succeed (offspring.map (·.individual))
  let i ← ({ i with population, stream }.evaluateM ask : n _)
  return ({ i with phase := .evolving generation }, offspring)

/-- One generation.  A converged island is left alone; an empty one is an error. -/
def evolveM (i : Island τ) : m (Island τ × List Offspring) := do
  if i.phase = .converged then return (i, [])
  if i.population.individuals.isEmpty then
    ((throw .emptyPopulation : Except Error Unit) : Logged Unit)
  let i ← if i.population.isEvaluated then pure i else (i.evaluateM ask : n _)
  i.renewM ask b

end

/-- An evaluation with the answers of a fitness. -/
def evaluate (f : Fitness) (i : Island τ) : Except Misuse (Island τ) := i.evaluateM f

/-- A generation with the answers of a fitness. -/
def evolve (f : Fitness) (b : Breeder) (i : Island τ) : Logged (Island τ × List Offspring) :=
  i.evolveM f b

def converge (i : Island τ) : Island τ := { i with phase := .converged }

/-- Takes all individuals away; what has been reached stays. -/
def clear (i : Island τ) : Island τ :=
  { i with population := { i.population with individuals := [] } }

end Island

structure IslandModel (τ : Type) where
  islands : List (Island τ)
  best : Option Individual
  generation : Nat

namespace IslandModel

variable {σ τ : Type} [RandomSource σ] [SeededSource τ]

/-- Islands with random populations, each with a stream seeded from the master stream. -/
def createIslands (size : Nat) (g : Generator) (index : Nat) : Nat → Draw σ (List (Island τ))
  | 0 => return []
  | n + 1 => do
    let seed ← Draw.seed
    let island ← (Island.create index size g (SeededSource.ofSeed seed) : Except Misuse (Island τ))
    return island :: (← createIslands size g (index + 1) n)

def create (count size : Nat) (g : Generator) : Draw σ (IslandModel τ) := do
  return { islands := ← createIslands size g 0 count, best := none, generation := 0 }

/-- Takes over the best individuals of the islands, the first island first. -/
def gatherBest (m : IslandModel τ) : IslandModel τ :=
  { m with
    best := m.islands.foldl (fun known i => match i.best with
      | some candidate => some (Individual.improve known candidate)
      | none => known) m.best }

/-- An error if no individual has been evaluated on any island. -/
def checkBest (m : IslandModel τ) : Except Error Unit :=
  if m.best.isSome then .ok () else .error .emptyPopulation

/-- Evaluates the first populations.  The model changes even where there is an error. -/
def start (f : Fitness) (m : IslandModel τ) :
    Except Misuse (IslandModel τ × Except Error Unit) := do
  let m := { m with islands := ← m.islands.mapM (Island.evaluate f) }.gatherBest
  return (m, m.checkBest)

/-- One generation on all islands, without their logs.  If an island cannot evolve, the
model stays. -/
def step (f : Fitness) (b : Breeder) (m : IslandModel τ) :
    Except Misuse (IslandModel τ × Except Error Unit) :=
  match m.islands.mapM fun i => (·.1) <$> (i.evolve f b).result with
  | .ok islands =>
    let m := { m with islands, generation := m.generation + 1 }.gatherBest
    .ok (m, m.checkBest)
  | .error (.error e) => .ok (m, .error e)
  | .error (.misuse u) => .error u

def converge (m : IslandModel τ) : IslandModel τ :=
  { m with islands := m.islands.map Island.converge }

def evaluations (m : IslandModel τ) : Nat := m.islands.foldl (fun n i => n + i.evaluations) 0

def individuals (m : IslandModel τ) : List Individual :=
  m.islands.flatMap (·.population.individuals)

end IslandModel

end SymbolicRegression
