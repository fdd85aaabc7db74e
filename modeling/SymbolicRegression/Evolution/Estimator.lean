import SymbolicRegression.Evolution.Island
import SymbolicRegression.Evolution.Polishing
import SymbolicRegression.Evolution.Record
import SymbolicRegression.Evolution.Stopping
import SymbolicRegression.Program.Printer
import SymbolicRegression.Random.ChaCha
import SymbolicRegression.Settings.Evolution

/-!
Fitting a program to a table: islands evolve until a rule stops them, every generation
is recorded, and the constants of the best program may be polished in the end.
-/

namespace SymbolicRegression

structure Evolved where
  best : Individual
  record : RunRecord

/-- Valid settings with the metrics and operators they name, and the outcome of the
last fit that did not fail. -/
structure Estimator where
  settings : EvolutionSettings
  loss : Metric
  eval : Metric
  functions : FunctionSet
  last : Option Evolved

structure Evolving where
  model : IslandModel ChaCha.Stream
  generations : List GenerationRecord
  /-- The best fitness so far, after every generation. -/
  bests : List Float

namespace Estimator

def ofSettings (s : EvolutionSettings) : Except Error Estimator := do
  s.validate
  return {
    settings := s
    loss := ← s.parseLoss
    eval := ← s.parseEval
    functions := ← s.parseFunctions
    last := none }

/-! ### Records and logs -/

/-- The score of the best program so far on validation data, if there is both. -/
def validation (e : Estimator) (val : Option Dataset) (best : Option Individual) :
    Except Failure (Option Float) := do
  match val, best with
  | some val, some best =>
    let pred ← best.program.predict val
    let score ← (e.eval.score val.target pred val.weights : Except Misuse _)
    return some score
  | _, _ => return none

def generationLog (e : Estimator) (g : GenerationRecord) : List LogRecord :=
  let generation := s!"generation {g.generation}: "
  let warning : List LogRecord :=
    if g.unfit = e.settings.islands * e.settings.islandSize then
      [.warn (generation ++ "every individual is unfit")]
    else []
  let score (name : String) (x : Float) : String := name ++ " " ++ Decimal.fixed 6 x
  let progress : List LogRecord :=
    if e.settings.verbose then
      let parts := score ("train " ++ e.loss.name) g.bestLoss ::
        (g.validation.map (score ("val " ++ e.eval.name))).toList
      let size := "mean size " ++ Decimal.fixed 1 g.meanSize
      [.info (generation ++ ", ".intercalate (parts ++ [size]))]
    else []
  warning ++ progress

def recordGeneration (e : Estimator) (val : Option Dataset) (m : IslandModel ChaCha.Stream) :
    Logged GenerationRecord := do
  let validation ← e.validation val m.best
  let g := GenerationRecord.ofIndividuals m.individuals m.generation m.evaluations
  let g := { g with validation }
  Logged.write (e.generationLog g)
  return g

/-! ### The run -/

def fitness (e : Estimator) (train : Dataset) : Fitness :=
  LossFitness.evaluate { dataset := train, metric := e.loss, parsimony := e.settings.parsimony }

def breeder (e : Estimator) (train : Dataset) : Breeder where
  generator := e.settings.generatorOf e.functions train.featureCount
  pointRate := e.settings.pointRate
  odds := e.settings.odds

def stoppingRules (e : Estimator) : List StoppingRule :=
  .generations e.settings.generations ::
  if e.settings.stagnation = 0 then [] else [.stagnation e.settings.stagnation 0.0]

/-- Notes the generation that a model has reached. -/
def note (e : Estimator) (val : Option Dataset) (generations : List GenerationRecord)
    (bests : List Float) (m : IslandModel ChaCha.Stream) : Logged Evolving := do
  let g ← e.recordGeneration val m
  let best := (m.best.map (·.fitnessOrWorst)).getD Binary64.infinity
  return { model := m, generations := generations ++ [g], bests := bests ++ [best] }

def start (e : Estimator) (f : Fitness) (val : Option Dataset) (m : IslandModel ChaCha.Stream) :
    Logged Evolving := do
  let (m, outcome) ← m.start f
  outcome
  e.note val [] [] m

def step (e : Estimator) (f : Fitness) (b : Breeder) (val : Option Dataset) (r : Evolving) :
    Logged Evolving := do
  let (m, outcome) ← r.model.step f b
  outcome
  e.note val r.generations r.bests m

/-- Goes on until a rule stops the run.  The limit on generations is one of the rules, so
`left`, the generations up to the limit, never runs out before. -/
def run (e : Estimator) (f : Fitness) (b : Breeder) (val : Option Dataset) :
    (left : Nat) → Evolving → Logged (Evolving × Option StoppingRule)
  | left, r =>
    match StoppingRule.first? e.stoppingRules r.model.generation r.bests with
    | some rule => return (r, some rule)
    | none =>
      match left with
      | 0 => return (r, none)
      | left + 1 => do run e f b val left (← e.step f b val r)

def finalLog (e : Estimator) (generations : Nat) (reason : Option String) (best : Individual) :
    List LogRecord :=
  if e.settings.verbose then
    [.info (s!"fit finished after {generations} generations (" ++ reason.getD "unknown" ++
      "): best fitness " ++ Decimal.fixed 6 best.fitnessOrWorst ++ ", " ++ best.program.text)]
  else []

/-- The master stream of all draws; a seed of zero stands for `entropy`. -/
def stream (s : EvolutionSettings) (entropy : Nat) : ChaCha.Stream :=
  ChaCha.Stream.ofSeedWord (.ofNat (if s.seed = 0 then entropy else s.seed))

def finish (e : Estimator) (f : Fitness) (best : Individual) (s : ChaCha.Stream) :
    Logged Individual :=
  if e.settings.polishBest then
    (Polishing.polish f e.settings.islandSize e.settings.polishGenerations best).run' s
  else return best

/-- Evolves a program for the rows of `train`; validation data without rows count as none. -/
def evolve (e : Estimator) (entropy : Nat) (train : Dataset) (val : Option Dataset) :
    Logged Evolved := do
  if train.rowCount = 0 || train.featureCount = 0 then (throw .emptyDataset : Except Error Unit)
  let val := val.filter fun v => 0 < v.rowCount
  let b := e.breeder train
  let f := e.fitness train
  let (model, s) ← ((IslandModel.create e.settings.islands e.settings.islandSize b.generator).run
    (stream e.settings entropy) : Except Misuse (IslandModel ChaCha.Stream × ChaCha.Stream))
  let (r, rule) ← e.run f b val e.settings.generations (← e.start f val model)
  let reason := rule.map StoppingRule.reason
  match r.model.converge.best with
  | none => (throw .emptyPopulation : Except Error Evolved)
  | some best =>
    let best ← e.finish f best s
    Logged.write (e.finalLog r.model.generation reason best)
    return { best, record := { generations := r.generations, runtime := 0.0, reason } }

/-- Fits and keeps the outcome.  A fit that fails changes nothing. -/
def fit (e : Estimator) (entropy : Nat) (train : Dataset) (val : Option Dataset) :
    Estimator × Logged Program :=
  let outcome := e.evolve entropy train val
  let fitted := match outcome.result with
    | .ok evolved => { e with last := some evolved }
    | .error _ => e
  (fitted, (·.best.program) <$> outcome)

end Estimator

end SymbolicRegression
