import SymbolicRegression.Evolution.Breeding
import SymbolicRegression.Metric.Basic
import SymbolicRegression.Settings.Table

/-!
The settings of a run of evolution, with their usual values.
-/

namespace SymbolicRegression

structure EvolutionSettings where
  lossMetric : String := "mae"
  /-- The metric on validation data; without one the loss metric. -/
  evalMetric : Option String := none
  parsimony : Float := 1e-5
  polishBest : Bool := false
  polishGenerations : Nat := 0
  /-- The names of the operators, with commas between them. -/
  functions : String := "add,sub,mul,div"
  constMin : Float := -5.0
  constMax : Float := 5.0
  /-- The probability that a leaf is a constant. -/
  pConst : Float := 0.5
  /-- The probability that a first program is full. -/
  pFull : Float := 0.5
  /-- The probability that a branch ends once it is long enough. -/
  pLeaf : Float := 0.3
  minHeight : Nat := 3
  maxHeight : Nat := 5
  islands : Nat := 1
  islandSize : Nat := 100
  generations : Nat := 30
  /-- Stop after so many generations without improvement; zero for never. -/
  stagnation : Nat := 0
  pHoist : Float := 0.1
  pSubtree : Float := 0.1
  pPoint : Float := 0.1
  pointRate : Float := 0.5
  pCrossover : Float := 0.3
  /-- The seed of all random draws; zero asks for one from outside. -/
  seed : Nat := 0
  verbose : Bool := false

namespace EvolutionSettings

/-- The settings in the order in which they are written. -/
def table : List (Setting EvolutionSettings) := [
  ⟨"loss_metric", ["lossMetric"], .text ⟨(·.lossMetric), fun v s => { s with lossMetric := v }⟩⟩,
  ⟨"eval_metric", ["evalMetric"],
    .optionalText ⟨(·.evalMetric), fun v s => { s with evalMetric := v }⟩⟩,
  ⟨"parsimony_coeff", ["parsimony_coefficient", "parsimonyCoeff"],
    .real ⟨(·.parsimony), fun v s => { s with parsimony := v }⟩⟩,
  ⟨"polish_best", ["polishBest"], .flag ⟨(·.polishBest), fun v s => { s with polishBest := v }⟩⟩,
  ⟨"n_polish_generations", ["nPolishGenerations"],
    .natural ⟨(·.polishGenerations), fun v s => { s with polishGenerations := v }⟩⟩,
  ⟨"funcs", [], .text ⟨(·.functions), fun v s => { s with functions := v }⟩⟩,
  ⟨"const_min", ["constMin"], .real ⟨(·.constMin), fun v s => { s with constMin := v }⟩⟩,
  ⟨"const_max", ["constMax"], .real ⟨(·.constMax), fun v s => { s with constMax := v }⟩⟩,
  ⟨"p_const", ["p_constant", "pConstant"],
    .real ⟨(·.pConst), fun v s => { s with pConst := v }⟩⟩,
  ⟨"p_full", ["pFull"], .real ⟨(·.pFull), fun v s => { s with pFull := v }⟩⟩,
  ⟨"p_leaf", ["p_terminal", "pTerminal"], .real ⟨(·.pLeaf), fun v s => { s with pLeaf := v }⟩⟩,
  ⟨"min_height", ["minHeight"], .natural ⟨(·.minHeight), fun v s => { s with minHeight := v }⟩⟩,
  ⟨"max_height", ["maxHeight"], .natural ⟨(·.maxHeight), fun v s => { s with maxHeight := v }⟩⟩,
  ⟨"n_populations", ["nPopulations"], .natural ⟨(·.islands), fun v s => { s with islands := v }⟩⟩,
  ⟨"n_individuals", ["nIndividuals"],
    .natural ⟨(·.islandSize), fun v s => { s with islandSize := v }⟩⟩,
  ⟨"n_generations", ["nGenerations"],
    .natural ⟨(·.generations), fun v s => { s with generations := v }⟩⟩,
  ⟨"n_stagnation_generations", ["nStagnationGenerations"],
    .natural ⟨(·.stagnation), fun v s => { s with stagnation := v }⟩⟩,
  ⟨"p_hoist_mutation", ["pHoistMutation"], .real ⟨(·.pHoist), fun v s => { s with pHoist := v }⟩⟩,
  ⟨"p_subtree_mutation", ["p_sub_tree_mutation", "pSubtreeMutation"],
    .real ⟨(·.pSubtree), fun v s => { s with pSubtree := v }⟩⟩,
  ⟨"p_point_mutation", ["pPointMutation"], .real ⟨(·.pPoint), fun v s => { s with pPoint := v }⟩⟩,
  ⟨"point_mutation_rate", ["pointMutationRate"],
    .real ⟨(·.pointRate), fun v s => { s with pointRate := v }⟩⟩,
  ⟨"p_subtree_crossover", ["p_sub_tree_crossover", "pSubtreeCrossover"],
    .real ⟨(·.pCrossover), fun v s => { s with pCrossover := v }⟩⟩,
  ⟨"seed", ["random_state", "rng_seed"], .natural ⟨(·.seed), fun v s => { s with seed := v }⟩⟩,
  ⟨"verbose", [], .flag ⟨(·.verbose), fun v s => { s with verbose := v }⟩⟩]

/-! ### Changes of several settings at once -/

def withConstants (min max : Float) (s : EvolutionSettings) : EvolutionSettings :=
  { s with constMin := min, constMax := max }

def withHeights (min max : Nat) (s : EvolutionSettings) : EvolutionSettings :=
  { s with minHeight := min, maxHeight := max }

def withPopulations (islands size : Nat) (s : EvolutionSettings) : EvolutionSettings :=
  { s with islands, islandSize := size }

/-- Polishes for so many generations, or not at all for none. -/
def withPolish (generations : Nat) (s : EvolutionSettings) : EvolutionSettings :=
  { s with polishBest := decide (0 < generations), polishGenerations := generations }

def withOdds (o : ReproductionOdds) (s : EvolutionSettings) : EvolutionSettings :=
  { s with pPoint := o.point, pSubtree := o.subtree, pHoist := o.hoist, pCrossover := o.crossover }

/-! ### What the settings stand for -/

def evalMetricName (s : EvolutionSettings) : String := s.evalMetric.getD s.lossMetric

def parseLoss (s : EvolutionSettings) : Except Error Metric := Metric.parse s.lossMetric

def parseEval (s : EvolutionSettings) : Except Error Metric := Metric.parse s.evalMetricName

def parseFunctions (s : EvolutionSettings) : Except Error FunctionSet :=
  FunctionSet.parse s.functions

/-- The generator of programs over the given operators and so many features. -/
def generatorOf (s : EvolutionSettings) (functions : FunctionSet) (featureCount : Nat) :
    Generator where
  functions
  featureCount
  constMin := s.constMin
  constMax := s.constMax
  pConst := s.pConst
  pFull := s.pFull
  pLeaf := s.pLeaf
  minHeight := s.minHeight
  maxHeight := s.maxHeight

def generator (s : EvolutionSettings) (featureCount : Nat) : Except Error Generator := do
  return s.generatorOf (← s.parseFunctions) featureCount

def odds (s : EvolutionSettings) : ReproductionOdds :=
  { point := s.pPoint, subtree := s.pSubtree, hoist := s.pHoist, crossover := s.pCrossover }

/-- All settings that are probabilities, under their names. -/
def probabilities (s : EvolutionSettings) : List (String × Float) :=
  [("p_const", s.pConst), ("p_full", s.pFull), ("p_leaf", s.pLeaf),
   ("p_hoist_mutation", s.pHoist), ("p_subtree_mutation", s.pSubtree),
   ("p_point_mutation", s.pPoint), ("point_mutation_rate", s.pointRate),
   ("p_subtree_crossover", s.pCrossover)]

def isProbability (p : Float) : Bool := 0.0 ≤ p && p ≤ 1.0

/-- Fails at the first setting that makes no sense. -/
def validate (s : EvolutionSettings) : Except Error Unit := do
  let _ ← s.parseLoss
  let _ ← s.parseEval
  let _ ← s.parseFunctions
  if s.maxHeight < s.minHeight then misconfigured (.heightsReversed s.minHeight s.maxHeight)
  if s.islands = 0 then misconfigured .noPopulations
  if s.islandSize = 0 then misconfigured .noIndividuals
  if !s.constMin.isFinite || !s.constMax.isFinite || s.constMax < s.constMin then
    misconfigured (.constantRange s.constMin s.constMax)
  if !s.parsimony.isFinite || s.parsimony < 0.0 then misconfigured .parsimony
  match s.probabilities.find? fun (_, p) => !isProbability p with
  | some (name, p) => misconfigured (.probability name p)
  | none => return ()

end EvolutionSettings

end SymbolicRegression
