import SymbolicRegression.Boosting.EarlyStopping
import SymbolicRegression.Boosting.Ensemble
import SymbolicRegression.Boosting.LineSearch
import SymbolicRegression.Boosting.Round
import SymbolicRegression.Dataset.Sampling
import SymbolicRegression.Evolution.Estimator
import SymbolicRegression.Settings.Boosting

/-!
Boosting: every round fits a program to the negative slopes of the loss at the present
predictions, and the program is added to the ensemble with a step.  The predictions are
kept up to date, so no round evaluates an earlier learner again.

How a round fits its program is a parameter: `Booster.boost` works with any way to do so.
-/

namespace SymbolicRegression

/-- Fits a program to a table, with a seed of its own. -/
abbrev ProgramFitter := Dataset → (seed : Nat) → Logged Program

structure Boosted where
  ensemble : Ensemble
  rounds : List RoundRecord

/-- Valid settings with the metrics they name, and the outcome of the last fit that did
not fail. -/
structure Booster where
  evolution : EvolutionSettings
  boosting : BoostingSettings
  loss : Metric
  /-- The slope of the loss of a row with respect to its prediction. -/
  slope : Float → Float → Float
  eval : Metric
  last : Option Boosted

structure Boosting (σ : Type) where
  ensemble : Ensemble
  trained : List Float
  validated : List Float
  stopping : EarlyStopping Float
  rounds : List RoundRecord
  stream : σ

namespace Booster

/-- The loss has to have a slope. -/
def ofSettings (evolution : EvolutionSettings) (boosting : BoostingSettings) :
    Except Error Booster := do
  let loss ← evolution.parseLoss
  match (loss.slope? : Option (Float → Float → Float)) with
  | none => throw (.notDifferentiable loss.name)
  | some slope =>
    evolution.validate
    boosting.validate
    let eval ← evolution.parseEval
    return { evolution, boosting, loss, slope, eval, last := none }

/-! ### One round -/

/-- The rows and features of a round, with the residuals of the rows as the target. -/
def roundData (b : Booster) (train : Dataset) (pred : List Float) (rows features : List Nat) :
    Except Failure Dataset := do
  let slopes := List.zipWith b.slope train.target pred
  let residuals ← (rows.mapM fun i => do return -(← memberAt slopes i) : Except Misuse _)
  let part ← train.subset rows features
  part.withTarget residuals

def drawRound {σ : Type} [RandomSource σ] (b : Booster) (train : Dataset) :
    Draw σ (List Nat × List Nat × Nat) := do
  let rows ← Dataset.sampleIndices train.rowCount b.boosting.rowShare
  let features ← Dataset.sampleIndices train.featureCount b.boosting.featureShare
  return (rows, features, ← Draw.seedWord)

/-- The multiplier of the learner with the given values. -/
def multiplier (b : Booster) (train : Dataset) (pred values : List Float) : Except Misuse Float :=
  if b.boosting.lineSearch then
    GoldenSection.multiplier fun m =>
      b.loss.loss train.target (Ensemble.accumulate m pred values) train.weights
  else .ok 1.0

def isCheckpoint (b : Booster) (round : Nat) : Bool :=
  round % b.boosting.monitorEvery == 0 || round == b.boosting.rounds

variable {σ : Type}

/-- Adds a learner with the given values on training data. -/
def addLearner (train : Dataset) (val : Option Dataset) (b : Booster) (p : Boosting σ)
    (program : Program) (values : List Float) : Except Failure (Float × Boosting σ) := do
  let step := (← (b.multiplier train p.trained values : Except Misuse _)) * b.boosting.learningRate
  let validated ← match val with
    | some v => do pure (Ensemble.accumulate step p.validated (← program.predict v))
    | none => pure p.validated
  return (step, { p with
    ensemble := p.ensemble.push program step
    trained := Ensemble.accumulate step p.trained values
    validated })

/-- Scores the ensemble, on validation data at checkpoints only. -/
def noteRound (train : Dataset) (val : Option Dataset) (b : Booster) (round : Nat) (step : Float)
    (p : Boosting σ) : Except Misuse (RoundRecord × Boosting σ) := do
  let training ← b.loss.score train.target p.trained train.weights
  let validation ← match val with
    | some v =>
      if b.isCheckpoint round then do pure (some (← b.eval.score v.target p.validated v.weights))
      else pure none
    | none => pure none
  let record := { round, step, training, validation, learners := p.ensemble.size : RoundRecord }
  let stopping := match validation with
    | some score => p.stopping.note score p.ensemble.size
    | none => p.stopping
  return (record, { p with stopping, rounds := p.rounds ++ [record] })

def roundLog (b : Booster) (r : RoundRecord) : List LogRecord :=
  if b.evolution.verbose then
    let score (kind : String) (m : Metric) (x : Float) : String :=
      ", " ++ kind ++ " " ++ m.name ++ " " ++ Decimal.fixed 6 x
    [.info (s!"round {r.round}: step " ++ Decimal.fixed 4 r.step ++
      score "train" b.loss r.training ++ ((r.validation.map (score "val" b.eval)).getD ""))]
  else []

def stopLog (b : Booster) (round : Nat) (e : EarlyStopping Float) : List LogRecord :=
  if b.evolution.verbose then
    [.info (s!"early stopping at round {round}, best {b.eval.name} " ++
      Decimal.fixed 6 (e.bestValue.getD Binary64.nan) ++ s!" with {e.bestCount} learners")]
  else []

variable [RandomSource σ]

/-- One round, and whether the fit goes on after it.  A learner that is not finite on all
rows of the training data is dropped, and the round leaves no other trace. -/
def round (b : Booster) (fitter : ProgramFitter) (train : Dataset) (val : Option Dataset)
    (round : Nat) (p : Boosting σ) : Logged (Boosting σ × Bool) := do
  let ((rows, features, seed), stream) ← ((b.drawRound train).run p.stream :
    Except Misuse ((List Nat × List Nat × Nat) × σ))
  let p := { p with stream }
  let data ← b.roundData train p.trained rows features
  let program ← fitter data seed
  let program ← program.remap features
  let values ← program.evaluate train
  if values.any (!·.isFinite) then
    Logged.write [.warn
      (s!"round {round}: learner " ++ program.text ++ " is not finite on training data, skipped")]
    return (p, true)
  let (step, p) ← addLearner train val b p program values
  let (record, p) ← noteRound train val b round step p
  Logged.write (b.roundLog record)
  if record.validation.isSome && p.stopping.isExhausted then
    Logged.write (b.stopLog round p.stopping)
    return (p, false)
  return (p, true)

def rounds (b : Booster) (fitter : ProgramFitter) (train : Dataset) (val : Option Dataset) :
    (next left : Nat) → Boosting σ → Logged (Boosting σ)
  | _, 0, p => return p
  | next, left + 1, p => do
    let (p, goesOn) ← b.round fitter train val next p
    if goesOn then rounds b fitter train val (next + 1) left p else return p

/-! ### The fit -/

/-- Nothing fitted yet: the base predicts the same for all rows. -/
def start (b : Booster) (train : Dataset) (val : Option Dataset) (stream : σ) : Boosting σ :=
  let base := b.loss.base train.target train.weights
  { ensemble := .ofBase base
    trained := List.replicate train.rowCount base
    validated := List.replicate ((val.map Dataset.rowCount).getD 0) base
    stopping := .start b.boosting.patience b.eval.biggerIsBetter
    rounds := []
    stream }

def kept (b : Booster) (p : Boosting σ) : Ensemble :=
  if b.boosting.keepBest && p.stopping.best.isSome then p.ensemble.truncate p.stopping.bestCount
  else p.ensemble

/-- Fits an ensemble.  Validation data without rows count as none, and without them there
are no checkpoints to stop at or to go back to. -/
def boost (b : Booster) (fitter : ProgramFitter) (stream : σ) (train : Dataset)
    (val : Option Dataset) : Logged Boosted := do
  let val := val.filter fun v => 0 < v.rowCount
  if val.isNone && (0 < b.boosting.patience || b.boosting.keepBest) then
    (misconfigured .validationNeeded : Except Error Unit)
  let p ← b.rounds fitter train val 1 b.boosting.rounds (b.start train val stream)
  return { ensemble := b.kept p, rounds := p.rounds }

/-- The usual way to fit a round's program: evolution for the least squares, without
validation data. -/
def evolveProgram (s : EvolutionSettings) : ProgramFitter := fun data seed => do
  let e ← Estimator.ofSettings
    { s with lossMetric := Metric.mse.name, evalMetric := none, verbose := false, seed }
  return (← e.evolve seed data none).best.program

/-- Fits and keeps the outcome.  A fit that fails changes nothing. -/
def fit (b : Booster) (entropy : Nat) (train : Dataset) (val : Option Dataset) :
    Booster × Logged Ensemble :=
  let stream := Estimator.stream b.evolution entropy
  let outcome := b.boost (evolveProgram b.evolution) stream train val
  let fitted := match outcome.result with
    | .ok boosted => { b with last := some boosted }
    | .error _ => b
  (fitted, (·.ensemble) <$> outcome)

end Booster

end SymbolicRegression
