import SymbolicRegression.Error
import SymbolicRegression.Settings.Table

/-!
The settings of boosting, with their usual values.
-/

namespace SymbolicRegression

structure BoostingSettings where
  rounds : Nat := 100
  /-- Stop after so many checkpoints without improvement; zero for never. -/
  patience : Nat := 0
  learningRate : Float := 0.08
  lineSearch : Bool := false
  rowShare : Float := 1.0
  featureShare : Float := 1.0
  keepBest : Bool := false
  /-- Every so many rounds there is a checkpoint. -/
  monitorEvery : Nat := 1

namespace BoostingSettings

/-- The settings in the order in which they are written. -/
def table : List (Setting BoostingSettings) := [
  ⟨"n_rounds", ["nRounds"], .natural ⟨(·.rounds), fun v s => { s with rounds := v }⟩⟩,
  ⟨"n_early_stopping_rounds", ["nEarlyStoppingRounds"],
    .natural ⟨(·.patience), fun v s => { s with patience := v }⟩⟩,
  ⟨"learning_rate", ["learningRate"],
    .real ⟨(·.learningRate), fun v s => { s with learningRate := v }⟩⟩,
  ⟨"line_search", ["lineSearch"], .flag ⟨(·.lineSearch), fun v s => { s with lineSearch := v }⟩⟩,
  ⟨"row_sampling", ["rowSampling"], .real ⟨(·.rowShare), fun v s => { s with rowShare := v }⟩⟩,
  ⟨"col_sampling", ["colSampling"],
    .real ⟨(·.featureShare), fun v s => { s with featureShare := v }⟩⟩,
  ⟨"use_best_rounds", ["useBestRounds"], .flag ⟨(·.keepBest), fun v s => { s with keepBest := v }⟩⟩,
  ⟨"monitor_every", ["monitorEvery"],
    .natural ⟨(·.monitorEvery), fun v s => { s with monitorEvery := v }⟩⟩]

def withShares (rows features : Float) (s : BoostingSettings) : BoostingSettings :=
  { s with rowShare := rows, featureShare := features }

def withStopping (patience : Nat) (keepBest : Bool) (s : BoostingSettings) : BoostingSettings :=
  { s with patience, keepBest }

def isShare (x : Float) : Bool := 0.0 < x && x ≤ 1.0

/-- Fails at the first setting that makes no sense. -/
def validate (s : BoostingSettings) : Except Error Unit := do
  if s.rounds = 0 then misconfigured .noRounds
  if s.monitorEvery = 0 then misconfigured .noMonitoring
  if !s.learningRate.isFinite || s.learningRate ≤ 0.0 then
    misconfigured (.learningRate s.learningRate)
  if !isShare s.rowShare then misconfigured (.fraction "row_sampling" s.rowShare)
  if !isShare s.featureShare then misconfigured (.fraction "col_sampling" s.featureShare)

end BoostingSettings

end SymbolicRegression
