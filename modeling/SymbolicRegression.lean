import SymbolicRegression.Numeric.Binary64
import SymbolicRegression.Decimal.Places
import SymbolicRegression.Decimal.Numeral
import SymbolicRegression.Text.Quoted
import SymbolicRegression.Program.Evaluation
import SymbolicRegression.Program.Printer
import SymbolicRegression.Program.Parser
import SymbolicRegression.Program.Stored
import SymbolicRegression.Metric.Basic
import SymbolicRegression.Random.ChaCha
import SymbolicRegression.Random.Scripted
import SymbolicRegression.Random.Sample
import SymbolicRegression.Random.Normal
import SymbolicRegression.Dataset.Sampling
import SymbolicRegression.Evolution.Island
import SymbolicRegression.Evolution.Stopping
import SymbolicRegression.Evolution.Record
import SymbolicRegression.Settings.Fit
import SymbolicRegression.Model
import SymbolicRegression.Proofs.Prediction
import SymbolicRegression.Proofs.Program.Canonical
import SymbolicRegression.Proofs.Boosting.Predictions
import SymbolicRegression.Proofs.Boosting.Checkpoints
import SymbolicRegression.Proofs.Evolution.Islands
import SymbolicRegression.Proofs.Evolution.Caching
import SymbolicRegression.Proofs.Evolution.Scheduling
import SymbolicRegression.Proofs.Evolution.Fitting
import SymbolicRegression.Proofs.Boosting.Schedule
import SymbolicRegression.Proofs.Boosting.FailedFits
import SymbolicRegression.Proofs.Evolution.Stopping
import SymbolicRegression.Proofs.Metric.RocCurve
import SymbolicRegression.Proofs.Settings.Fit
import SymbolicRegression.Proofs.Metric.Totals
import SymbolicRegression.Proofs.Boosting.Overflow
import SymbolicRegression.Proofs.Boosting.KeptScores
import SymbolicRegression.Proofs.Evolution.RunRecords
import SymbolicRegression.Proofs.Program.Replacement
import SymbolicRegression.Proofs.Evolution.Reordering
import SymbolicRegression.Proofs.Boosting.Patience
import SymbolicRegression.Proofs.Program.Enumeration
import SymbolicRegression.Proofs.Dataset.Shape
import SymbolicRegression.Proofs.Metric.Slope
import SymbolicRegression.Proofs.Evolution.Fitness
