import SymbolicRegression.Boosting.Booster
import SymbolicRegression.Settings.Fit

/-!
Models: what a fit gives, and the fit that settings describe.
-/

namespace SymbolicRegression

inductive Model where
  | program (p : Program)
  | ensemble (e : Ensemble)

namespace Model

def flavor : Model → Flavor
  | program _ => .vanilla
  | ensemble _ => .boosting

def text : Model → String
  | program p => p.text
  | ensemble e => e.text

def predict (m : Model) (d : Dataset) : Except Failure (List Float) :=
  match m with
  | program p => p.predict d
  | ensemble e => e.predict d

/-- The predictions read as log odds, as probabilities. -/
def probabilities (m : Model) (d : Dataset) : Except Failure (List Float) := do
  return (← m.predict d).map Metric.sigmoid

/-- Equality in which numbers are compared as numbers. -/
def same : Model → Model → Bool
  | program p, program q => p.same q
  | ensemble e, ensemble f => e.same f
  | _, _ => false

/-! ### JSON -/

def toJson : Model → Except JsonFault Json
  | program p => p.toJson
  | ensemble e => e.toJson

/-- The JSON text of the program or of the ensemble; nothing says which of the two it is. -/
def json (m : Model) : Except Error String := (m.toJson.map Json.compact).mapError Error.json

/-- A model is a program if it can be read as one, and else an ensemble.  Why it is neither
is not told. -/
def ofJson (j : Json) : Except JsonFault Model :=
  if j.isReadable then
    match Program.ofJson true j, Ensemble.ofJson true j with
    | .ok p, _ => .ok (program p)
    | _, .ok e => .ok (ensemble e)
    | _, _ => Json.malformed
  else Json.malformed

def ofJsonText (s : String) : Except Error Model :=
  (Json.decodeText ofJson s).mapError Error.json

/-! ### Fitting -/

/-- Fits a model of the flavor that the settings name.  Settings that the flavor does not
use are not checked. -/
def fit (s : FitSettings) (entropy : Nat) (train : Dataset) (val : Option Dataset) :
    Logged Model := do
  s.checkUnknown
  match ← Flavor.parse s.flavor with
  | .vanilla =>
    let e ← Estimator.ofSettings s.evolution
    return program (← (e.fit entropy train val).2)
  | .boosting =>
    let b ← Booster.ofSettings s.evolution s.boosting
    return ensemble (← (b.fit entropy train val).2)

end Model

end SymbolicRegression
