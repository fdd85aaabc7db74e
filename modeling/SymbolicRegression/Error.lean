import SymbolicRegression.Misuse
import SymbolicRegression.Decimal.Layout
import SymbolicRegression.Text.Quoted

/-!
What can go wrong, as causes, and the one place where causes are put into words.
-/

namespace SymbolicRegression

open Decimal Text

/-- Why a program text or an operator application inside a stored program was rejected. -/
inductive ParseFault where
  /-- No token where a node has to start. -/
  | expectedNode (offset : Nat) (input : String)
  | expectedChar (c : Char) (offset : Nat) (input : String)
  | unknownToken (token : String) (offset : Nat) (input : String)
  | trailingInput (offset : Nat) (input : String)
  /-- An operator stands over the wrong number of operands. -/
  | operandCount (op : String) (arity given : Nat)

inductive Misconfiguration where
  | emptyFunctionSet
  | heightsReversed (min max : Nat)
  | noPopulations
  | noIndividuals
  | constantRange (min max : Float)
  | parsimony
  | probability (name : String) (value : Float)
  | noRounds
  | noMonitoring
  | learningRate (value : Float)
  | fraction (name : String) (value : Float)
  | unknownOptions (keys : List String)
  | validationNeeded
  | raggedRows
  | rowCount (rows targets : Nat)
  | columnLength (feature rows targets : Nat)
  | weightCount (weights rows : Nat)
  | weightValue
  | missingFeature (feature count : Nat)
  | fileFormat (extension? : Option String)

/-- Why stored JSON was rejected, or could not be written. -/
inductive JsonFault where
  /-- The text is no JSON, or not of the expected shape. -/
  | malformed
  | unknownFunction (name : String)
  | program (fault : ParseFault)
  | nonFinite (value : Float)

inductive Error where
  | unknownMetric (name : String)
  | notDifferentiable (metric : String)
  | unknownFlavor (name : String)
  | unknownFunction (name : String)
  | configuration (cause : Misconfiguration)
  | emptyDataset
  | emptyPopulation
  | parse (fault : ParseFault)
  | json (fault : JsonFault)
  | toml
  | io

/-- An error of the library, or a misuse by the caller. -/
inductive Failure where
  | error (e : Error)
  | misuse (m : Misuse)

instance : MonadLift (Except Error) (Except Failure) where
  monadLift x := x.mapError Failure.error

instance : MonadLift (Except Misuse) (Except Failure) where
  monadLift x := x.mapError Failure.misuse

def ParseFault.message : ParseFault → String
  | expectedNode offset input => at_ "expected a node" offset input
  | expectedChar c offset input => at_ s!"expected '{c}'" offset input
  | unknownToken token offset input => at_ s!"unknown token {quote token}" offset input
  | trailingInput offset input => at_ "trailing input" offset input
  | operandCount op arity given => s!"{op} takes {arity} operands, got {given}"
where
  at_ (what : String) (offset : Nat) (input : String) : String :=
    s!"{what} at offset {offset} in {quote input}"

def Misconfiguration.message : Misconfiguration → String
  | emptyFunctionSet => "function set is empty"
  | heightsReversed min max => s!"min_height ({min}) > max_height ({max})"
  | noPopulations => "n_populations must be at least 1"
  | noIndividuals => "n_individuals must be at least 1"
  | constantRange min max => s!"invalid constant range [{plainText min}, {plainText max}]"
  | parsimony => "parsimony_coeff must be finite and non-negative"
  | probability name value => s!"{name} must lie in [0, 1], got {plainText value}"
  | noRounds => "n_rounds must be at least 1"
  | noMonitoring => "monitor_every must be at least 1"
  | learningRate value => s!"learning_rate must be positive, got {plainText value}"
  | fraction name value => s!"{name} must lie in (0, 1], got {plainText value}"
  | unknownOptions keys => "unknown option(s): " ++ ", ".intercalate keys
  | validationNeeded => "early stopping requires validation data"
  | raggedRows => "rows have differing numbers of features"
  | rowCount rows targets => s!"{rows} rows for {targets} targets"
  | columnLength feature rows targets =>
    s!"feature {feature} has {rows} rows, target has {targets}"
  | weightCount weights rows => s!"{weights} weights for {rows} rows"
  | weightValue => "weights must be finite and non-negative"
  | missingFeature feature count =>
    s!"program references feature x{feature} but the dataset has {count} features"
  | fileFormat extension? =>
    "unsupported configuration format: " ++ extension?.getD "<none>"

/-- The text of an error.  Malformed JSON and TOML and unreadable files have no
text of this library's own. -/
def Error.message? : Error → Option String
  | unknownMetric name => some s!"Unknown metric: '{name}'"
  | notDifferentiable metric =>
    some s!"Metric '{metric}' is not differentiable and cannot drive boosting"
  | unknownFlavor name => some s!"Unknown flavor: '{name}'"
  | unknownFunction name => some s!"Unknown function: '{name}'"
  | configuration cause => some ("Invalid configuration: " ++ cause.message)
  | emptyDataset => some "Empty dataset"
  | emptyPopulation => some "Empty population"
  | parse fault => some ("Parse error: " ++ fault.message)
  | json .malformed => none
  | json (.unknownFunction name) => some s!"Unknown function: '{name}'"
  | json (.program fault) => some ("Parse error: " ++ fault.message)
  | json (.nonFinite value) => some s!"constant {exactText value} has no JSON form"
  | toml => none
  | io => none

def misconfigured {α : Type} (cause : Misconfiguration) : Except Error α :=
  .error (.configuration cause)

end SymbolicRegression
